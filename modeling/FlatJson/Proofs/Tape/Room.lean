import FlatJson.Proofs.Carries

/-!
# Room in a document

Where null stands in a text that is tokenized, any scalar may stand: the text is then
tokenized under the same limits, and the token of the scalar has the index that the token
of null had (`exists_room`).
-/

namespace FlatJson

open Ascii

namespace Grammar

/-- Null lies in the text of a tree between two others, and any scalar may lie there. The
index is that of its token in the listing of a tree whose text begins at an offset. -/
def Tree.Room (t : Tree) (start i : Nat) (front back : Bytes) : Prop :=
  t.text = front ++ (Word.null.text ++ back) ∧
    ∀ x : Lexeme, ∃ u : Tree, u.text = front ++ (x.text ++ back) ∧ u.height = t.height ∧
      (u.tokens start)[i]? = some (x.token (start + front.length))

/-- The same for some children. -/
def Children.Room {isObject : Bool} (children : Children isObject) (start i : Nat)
    (front back : Bytes) : Prop :=
  children.text = front ++ (Word.null.text ++ back) ∧
    ∀ x : Lexeme, ∃ others : Children isObject,
      others.text = front ++ (x.text ++ back) ∧ others.height = children.height ∧
        (others.tokens start)[i]? = some (x.token (start + front.length))

section

variable {isObject : Bool} {t : Tree} {children : Children isObject} {start i : Nat}
  {front back : Bytes}

theorem Tree.room_null (start : Nat) : (Tree.scalar (.word .null)).Room start 0 [] [] :=
  ⟨rfl, fun x => ⟨.scalar x, (List.append_nil _).symm, rfl, rfl⟩⟩

theorem Children.Room.container (h : children.Room (start + 1) i front back) :
    (Tree.container isObject children).Room start (i + 1) (opener isObject :: front)
      (back ++ [closer isObject]) := by
  obtain ⟨htext, hfill⟩ := h
  refine ⟨by simp [Tree.text, htext], fun x => ?_⟩
  obtain ⟨others, hothers, hheight, htoken⟩ := hfill x
  refine ⟨.container isObject others, by simp [Tree.text, hothers], congrArg (· + 1) hheight, ?_⟩
  rw [Tree.tokens, List.getElem?_cons_succ, htoken, List.length_cons, Nat.add_assoc,
    Nat.add_comm 1]

variable (label : Label isObject) (before after : Blanks)

theorem Tree.Room.last
    (h : t.Room (start + label.text.length + before.bytes.length) i front back) :
    (Children.last label before t after).Room start ((label.tokens start).length + i)
      (label.text ++ before.bytes ++ front) (back ++ after.bytes) := by
  obtain ⟨htext, hfill⟩ := h
  refine ⟨by simp [Children.text, htext], fun x => ?_⟩
  obtain ⟨u, hu, hheight, htoken⟩ := hfill x
  refine ⟨.last label before u after, by simp [Children.text, hu], hheight, ?_⟩
  rw [Children.tokens, List.getElem?_append_right (Nat.le_add_right _ _), Nat.add_sub_cancel_left,
    htoken, List.length_append, List.length_append, Nat.add_assoc, Nat.add_assoc, Nat.add_assoc]

theorem Tree.Room.more (rest : Children isObject)
    (h : t.Room (start + label.text.length + before.bytes.length) i front back) :
    (Children.more label before t after rest).Room start ((label.tokens start).length + i)
      (label.text ++ before.bytes ++ front) (back ++ (after.bytes ++ comma :: rest.text)) := by
  obtain ⟨htext, hfill⟩ := h
  refine ⟨by simp [Children.text, htext], fun x => ?_⟩
  obtain ⟨u, hu, hheight, htoken⟩ := hfill x
  refine ⟨.more label before u after rest, by simp [Children.text, hu],
    congrArg (max · rest.height) hheight, ?_⟩
  have hi := (List.getElem?_eq_some_iff.mp htoken).1
  rw [Children.tokens, List.append_assoc, List.getElem?_append_right (Nat.le_add_right _ _),
    Nat.add_sub_cancel_left, List.getElem?_append_left hi, htoken, List.length_append,
    List.length_append, Nat.add_assoc, Nat.add_assoc, Nat.add_assoc]

theorem Children.Room.more (v : Tree)
    (h : children.Room (start + label.text.length + before.bytes.length + v.text.length +
      after.bytes.length + 1) i front back) :
    (Children.more label before v after children).Room start
      ((label.tokens start).length +
        ((v.tokens (start + label.text.length + before.bytes.length)).length + i))
      (label.text ++ before.bytes ++ v.text ++ after.bytes ++ comma :: front) back := by
  obtain ⟨htext, hfill⟩ := h
  refine ⟨by simp [Children.text, htext], fun x => ?_⟩
  obtain ⟨others, hothers, hheight, htoken⟩ := hfill x
  refine ⟨.more label before v after others, by simp [Children.text, hothers],
    congrArg (max v.height ·) hheight, ?_⟩
  rw [Children.tokens, List.append_assoc, List.getElem?_append_right (Nat.le_add_right _ _),
    Nat.add_sub_cancel_left, List.getElem?_append_right (Nat.le_add_right _ _),
    Nat.add_sub_cancel_left, htoken]
  simp only [List.length_append, List.length_cons]
  congr 2
  omega

end

theorem Label.kind_of_getElem? {isObject : Bool} {label : Label isObject} {start i : Nat}
    {token : Token} (h : (label.tokens start)[i]? = some token) : token.kind = .string := by
  cases label with
  | element => cases h
  | name before s after =>
      obtain rfl := List.mem_singleton.mp (List.mem_of_getElem? h)
      rfl

/-- What has an index in two lists, one behind the other, has one in one of them. -/
theorem getElem?_append_cases {α : Type} {xs ys : List α} {i : Nat} {a : α}
    (h : (xs ++ ys)[i]? = some a) :
    xs[i]? = some a ∨ ∃ j, i = xs.length + j ∧ ys[j]? = some a := by
  rcases Nat.lt_or_ge i xs.length with hi | hi
  · exact .inl (by rwa [List.getElem?_append_left hi] at h)
  · rw [List.getElem?_append_right hi] at h
    exact .inr ⟨i - xs.length, (Nat.add_sub_cancel' hi).symm, h⟩

mutual

/-- There is room where the token of null stands. -/
theorem Tree.exists_room : ∀ (t : Tree) {start i : Nat} {token : Token},
    (t.tokens start)[i]? = some token → token.kind = .null →
    ∃ front back, token.start = start + front.length ∧ t.Room start i front back
  | .scalar x, start, 0, token, h, hkind => by
      cases h
      cases x with
      | word w =>
          cases w <;> cases hkind
          exact ⟨[], [], rfl, Tree.room_null start⟩
      | number n => cases hkind
      | string s => cases hkind
  | .scalar _, _, _ + 1, _, h, _ => by cases h
  | .empty isObject _, _, 0, _, h, hkind => by
      cases h
      cases isObject <;> cases hkind
  | .empty _ _, _, _ + 1, _, h, _ => by cases h
  | .container isObject _, _, 0, _, h, hkind => by
      cases h
      cases isObject <;> cases hkind
  | .container isObject children, start, i + 1, token, h, hkind => by
      obtain ⟨front, back, hstart, hroom⟩ := children.exists_room h hkind
      refine ⟨_, _, ?_, hroom.container⟩
      rw [hstart, List.length_cons, Nat.add_assoc, Nat.add_comm 1]

theorem Children.exists_room : ∀ {isObject : Bool} (children : Children isObject) {start i : Nat}
    {token : Token}, (children.tokens start)[i]? = some token → token.kind = .null →
    ∃ front back, token.start = start + front.length ∧ children.Room start i front back
  | _, .last label before v after, start, i, token, h, hkind => by
      rcases getElem?_append_cases h with hlabel | ⟨j, rfl, hj⟩
      · cases hkind.symm.trans (Label.kind_of_getElem? hlabel)
      · obtain ⟨front, back, hstart, hroom⟩ := v.exists_room hj hkind
        refine ⟨_, _, ?_, hroom.last label before after⟩
        rw [hstart]
        simp only [List.length_append]
        omega
  | _, .more label before v after rest, start, i, token, h, hkind => by
      rw [Children.tokens, List.append_assoc] at h
      rcases getElem?_append_cases h with hlabel | ⟨j, rfl, hj⟩
      · cases hkind.symm.trans (Label.kind_of_getElem? hlabel)
      rcases getElem?_append_cases hj with hv | ⟨k, rfl, hk⟩
      · obtain ⟨front, back, hstart, hroom⟩ := v.exists_room hv hkind
        refine ⟨_, _, ?_, hroom.more label before after rest⟩
        rw [hstart]
        simp only [List.length_append]
        omega
      · obtain ⟨front, back, hstart, hroom⟩ := rest.exists_room hk hkind
        refine ⟨_, _, ?_, hroom.more label before after v⟩
        rw [hstart]
        simp only [List.length_append, List.length_cons]
        omega

end

end Grammar

open Grammar

/-- A scalar that takes the place of null in a document has the token at the index at which
null had one. -/
theorem Tape.exists_room {limits : Limits} {front back : Bytes} {tape : Tape} {i : Nat}
    {t : Token}
    (h : Tape.ofSource limits (.ofBytes (front ++ (Word.null.text ++ back))) = .ok tape)
    (ht : tape.tokens[i]? = some t) (hkind : t.kind = .null) (hstart : t.start = front.length)
    (x : Lexeme) :
    ∃ filled : Tape, Tape.ofSource limits (.ofBytes (front ++ (x.text ++ back))) = .ok filled ∧
      filled.tokens[i]? = some (x.token front.length) := by
  obtain ⟨d, hd, hheight, hlisting⟩ := Scan.document_eq_ok_iff.mp (read_fst_eq_ok_iff.mp h)
  have hdocument : d.text = front ++ (Word.null.text ++ back) := hd
  have htokens : tape.tokens = d.tree.tokens (0 + d.before.bytes.length) := hlisting
  rw [htokens] at ht
  obtain ⟨before, after, hplace, htree, hfill⟩ := d.tree.exists_room ht hkind
  -- The token tells where null lies in the document, and so what lies around it.
  have hcut : (d.before.bytes ++ before) ++ (Word.null.text ++ (after ++ d.after.bytes)) =
      front ++ (Word.null.text ++ back) := by
    rw [← hdocument, Document.text, htree]
    simp only [List.append_assoc]
  have hlength : (d.before.bytes ++ before).length = front.length := by
    rw [← hstart, hplace, List.length_append, Nat.zero_add]
  obtain ⟨rfl, hback⟩ := List.append_inj hcut hlength
  obtain rfl := List.append_cancel_left hback
  obtain ⟨u, hu, huheight, htoken⟩ := hfill x
  have hfilled : Document.text ⟨d.before, u, d.after⟩ =
      d.before.bytes ++ before ++ (x.text ++ (after ++ d.after.bytes)) := by
    rw [Document.text, hu]
    simp only [List.append_assoc]
  refine ⟨⟨Document.tokens 0 ⟨d.before, u, d.after⟩⟩, ?_, ?_⟩
  · rw [← hfilled]
    exact Document.ofSource_text (huheight.trans_le hheight)
  · rw [Document.tokens, htoken, List.length_append, Nat.zero_add]

/-- A place in a document that is being written: if null is written between what is written
before it and what is written after it, the document is tokenized, and null has the token
at an index. -/
structure Slot (limits : Limits) (before after : Emission) (front back : Bytes) (i : Nat) :
    Prop where
  before : before.Writes front
  after : after.Writes back
  room : ∃ tape t,
    Tape.ofSource limits (.ofBytes (front ++ (Word.null.text ++ back))) = .ok tape ∧
      tape.tokens[i]? = some t ∧ t.kind = .null ∧ t.start = front.length

/-- What is carried as a scalar goes into every slot: it is written between the same texts,
and read off the token at the index. -/
theorem Codec.Carries.slot {α : Type} {c : Codec α} {s : Lexeme} {x y : α}
    (h : c.Carries (.scalar s) x y) {limits : Limits} {before after : Emission}
    {front back : Bytes} {i : Nat} (hslot : Slot limits before after front back i) :
    (before ++ (c.emit x ++ after)).toBytes = .ok (front ++ (s.text ++ back)) ∧
    ∃ tape, Tape.ofSource limits (.ofBytes (front ++ (s.text ++ back))) = .ok tape ∧
      tape.tokens[i]? = some (s.token front.length) ∧
      c.decode (tape.cursorAt (.ofBytes (front ++ (s.text ++ back))) i) =
        .ok y (tape.cursorAt (.ofBytes (front ++ (s.text ++ back))) (i + 1)) := by
  obtain ⟨hbefore, hafter, tape, t, htape, ht, hkind, hstart⟩ := hslot
  obtain ⟨filled, hfilled, htoken⟩ := Tape.exists_room htape ht hkind hstart s
  refine ⟨Emission.toBytes_of_writes (hbefore.append (h.writes.append hafter)), filled, hfilled,
    htoken, ?_⟩
  have hlies : Lies (Source.ofBytes (front ++ (s.text ++ back))).toBytes front.length s.text :=
    ⟨front, back, rfl, rfl⟩
  have hdrop : filled.tokens.drop i = s.token front.length :: filled.tokens.drop (i + 1) := by
    rw [List.drop_eq_getElem?_toList_append, htoken]
    rfl
  rw [Tape.cursorAt, hdrop]
  exact h.reads hlies i (filled.tokens.drop (i + 1))

end FlatJson
