import Mathlib.Order.Bounds.Defs
import FlatJson.Proofs.Embedding

/-!
# Parts of a document

Every token of a tape begins a part of the document: a value with all that is in it, or a
name. The listing of a tree is `Parted`: from each of its tokens on stands the listing of a
tree that lies in the text, and the tokens behind that listing begin behind that tree. Both
ways of telling where a part ends follow from this. The counts of a tape end a part where
the spans do (`Tape.skipValue_by_spans`), and the bytes of a part are a document of their
own with the tokens and the values of the part (`Tape.part_alone`).
-/

namespace FlatJson

/-- The token with the quotes of a string in its span. -/
def Token.withQuotes (t : Token) : Token :=
  if t.kind = .string then { t with start := t.start - 1, stop := t.stop + 1 } else t

namespace Grammar

/-- The token that a tree begins with, where its text begins at an offset. -/
def Tree.head (start : Nat) : Tree → Token
  | .scalar x => x.token start
  | .empty isObject inside => ⟨containerKind isObject, start, start + inside.bytes.length + 2, 0⟩
  | .container isObject children =>
    ⟨containerKind isObject, start, start + children.text.length + 2, children.size⟩

/-- The tokens of a tree behind the first. -/
def Tree.inner (start : Nat) : Tree → List Token
  | .container _ children => children.tokens (start + 1)
  | _ => []

theorem Tree.tokens_eq (t : Tree) (start : Nat) :
    t.tokens start = t.head start :: t.inner start := by
  cases t <;> rfl

/-- The first token spans the text of the tree, apart from the quotes of a string. -/
theorem Tree.head_span (t : Tree) (start : Nat) :
    start ≤ (t.head start).start ∧ (t.head start).start ≤ (t.head start).stop ∧
      (t.head start).start < start + t.text.length ∧
      (t.head start).stop ≤ start + t.text.length := by
  have hpos := t.length_text_pos
  cases t with
  | scalar x =>
      cases x <;>
        simp only [head, Lexeme.token, Token.scalar, Tree.text, Lexeme.text, Quoted.text,
          List.length_cons, List.length_append, List.length_nil] at hpos ⊢ <;>
        omega
  | empty isObject inside =>
      simp only [head, Tree.text, List.length_cons, List.length_append, List.length_nil]
      omega
  | container isObject children =>
      simp only [head, Tree.text, List.length_cons, List.length_append, List.length_nil]
      omega

theorem Tree.withQuotes_head (t : Tree) (start : Nat) :
    (t.head start).withQuotes.start = start ∧
      (t.head start).withQuotes.stop = start + t.text.length := by
  cases t with
  | scalar x =>
      cases x with
      | word w => cases w <;> exact ⟨rfl, rfl⟩
      | number n => exact ⟨rfl, rfl⟩
      | string q =>
          simp only [head, Lexeme.token, Token.scalar, Token.withQuotes, if_true, Tree.text,
            Lexeme.text, Quoted.text, List.length_cons, List.length_append, List.length_nil]
          omega
  | empty isObject inside =>
      cases isObject <;> simp [head, containerKind, Token.withQuotes, Tree.text] <;> omega
  | container isObject children =>
      cases isObject <;> simp [head, containerKind, Token.withQuotes, Tree.text] <;> omega

/-- Some tokens begin with the listing of a tree, which lies in the text between the offsets
`first` and `last`. The tokens behind the listing begin behind the tree. -/
structure Fronts (text : Bytes) (depth first last : Nat) (ts : List Token) (t : Tree)
    (start : Nat) (after : List Token) : Prop where
  tokens : ts = t.tokens start ++ after
  lies : Lies text start t.text
  height : t.height ≤ depth
  first_le : first ≤ start
  le_last : start + t.text.length ≤ last
  beyond : ∀ u ∈ after, start + t.text.length ≤ u.start

/-- Some tokens begin with the listing of a tree from each of them on. -/
inductive Parted (text : Bytes) (depth first last : Nat) : List Token → Prop
  | nil : Parted text depth first last []
  | cons {u : Token} {us after : List Token} {t : Tree} {start : Nat} :
      Fronts text depth first last (u :: us) t start after → Parted text depth first last us →
      Parted text depth first last (u :: us)

section Parted

variable {text : Bytes} {depth first middle last : Nat} {ts us after : List Token} {t : Tree}
  {start : Nat}

theorem Fronts.mono (h : Fronts text depth first last ts t start after) {depth' first' last' : Nat}
    (hdepth : depth ≤ depth') (hfirst : first' ≤ first) (hlast : last ≤ last') :
    Fronts text depth' first' last' ts t start after :=
  { h with
    height := h.height.trans hdepth
    first_le := hfirst.trans h.first_le
    le_last := h.le_last.trans hlast }

theorem Fronts.append (h : Fronts text depth first middle ts t start after)
    (hlast : middle ≤ last) (hus : ∀ u ∈ us, middle ≤ u.start) :
    Fronts text depth first last (ts ++ us) t start (after ++ us) := by
  refine { h.mono (Nat.le_refl _) (Nat.le_refl _) hlast with
    tokens := ?_
    beyond := ?_ }
  · rw [h.tokens, List.append_assoc]
  · intro u hu
    rcases List.mem_append.mp hu with hu | hu
    · exact h.beyond u hu
    · exact h.le_last.trans (hus u hu)

namespace Parted

theorem mono (h : Parted text depth first last ts) {depth' first' last' : Nat}
    (hdepth : depth ≤ depth') (hfirst : first' ≤ first) (hlast : last ≤ last') :
    Parted text depth' first' last' ts := by
  induction h with
  | nil => exact .nil
  | cons hfront _ ih => exact .cons (hfront.mono hdepth hfirst hlast) ih

/-- All spans lie between the two offsets. -/
theorem within (h : Parted text depth first last ts) :
    ∀ u ∈ ts, first ≤ u.start ∧ u.start ≤ u.stop ∧ u.stop ≤ last := by
  induction h with
  | nil => simp
  | @cons u us after t start hfront _ ih =>
      have htokens := hfront.tokens
      rw [t.tokens_eq, List.cons_append] at htokens
      obtain ⟨rfl, -⟩ := List.cons.inj htokens
      have hspan := t.head_span start
      have hfirst := hfront.first_le
      have hlast := hfront.le_last
      exact List.forall_mem_cons.mpr ⟨by omega, ih⟩

/-- What stands in one stretch of the text is followed by what stands in the next. -/
theorem append (h : Parted text depth first middle ts) (hs : Parted text depth middle last us)
    (hfirst : first ≤ middle) (hlast : middle ≤ last) :
    Parted text depth first last (ts ++ us) := by
  induction h with
  | nil => exact hs.mono (Nat.le_refl _) hfirst (Nat.le_refl _)
  | cons hfront _ ih =>
      -- What stands behind the first tree now goes on with the second stretch.
      exact .cons (hfront.append hlast fun u hu => (hs.within u hu).1) ih

theorem drop (h : Parted text depth first last ts) (i : Nat) :
    Parted text depth first last (ts.drop i) := by
  induction h generalizing i with
  | nil => rw [List.drop_nil]; exact .nil
  | cons hfront hrest ih =>
      cases i with
      | zero => exact .cons hfront hrest
      | succ i => exact ih i

end Parted

theorem Label.parted {isObject : Bool} (label : Label isObject) (h : Lies text start label.text) :
    Parted text depth start (start + label.text.length) (label.tokens start) := by
  cases label with
  | element => exact .nil
  | name before q after =>
      have hlies : Lies text (start + before.bytes.length) q.text := h.left.left.right
      have hfront : Fronts text depth start (start + (Label.name before q after).text.length)
          [(Lexeme.string q).token (start + before.bytes.length)] (.scalar (.string q))
          (start + before.bytes.length) [] := by
        refine ⟨rfl, hlies, Nat.zero_le _, Nat.le_add_right _ _, ?_, by simp⟩
        simp only [Label.text, Tree.text, Lexeme.text, List.length_append]
        omega
      exact .cons hfront .nil

mutual

/-- The listing of a tree is parted. -/
theorem Tree.parted : ∀ (t : Tree) {start : Nat}, Lies text start t.text → t.height ≤ depth →
    Parted text depth start (start + t.text.length) (t.tokens start)
  | .scalar x, start, h, hheight =>
      .cons ⟨(List.append_nil _).symm, h, hheight, Nat.le_refl _, Nat.le_refl _, by simp⟩ .nil
  | .empty isObject inside, start, h, hheight =>
      .cons ⟨(List.append_nil _).symm, h, hheight, Nat.le_refl _, Nat.le_refl _, by simp⟩ .nil
  | .container isObject children, start, h, hheight => by
      refine .cons ⟨(List.append_nil _).symm, h, hheight, Nat.le_refl _, Nat.le_refl _, by simp⟩ ?_
      rw [Tree.height] at hheight
      refine (Children.parted children h.tail.left (Nat.le_of_succ_le hheight)).mono
        (Nat.le_refl _) (Nat.le_succ _) ?_
      simp only [Tree.text, List.length_cons, List.length_append, List.length_nil]
      omega

theorem Children.parted : ∀ {isObject : Bool} (children : Children isObject) {start : Nat},
    Lies text start children.text → children.height ≤ depth →
    Parted text depth start (start + children.text.length) (children.tokens start)
  | _, .last label before t after, start, h, hheight => by
      obtain ⟨hlabel, ht⟩ := Children.lies_last h
      have hvalue : Parted text depth (start + label.text.length)
          (start + (Children.last label before t after).text.length)
          (t.tokens (start + label.text.length + before.bytes.length)) := by
        refine (Tree.parted t ht hheight).mono (Nat.le_refl _) (Nat.le_add_right _ _) ?_
        simp only [Children.text, List.length_append]
        omega
      refine (label.parted hlabel).append hvalue (Nat.le_add_right _ _) ?_
      simp only [Children.text, List.length_append]
      omega
  | _, .more label before t after others, start, h, hheight => by
      obtain ⟨hlabel, ht, hothers⟩ := Children.lies_more h
      rw [Children.height] at hheight
      have hlength : (Children.more label before t after others).text.length =
          label.text.length + before.bytes.length + t.text.length + after.bytes.length + 1 +
            others.text.length := by
        simp only [Children.text, List.length_append, List.length_cons]
        omega
      have hvalue : Parted text depth (start + label.text.length)
          (start + label.text.length + before.bytes.length + t.text.length + after.bytes.length + 1)
          (t.tokens (start + label.text.length + before.bytes.length)) := by
        refine (Tree.parted t ht ((Nat.le_max_left _ _).trans hheight)).mono (Nat.le_refl _)
          (Nat.le_add_right _ _) ?_
        omega
      have hrest := (Children.parted others hothers ((Nat.le_max_right _ _).trans hheight)).mono
        (Nat.le_refl _) (Nat.le_refl _)
        (show _ ≤ start + (Children.more label before t after others).text.length by omega)
      exact ((label.parted hlabel).append hvalue (Nat.le_add_right _ _) (by omega)).append hrest
        (by omega) (by omega)

end

/-- The spans of the tokens behind the first lie inside its span if they belong to the tree,
and behind it if they do not. -/
theorem Fronts.spans {u : Token} (h : Fronts text depth first last (u :: us) t start after) :
    u = t.head start ∧ us = t.inner start ++ after ∧
      (∀ w ∈ t.inner start, u.start < w.start ∧ w.start ≤ w.stop ∧ w.stop < u.stop) ∧
      ∀ w ∈ after, u.start < w.start ∧ u.stop ≤ w.start := by
  have htokens := h.tokens
  rw [t.tokens_eq, List.cons_append] at htokens
  obtain ⟨rfl, hus⟩ := List.cons.inj htokens
  refine ⟨rfl, hus, ?_, ?_⟩
  · intro w hw
    cases t with
    | scalar x => cases hw
    | empty isObject inside => cases hw
    | container isObject children =>
        have hspan := (children.parted h.lies.tail.left (Nat.le_of_succ_le h.height)).within w hw
        simp only [Tree.head]
        omega
  · intro w hw
    have hspan := t.head_span start
    have hbeyond := h.beyond w hw
    omega

/-- The same by the places of the tokens. -/
theorem Fronts.spans_getElem? {u w : Token}
    (h : Fronts text depth first last (u :: us) t start after) {m : Nat} (hw : us[m]? = some w) :
    (m < (t.inner start).length ∧ u.start < w.start ∧ w.start ≤ w.stop ∧ w.stop < u.stop) ∨
      ((t.inner start).length ≤ m ∧ u.stop ≤ w.start) := by
  obtain ⟨-, hus, hinner, hafter⟩ := h.spans
  rw [hus] at hw
  by_cases hm : m < (t.inner start).length
  · rw [List.getElem?_append_left hm] at hw
    exact .inl ⟨hm, hinner w (List.mem_of_getElem? hw)⟩
  · rw [List.getElem?_append_right (Nat.not_lt.mp hm)] at hw
    exact .inr ⟨Nat.not_lt.mp hm, (hafter w (List.mem_of_getElem? hw)).2⟩

theorem Parted.pairwise (h : Parted text depth first last ts) :
    ts.Pairwise fun u w => u.start < w.start := by
  induction h with
  | nil => exact .nil
  | cons hfront _ ih =>
      obtain ⟨-, hus, hinner, hafter⟩ := hfront.spans
      refine .cons (fun w hw => ?_) ih
      rw [hus] at hw
      rcases List.mem_append.mp hw with hw | hw
      · exact (hinner w hw).1
      · exact (hafter w hw).1

end Parted

end Grammar

namespace Tape

open ByteReader LawfulReader Grammar

variable {ρ : Type} [ByteReader ρ] [LawfulReader ρ] {limits : Limits} {r : ρ} {tape : Tape}

theorem parted_of_read (h : (Tape.read limits r).1 = .ok tape) :
    ∃ first last, Parted (content r) limits.maxDepth first last tape.tokens := by
  obtain ⟨d, htext, hheight, htokens⟩ := Scan.document_eq_ok_iff.mp (read_fst_eq_ok_iff.mp h)
  rw [htokens]
  exact ⟨_, _, d.tree.parted (d.lies_tree htext) hheight⟩

/-- From every token on, a tape begins with the listing of a tree, and behind that listing a
cursor comes to rest that passes over the value. -/
theorem fronts_of_read (h : (Tape.read limits r).1 = .ok tape)
    (hlimit : limit r ≤ Token.maxEntries) {i : Nat} {t : Token}
    (ht : tape.tokens[i]? = some t) :
    ∃ (tree : Tree) (start first last : Nat),
      Fronts (content r) limits.maxDepth first last (t :: tape.tokens.drop (i + 1)) tree start
        (tape.tokens.drop (i + (tree.tokens start).length)) ∧
      (tape.tokens.take (i + (tree.tokens start).length)).drop i = tree.tokens start ∧
      ∀ source : Source, Decoder.skipValue (tape.cursorAt source i) =
        .ok () (tape.cursorAt source (i + (tree.tokens start).length)) := by
  obtain ⟨first, last, hparted⟩ := parted_of_read h
  have hdrop : tape.tokens.drop i = t :: tape.tokens.drop (i + 1) := by
    rw [List.drop_eq_getElem?_toList_append, ht]
    rfl
  have hfrom := hparted.drop i
  rw [hdrop] at hfrom
  cases hfrom with
  | @cons u us after tree start hfront _ =>
      have htokens := hdrop.trans hfront.tokens
      have hafter : tape.tokens.drop (i + (tree.tokens start).length) = after := by
        rw [← List.drop_drop, htokens, List.drop_left]
      have hsmall : (tree.tokens start).length ≤ Token.maxEntries := by
        have htext := tree.length_tokens_le start
        have hlies := hfront.lies.le_length
        rw [limit_eq] at hlimit
        omega
      refine ⟨tree, start, first, last, hafter ▸ hfront, ?_, fun source => ?_⟩
      · rw [List.drop_take, htokens, Nat.add_sub_cancel_left, List.take_left]
      · rw [cursorAt, cursorAt, htokens, hafter]
        exact Decoder.skipValue_tokens tree hsmall after

/-- Counts and spans describe the same structure. Tokens begin one behind the other. From every
token on, a cursor passes over the value, by counts alone, to the first token that begins
where the span of the token ends or further on, or else to the end of the tape. The tokens
that it passes have their spans inside that span, and all later ones behind it. A cursor counts
up to `Token.maxEntries`, which no text in memory exceeds. -/
theorem skipValue_by_spans (h : (Tape.read limits r).1 = .ok tape)
    (hlimit : limit r ≤ Token.maxEntries) (source : Source) :
    tape.tokens.Pairwise (fun t u => t.start < u.start) ∧
      ∀ i t, tape.tokens[i]? = some t →
        ∃ j, Decoder.skipValue (tape.cursorAt source i) = .ok () (tape.cursorAt source j) ∧
          IsLeast {k | i < k ∧
            (k = tape.size ∨ ∃ u, tape.tokens[k]? = some u ∧ t.stop ≤ u.start)} j ∧
          ∀ k u, i < k → tape.tokens[k]? = some u →
            (k < j ∧ t.start < u.start ∧ u.stop < t.stop) ∨ (j ≤ k ∧ t.stop ≤ u.start) := by
  obtain ⟨_, _, hparted⟩ := parted_of_read h
  refine ⟨hparted.pairwise, fun i t ht => ?_⟩
  obtain ⟨tree, start, _, _, hfront, -, hskip⟩ := fronts_of_read h hlimit ht
  have hlength : (tree.tokens start).length = (tree.inner start).length + 1 := by
    rw [tree.tokens_eq, List.length_cons]
  have hsize : i + (tree.tokens start).length ≤ tape.size := by
    have hi := (List.getElem?_eq_some_iff.mp ht).1
    have hlengths := congrArg List.length hfront.tokens
    simp only [List.length_cons, List.length_append, List.length_drop] at hlengths
    unfold size
    omega
  have hbehind : ∀ k u, i < k → tape.tokens[k]? = some u →
      (k < i + (tree.tokens start).length ∧ t.start < u.start ∧ u.start ≤ u.stop ∧
          u.stop < t.stop) ∨
        (i + (tree.tokens start).length ≤ k ∧ t.stop ≤ u.start) := by
    intro k u hk hu
    obtain ⟨m, rfl⟩ := Nat.exists_eq_add_of_le hk
    rw [← List.getElem?_drop] at hu
    rcases hfront.spans_getElem? hu with ⟨hm, hspan⟩ | ⟨hm, hstop⟩
    · exact .inl ⟨by omega, hspan⟩
    · exact .inr ⟨by omega, hstop⟩
  refine ⟨_, hskip source, ⟨⟨by omega, ?_⟩, ?_⟩, fun k u hk hu => ?_⟩
  · -- The token behind the value, if there is one.
    rcases Nat.eq_or_lt_of_le hsize with hend | hlt
    · exact .inl hend
    · have hu := List.getElem?_eq_getElem hlt
      rcases hbehind _ _ (by omega) hu with ⟨hfalse, -⟩ | ⟨-, hstop⟩
      · exact absurd hfalse (Nat.lt_irrefl _)
      · exact .inr ⟨_, hu, hstop⟩
  · rintro k ⟨hk, rfl | ⟨u, hu, hstop⟩⟩
    · exact hsize
    · rcases hbehind k u hk hu with ⟨-, -, hspan, hinside⟩ | ⟨hle, -⟩
      · exact absurd hstop (by omega)
      · exact hle
  · rcases hbehind k u hk hu with ⟨hlt, hstart, -, hstop⟩ | hlater
    · exact .inl ⟨hlt, hstart, hstop⟩
    · exact .inr hlater

/-- In `{"":[],"a":""}` the empty name ends where it begins, and the first token behind it is
the empty array. -/
theorem skipValue_by_spans_empty :
    (Tape.read {} (SliceReader.ofSource (.ofBytes [0x7B, 0x22, 0x22, 0x3A, 0x5B, 0x5D, 0x2C, 0x22,
        0x61, 0x22, 0x3A, 0x22, 0x22, 0x7D]))).1 =
      .ok ⟨[⟨.object, 0, 14, 2⟩, ⟨.string, 2, 2, 0⟩, ⟨.array, 4, 6, 0⟩, ⟨.string, 8, 9, 0⟩,
        ⟨.string, 12, 12, 0⟩]⟩ ∧
    limit (SliceReader.ofSource (.ofBytes [0x7B, 0x22, 0x22, 0x3A, 0x5B, 0x5D, 0x2C, 0x22, 0x61,
        0x22, 0x3A, 0x22, 0x22, 0x7D])) ≤ Token.maxEntries ∧
    (Tape.mk [⟨.object, 0, 14, 2⟩, ⟨.string, 2, 2, 0⟩, ⟨.array, 4, 6, 0⟩, ⟨.string, 8, 9, 0⟩,
      ⟨.string, 12, 12, 0⟩]).tokens[1]? = some ⟨.string, 2, 2, 0⟩ ∧
    IsLeast {k | 1 < k ∧ (k = 5 ∨ ∃ u,
      (Tape.mk [⟨.object, 0, 14, 2⟩, ⟨.string, 2, 2, 0⟩, ⟨.array, 4, 6, 0⟩, ⟨.string, 8, 9, 0⟩,
        ⟨.string, 12, 12, 0⟩]).tokens[k]? = some u ∧ 2 ≤ u.start)} 2 := by
  have hread : (Tape.read {} (SliceReader.ofSource (.ofBytes [0x7B, 0x22, 0x22, 0x3A, 0x5B, 0x5D,
      0x2C, 0x22, 0x61, 0x22, 0x3A, 0x22, 0x22, 0x7D]))).1 =
        .ok ⟨[⟨.object, 0, 14, 2⟩, ⟨.string, 2, 2, 0⟩, ⟨.array, 4, 6, 0⟩, ⟨.string, 8, 9, 0⟩,
          ⟨.string, 12, 12, 0⟩]⟩ := by
    cbv
  have hlimit : limit (SliceReader.ofSource (.ofBytes [0x7B, 0x22, 0x22, 0x3A, 0x5B, 0x5D, 0x2C,
      0x22, 0x61, 0x22, 0x3A, 0x22, 0x22, 0x7D])) ≤ Token.maxEntries := by
    decide
  obtain ⟨j, hskip, hleast, -⟩ := (skipValue_by_spans hread hlimit (.ofBytes [])).2 1 _ rfl
  cases hskip
  exact ⟨hread, hlimit, rfl, hleast⟩

/-- Every part of a document is a document of its own: the span of a token, with the quotes
of a string, is tokenized alone under the same limits, with the tokens that a cursor passes
over from the token on, as far back as the part begins. So whatever can be read from the
token on is what can be read of the part alone, and faults have their offset in the part. -/
theorem part_alone (h : (Tape.read limits r).1 = .ok tape) (hlimit : limit r ≤ Token.maxEntries)
    {source : Source} (hsource : source.toBytes = content r) {i : Nat} {t : Token}
    (ht : tape.tokens[i]? = some t) :
    ∃ j alone, Decoder.skipValue (tape.cursorAt source i) = .ok () (tape.cursorAt source j) ∧
      Tape.ofSource limits (.ofBytes (cut (content r) t.withQuotes)) = .ok alone ∧
      (tape.tokens.take j).drop i = (alone.shift t.withQuotes.start).tokens ∧
      ∀ s : Shape,
        (∃ x, s.codec.decode (tape.cursorAt source i) = .ok x (tape.cursorAt source j) ∧
            s.codec.ofSource limits (.ofBytes (cut (content r) t.withQuotes)) = .ok x) ∨
          ∃ fault c, s.codec.decode (tape.cursorAt source i) =
              .error (.read (fault.shift t.withQuotes.start)) c ∧
            s.codec.ofSource limits (.ofBytes (cut (content r) t.withQuotes)) =
              .error (.read fault) := by
  obtain ⟨tree, start, _, _, hfront, htake, hskip⟩ := fronts_of_read h hlimit ht
  obtain ⟨hstart, hstop⟩ := tree.withQuotes_head start
  rw [← hfront.spans.1] at hstart hstop
  have hlies : Lies source.toBytes start tree.text := hsource ▸ hfront.lies
  have hcursor : tape.cursorAt source i =
      ⟨source, i, tree.tokens start ++ tape.tokens.drop (i + (tree.tokens start).length)⟩ := by
    rw [cursorAt, ← hfront.tokens, List.drop_eq_getElem?_toList_append, ht]
    rfl
  rw [hfront.lies.cut_eq hstart hstop, hstart]
  refine ⟨i + (tree.tokens start).length, ⟨tree.tokens 0⟩, hskip source,
    tree.ofSource_text hfront.height, htake.trans (tree.tokens_shift start), fun s => ?_⟩
  rcases s.reads_or_fails tree with ⟨x, hreads⟩ | ⟨fault, hfails⟩
  · exact .inl ⟨x, hcursor ▸ hreads hlies _ _, hreads.ofSource hfront.height⟩
  · obtain ⟨c, hread⟩ := hfails hlies i (tape.tokens.drop (i + (tree.tokens start).length))
    exact .inr ⟨fault, c, hcursor ▸ hread, hfails.ofSource hfront.height⟩

/-- The name in `[1,{"b":""}]` is the string `"b"`, four bytes further on. -/
theorem part_alone_name :
    (Tape.read {} (SliceReader.ofSource (.ofBytes [0x5B, 0x31, 0x2C, 0x7B, 0x22, 0x62, 0x22, 0x3A,
        0x22, 0x22, 0x7D, 0x5D]))).1 =
      .ok ⟨[⟨.array, 0, 12, 2⟩, ⟨.number, 1, 2, 0⟩, ⟨.object, 3, 11, 1⟩, ⟨.string, 5, 6, 0⟩,
        ⟨.string, 9, 9, 0⟩]⟩ ∧
    limit (SliceReader.ofSource (.ofBytes [0x5B, 0x31, 0x2C, 0x7B, 0x22, 0x62, 0x22, 0x3A, 0x22,
        0x22, 0x7D, 0x5D])) ≤ Token.maxEntries ∧
    ∃ alone, Tape.ofSource {} (.ofBytes [0x22, 0x62, 0x22]) = .ok alone ∧
      [⟨.string, 5, 6, 0⟩] = (alone.shift 4).tokens := by
  have hread : (Tape.read {} (SliceReader.ofSource (.ofBytes [0x5B, 0x31, 0x2C, 0x7B, 0x22, 0x62,
      0x22, 0x3A, 0x22, 0x22, 0x7D, 0x5D]))).1 =
        .ok ⟨[⟨.array, 0, 12, 2⟩, ⟨.number, 1, 2, 0⟩, ⟨.object, 3, 11, 1⟩, ⟨.string, 5, 6, 0⟩,
          ⟨.string, 9, 9, 0⟩]⟩ := by
    cbv
  have hlimit : limit (SliceReader.ofSource (.ofBytes [0x5B, 0x31, 0x2C, 0x7B, 0x22, 0x62, 0x22,
      0x3A, 0x22, 0x22, 0x7D, 0x5D])) ≤ Token.maxEntries := by
    decide
  have hsource : (Source.ofBytes [0x5B, 0x31, 0x2C, 0x7B, 0x22, 0x62, 0x22, 0x3A, 0x22, 0x22, 0x7D,
      0x5D]).toBytes = content (SliceReader.ofSource (.ofBytes [0x5B, 0x31, 0x2C, 0x7B, 0x22, 0x62,
        0x22, 0x3A, 0x22, 0x22, 0x7D, 0x5D])) := rfl
  obtain ⟨j, alone, hskip, halone, htokens, -⟩ := part_alone hread hlimit hsource (i := 3) rfl
  cases hskip
  exact ⟨hread, hlimit, alone, halone, htokens⟩

end Tape

end FlatJson
