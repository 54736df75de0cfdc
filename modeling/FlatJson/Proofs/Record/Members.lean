import FlatJson.ServiceRecord
import FlatJson.Proofs.Embedding
import FlatJson.Proofs.Path

/-!
# Objects read member by member

A record is read by a loop over the members of an object: each name is read, and the
value behind it is taken up by a decoder that depends on the name and on what is known
already. What comes of the loop is said here of the members themselves
(`Decoder.Gathers`), wherever in a document the object lies: an object whose members are
gathered is read (`Decoder.reads_record`), and any other object is not, as long as the
decoders of the values do the same wherever these lie (`Decoder.settles_record`). Those of
all shapes do (`Shape.settles`).
-/

namespace FlatJson

open Grammar Decoder

namespace Grammar

/-- The text that a string spells, if it spells one. -/
def Quoted.spelled? (q : Quoted) : Option String :=
  (Escape.unescape q.raw 0).toOption

theorem Quoted.spelled?_eq_some_iff {q : Quoted} {s : String} :
    q.spelled? = some s ↔ Escape.Spells q.raw s.toList := by
  rw [← Escape.unescape_eq_ok_iff q.inside, spelled?]
  cases Escape.unescape q.raw 0 <;> simp [Except.toOption]

@[simp]
theorem Quoted.spelled?_ofString (s : String) : (ofString s).spelled? = some s :=
  spelled?_eq_some_iff.mpr (Escape.spells_written s.toList)

end Grammar

theorem Decoder.reads_string {q : Quoted} {s : String} (h : q.spelled? = some s) :
    Reads Decoder.string (.scalar (.string q)) s :=
  fun _ _ hlies => scalar_lexeme
    (Scalar.string_of_spells hlies (Quoted.spelled?_eq_some_iff.mp h))

/-- In front of a tree the codec of a shape does the same wherever the tree lies. -/
theorem Shape.settles (s : Shape) (t : Tree) : Settles s.codec.decode t := by
  rcases s.reads_or_fails t with hreads | ⟨fault, hfails⟩
  · exact .inl hreads
  · refine .inr fun source start hlies position rest => ?_
    obtain ⟨d, hread⟩ := hfails hlies position rest
    exact ⟨_, d, hread⟩

/-- What a shape reads of the text of a tree alone it reads wherever the tree lies. -/
theorem Shape.reads_of_decode {s : Shape} {t : Tree} {x : s.Carrier} {c : Cursor}
    (h : s.codec.decode ⟨.ofBytes t.text, 0, t.tokens 0⟩ = .ok x c) :
    Reads s.codec.decode t x := by
  rw [← List.append_nil (t.tokens 0)] at h
  exact (s.settles t).reads (Lies.self t.text) h

/-! The children of a container. -/

namespace Grammar

/-- The members of an object: each name with its value. -/
def Children.members : Children true → List (Quoted × Tree)
  | .last (.name _ q _) _ t _ => [(q, t)]
  | .more (.name _ q _) _ t _ others => (q, t) :: others.members

/-- The members of a tree that is an object. -/
def Tree.members? : Tree → Option (List (Quoted × Tree))
  | .empty true _ => some []
  | .container true children => some children.members
  | _ => none

/-- The members of an object one after the other, without blanks. -/
def Children.ofMembers : Quoted × Tree → List (Quoted × Tree) → Children true
  | (q, t), [] => .last (.name Value.noBlanks q Value.noBlanks) Value.noBlanks t Value.noBlanks
  | (q, t), m :: ms =>
    .more (.name Value.noBlanks q Value.noBlanks) Value.noBlanks t Value.noBlanks (ofMembers m ms)

/-- An object without blanks. -/
def Tree.object : List (Quoted × Tree) → Tree
  | [] => .empty true Value.noBlanks
  | m :: ms => .container true (.ofMembers m ms)

theorem Children.members_ofMembers (m : Quoted × Tree) (ms : List (Quoted × Tree)) :
    (ofMembers m ms).members = m :: ms := by
  obtain ⟨q, t⟩ := m
  induction ms generalizing q t with
  | nil => rw [ofMembers, members]
  | cons n ns ih => rw [ofMembers, members, ih]

@[simp]
theorem Tree.members?_object (ms : List (Quoted × Tree)) : (object ms).members? = some ms := by
  cases ms with
  | nil => rfl
  | cons m ms => exact congrArg some (Children.members_ofMembers m ms)

theorem Tree.height_object_le {height : Nat} {ms : List (Quoted × Tree)}
    (h : ∀ m ∈ ms, m.2.height ≤ height) : (object ms).height ≤ height + 1 := by
  have hmembers : ∀ (m : Quoted × Tree) (ms : List (Quoted × Tree)),
      (∀ n ∈ m :: ms, n.2.height ≤ height) → (Children.ofMembers m ms).height ≤ height := by
    intro m ms h
    induction ms generalizing m with
    | nil => exact h m List.mem_cons_self
    | cons n ns ih =>
        obtain ⟨hm, hns⟩ := List.forall_mem_cons.mp h
        exact max_le hm (ih n hns)
  cases ms with
  | nil => exact Nat.le_add_left 1 height
  | cons m ms => exact Nat.succ_le_succ (hmembers m ms h)

theorem Children.map_snd_members : ∀ children : Children true,
    children.members.map Prod.snd = children.values
  | .last (.name _ _ _) _ _ _ => by rw [members, values, List.map_singleton]
  | .more (.name _ _ _) _ _ _ others => by
      rw [members, values, List.map_cons, others.map_snd_members]

/-- A value is no longer than the children that it is one of. -/
theorem Children.length_le_of_mem : ∀ {isObject : Bool} (children : Children isObject) {t : Tree},
    t ∈ children.values → t.text.length ≤ children.text.length
  | _, .last label before t after, u, hu => by
      rw [values, List.mem_singleton] at hu
      subst hu
      simp only [text, List.length_append]
      omega
  | _, .more label before t after others, u, hu => by
      rw [values, List.mem_cons] at hu
      simp only [text, List.length_append, List.length_cons]
      rcases hu with rfl | hu
      · omega
      · have hothers := others.length_le_of_mem hu
        omega

theorem Tree.Small.values {isObject : Bool} {children : Children isObject}
    (h : (Tree.container isObject children).Small) : ∀ t ∈ children.values, t.Small := by
  intro t ht
  have hlength := children.length_le_of_mem ht
  unfold Small at h ⊢
  simp only [Tree.text, List.length_cons, List.length_append] at h
  omega

theorem Tree.Small.elements {t : Tree} (h : t.Small) {ts : List Tree}
    (hts : t.elements? = some ts) : ∀ u ∈ ts, u.Small := by
  cases t with
  | scalar x => cases hts
  | empty isObject inside => cases isObject <;> cases hts; simp
  | container isObject children => cases isObject <;> cases hts; exact h.values

theorem Tree.Small.members {t : Tree} (h : t.Small) {ms : List (Quoted × Tree)}
    (hms : t.members? = some ms) : ∀ m ∈ ms, m.2.Small := by
  cases t with
  | scalar x => cases hms
  | empty isObject inside => cases isObject <;> cases hms; simp
  | container isObject children =>
      cases isObject <;> cases hms
      intro m hm
      refine h.values m.2 ?_
      rw [← children.map_snd_members]
      exact List.mem_map_of_mem hm

end Grammar

/-! Objects. -/

namespace Decoder

variable {σ α : Type}

/-- The members have been gathered, one after the other: each name is what a string
spells, and each value has been taken up. -/
inductive Gathers (member : σ → String → Decoder σ) : σ → List (Quoted × Tree) → σ → Prop
  | nil (known : σ) : Gathers member known [] known
  | cons {known next last : σ} {q : Quoted} {name : String} {t : Tree}
      {ms : List (Quoted × Tree)} : q.spelled? = some name → Reads (member known name) t next →
      Gathers member next ms last → Gathers member known ((q, t) :: ms) last

variable {member : σ → String → Decoder σ}

section Member

variable {source : Source} {start place : Nat} {q : Quoted} {t : Tree}

/-- A value that nobody asks for changes nothing of what is known. -/
theorem reads_ignored {name : String} {known : σ} (h : member known name = ignore known)
    (ht : t.Small) : Reads (member known name) t known := by
  rw [h]
  exact (reads_skipValue ht).map fun _ => known

theorem key_spelled (hq : Lies source.toBytes start q.text) {name : String}
    (hname : q.spelled? = some name) (position : Nat) (rest : List Token) :
    key ⟨source, position, (Lexeme.string q).token start :: rest⟩ =
      .ok name ⟨source, position + 1, rest⟩ :=
  key_quoted hq (Quoted.spelled?_eq_some_iff.mp hname) rest

/-- A member whose value is taken up is read, and the others after it. -/
theorem members_member (hq : Lies source.toBytes start q.text)
    (hvalue : Lies source.toBytes place t.text) {name : String} (hname : q.spelled? = some name)
    {known next : σ} (ht : Reads (member known name) t next) (count position : Nat)
    (rest : List Token) :
    members member known (count + 1)
        ⟨source, position, (Lexeme.string q).token start :: (t.tokens place ++ rest)⟩ =
      members member next count ⟨source, position + 1 + (t.tokens place).length, rest⟩ := by
  have hkey := key_spelled hq hname position (t.tokens place ++ rest)
  exact (bind_of_ok _ hkey).trans (bind_of_ok _ (ht hvalue _ rest))

/-- A member is taken up, or the members are not read. -/
theorem member_cases (q : Quoted) (t : Tree) {known : σ}
    (h : ∀ name, Settles (member known name) t) :
    (∃ name next, q.spelled? = some name ∧ Reads (member known name) t next) ∨
      ∀ ⦃source : Source⦄ ⦃start place : Nat⦄, Lies source.toBytes start q.text →
        Lies source.toBytes place t.text → ∀ (count position : Nat) (rest : List Token),
          ∃ fault d, members member known (count + 1)
            ⟨source, position, (Lexeme.string q).token start :: (t.tokens place ++ rest)⟩ =
              .error fault d := by
  cases hname : q.spelled? with
  | none =>
      refine .inr fun source start place hq hvalue count position rest => ?_
      rcases Scalar.string_quoted hq with ⟨text, htext, -⟩ | ⟨-, fault, hfault⟩
      · rw [Quoted.spelled?_eq_some_iff.mpr htext] at hname
        cases hname
      · have hkey : key ⟨source, position,
            (Lexeme.string q).token start :: (t.tokens place ++ rest)⟩ =
              .error fault ⟨source, position + 1, t.tokens place ++ rest⟩ := by
          refine (scalar_cons _ source position _ _).trans ?_
          rw [hfault]
        exact ⟨fault, _, bind_of_error _ hkey⟩
  | some name =>
      rcases h name with ⟨next, hnext⟩ | hrejects
      · exact .inl ⟨name, next, rfl, hnext⟩
      · refine .inr fun source start place hq hvalue count position rest => ?_
        have hkey := key_spelled hq hname position (t.tokens place ++ rest)
        obtain ⟨fault, d, hfault⟩ := hrejects hvalue (position + 1) rest
        exact ⟨fault, d, (bind_of_ok _ hkey).trans (bind_of_error _ hfault)⟩

end Member

/-- Members that have been gathered are read. -/
theorem Gathers.members_eq : ∀ (children : Children true) {known last : σ},
    Gathers member known children.members last →
    ∀ {source : Source} {start : Nat}, Lies source.toBytes start children.text →
    ∀ (position : Nat) (rest : List Token),
      members member known children.size ⟨source, position, children.tokens start ++ rest⟩ =
        .ok last ⟨source, position + (children.tokens start).length, rest⟩
  | .last (.name first q second) before t after, _, _, h, source, start, hlies, position, rest => by
      obtain ⟨hlabel, hvalue⟩ := Children.lies_last hlies
      rw [Children.members] at h
      cases h with
      | cons hname ht hnil =>
          cases hnil
          rw [Children.size, Children.tokens, Label.tokens, List.append_assoc,
            List.singleton_append, members_member hlabel.left.left.right hvalue hname ht]
          simp [members, pure, EStateM.pure, Nat.add_assoc, Nat.add_comm 1]
  | .more (.name first q second) before t after others, _, _, h, source, start, hlies, position,
      rest => by
      obtain ⟨hlabel, hvalue, hlater⟩ := Children.lies_more hlies
      rw [Children.members] at h
      cases h with
      | cons hname ht hothers =>
          rw [Children.size, Children.tokens, Label.tokens, List.append_assoc, List.append_assoc,
            List.singleton_append, members_member hlabel.left.left.right hvalue hname ht,
            Gathers.members_eq others hothers hlater]
          simp [Nat.add_assoc, Nat.add_comm 1]

/-- Where one member is not taken up, the members are not read. -/
theorem gathers_or_rejects : ∀ (children : Children true) (known : σ),
    (∀ m ∈ children.members, ∀ known name, Settles (member known name) m.2) →
    (∃ last, Gathers member known children.members last) ∨
    ∀ {source : Source} {start : Nat}, Lies source.toBytes start children.text →
    ∀ (position : Nat) (rest : List Token), ∃ fault d,
      members member known children.size ⟨source, position, children.tokens start ++ rest⟩ =
        .error fault d
  | .last (.name first q second) before t after, known, h => by
      rw [Children.members] at h ⊢
      rcases member_cases q t (h (q, t) List.mem_cons_self known) with
        ⟨name, next, hname, hnext⟩ | hrejects
      · exact .inl ⟨next, .cons hname hnext (.nil next)⟩
      · refine .inr fun {source start} hlies position rest => ?_
        obtain ⟨hlabel, hvalue⟩ := Children.lies_last hlies
        rw [Children.size, Children.tokens, Label.tokens, List.append_assoc, List.singleton_append]
        exact hrejects hlabel.left.left.right hvalue 0 position rest
  | .more (.name first q second) before t after others, known, h => by
      rw [Children.members] at h ⊢
      rcases member_cases q t (h (q, t) List.mem_cons_self known) with
        ⟨name, next, hname, hnext⟩ | hrejects
      · rcases gathers_or_rejects others next fun m hm => h m (List.mem_cons_of_mem _ hm) with
          ⟨last, hlast⟩ | hrejects
        · exact .inl ⟨last, .cons hname hnext hlast⟩
        · refine .inr fun {source start} hlies position rest => ?_
          obtain ⟨hlabel, hvalue, hlater⟩ := Children.lies_more hlies
          rw [Children.size, Children.tokens, Label.tokens, List.append_assoc, List.append_assoc,
            List.singleton_append, members_member hlabel.left.left.right hvalue hname hnext]
          exact hrejects hlater _ rest
      · refine .inr fun {source start} hlies position rest => ?_
        obtain ⟨hlabel, hvalue, -⟩ := Children.lies_more hlies
        rw [Children.size, Children.tokens, Label.tokens, List.append_assoc, List.append_assoc,
          List.singleton_append]
        exact hrejects hlabel.left.left.right hvalue _ position _

/-- What is made of an object at the end depends on what is known, and takes no token. -/
def Makes (make : Token → σ → Decoder α) (outcome : σ → Option α) : Prop :=
  ∀ (object : Token) (known : σ) (c : Cursor),
    match outcome known with
    | some x => make object known c = .ok x c
    | none => ∃ fault, make object known c = .error fault c

variable {make : Token → σ → Decoder α} {outcome : σ → Option α} {t : Tree}
  {ms : List (Quoted × Tree)} {known last : σ} {x : α}

/-- Behind the token of an object its members are read. -/
theorem record_container (make : Token → σ → Decoder α) (children : Children true)
    (source : Source) (start position : Nat) (rest : List Token) :
    ∃ object, record member known make
        ⟨source, position, (Tree.container true children).tokens start ++ rest⟩ =
      (members member known children.size >>= make object)
        ⟨source, position + 1, children.tokens (start + 1) ++ rest⟩ :=
  ⟨_, rfl⟩

/-- Behind the members that have been gathered something is made of the object. -/
theorem record_of_gathers (make : Token → σ → Decoder α) (hms : t.members? = some ms)
    (h : Gathers member known ms last) {source : Source} {start : Nat}
    (hlies : Lies source.toBytes start t.text) (position : Nat) (rest : List Token) :
    ∃ object, record member known make ⟨source, position, t.tokens start ++ rest⟩ =
      make object last ⟨source, position + (t.tokens start).length, rest⟩ := by
  cases t with
  | scalar y => cases hms
  | empty isObject inside =>
      cases isObject <;> cases hms
      cases h
      exact ⟨_, rfl⟩
  | container isObject children =>
      cases isObject <;> cases hms
      obtain ⟨object, hrecord⟩ := record_container make children source start position rest
      have hread := h.members_eq children hlies.tail.left (position + 1) rest
      rw [Tree.length_tokens_container]
      exact ⟨object, hrecord.trans (bind_of_ok _ hread)⟩

/-- An object of which the members are gathered is read. -/
theorem reads_record (hmake : Makes make outcome) (hms : t.members? = some ms)
    (h : Gathers member known ms last) (hx : outcome last = some x) :
    Reads (record member known make) t x := by
  intro source start hlies position rest
  obtain ⟨object, hread⟩ := record_of_gathers make hms h hlies position rest
  have hmade := hmake object last ⟨source, position + (t.tokens start).length, rest⟩
  rw [hx] at hmade
  exact hread.trans hmade

/-- An object is not read if nothing is made of what is known at the end. -/
theorem rejects_record (hmake : Makes make outcome) (hms : t.members? = some ms)
    (h : Gathers member known ms last) (hnone : outcome last = none) :
    Rejects (record member known make) t := by
  intro source start hlies position rest
  obtain ⟨object, hread⟩ := record_of_gathers make hms h hlies position rest
  have hmade := hmake object last ⟨source, position + (t.tokens start).length, rest⟩
  rw [hnone] at hmade
  obtain ⟨fault, hfault⟩ := hmade
  exact ⟨fault, _, hread.trans hfault⟩

/-- The members of an object are gathered, or it is not read; and what is no object is not
read. -/
theorem gathers_or_rejects_record
    (h : ∀ ms, t.members? = some ms → ∀ m ∈ ms, ∀ known name, Settles (member known name) m.2)
    (known : σ) (make : Token → σ → Decoder α) :
    (∃ ms last, t.members? = some ms ∧ Gathers member known ms last) ∨
      Rejects (record member known make) t := by
  by_cases hkind : t.kind = .object
  · rcases Tree.begins hkind with ⟨inside, rfl⟩ | ⟨children, rfl⟩
    · exact .inl ⟨[], known, rfl, .nil known⟩
    · rcases gathers_or_rejects children known (h _ rfl) with ⟨last, hlast⟩ | hrejects
      · exact .inl ⟨children.members, last, rfl, hlast⟩
      · refine .inr fun source start hlies position rest => ?_
        obtain ⟨object, hrecord⟩ := record_container make children source start position rest
        obtain ⟨fault, d, hfault⟩ := hrejects hlies.tail.left (position + 1) rest
        exact ⟨fault, d, hrecord.trans (bind_of_error _ hfault)⟩
  · refine .inr fun source start hlies position rest => ?_
    obtain ⟨object, more, htokens, -⟩ := t.exists_token start
    have hbegin := (rejects_children hkind).bind
      (fun count => members member known count >>= make object) hlies position rest
    rw [htokens] at hbegin ⊢
    exact hbegin

/-- An object is read if its members are gathered and something is made of what is known
then, and in no other case. -/
theorem settles_record (hmake : Makes make outcome)
    (h : ∀ ms, t.members? = some ms → ∀ m ∈ ms, ∀ known name, Settles (member known name) m.2)
    (known : σ) :
    (∃ ms last x, t.members? = some ms ∧ Gathers member known ms last ∧ outcome last = some x) ∨
      Rejects (record member known make) t := by
  rcases gathers_or_rejects_record h known make with ⟨ms, last, hms, hlast⟩ | hrejects
  · cases hx : outcome last with
    | some x => exact .inl ⟨ms, last, x, hms, hlast, hx⟩
    | none => exact .inr (rejects_record hmake hms hlast hx)
  · exact .inr hrejects

end Decoder

end FlatJson
