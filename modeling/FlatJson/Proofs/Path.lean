import FlatJson.Proofs.OneValue

/-!
# Values at the end of a path

A value inside a document can be read without the rest: a cursor enters an object or an
array, passes over the values that come before the one that is wanted, and so on along
a path (`Decoder.walk`). Where a cursor faces a tree that denotes a value
(`Cursor.Faces`), a step of the path brings it to the tree of the child that the value
has there, or fails where the value has none. So what is read at the end of a path is
what stands there in the value of the whole document.
-/

namespace FlatJson

open Grammar

/-- A step from a container to one of its children: to the first member of a name, or
to the element of an index. -/
inductive PathStep
  | member (name : String)
  | element (i : Nat)

namespace Value

/-- The child that a step leads to. -/
def child? (v : Value) : PathStep → Option Value
  | .member name => v.get? name
  | .element i => v.asArray?.bind fun vs => vs[i]?

/-- The value at the end of a path. -/
def at? : Value → List PathStep → Option Value
  | v, [] => some v
  | v, step :: path => (v.child? step).bind fun w => w.at? path

end Value

namespace Decoder

/-- Passes over `count` values. -/
def skipValues : Nat → Decoder Unit
  | 0 => return ()
  | count + 1 => do
    skipValue
    skipValues count

/-- Comes to the value of the first of `count` members that has the name, if one has it,
and passes over the values of those before. -/
def seekMember (name : String) : Nat → Decoder Bool
  | 0 => return false
  | count + 1 => do
    if (← key) == name then return true
    else
      skipValue
      seekMember name count

/-- Takes a step. Where there is no such child, the fault is the caller's. -/
def enter (missing : Fault) : PathStep → Decoder Unit
  | .member name => do
    let count ← beginObject
    if ← seekMember name count then return () else throw missing
  | .element i => do
    let count ← beginArray
    if i < count then skipValues i else throw missing

/-- Takes the steps of a path, one after the other. -/
def walk (missing : Fault) : List PathStep → Decoder Unit
  | [] => return ()
  | step :: path => do
    enter missing step
    walk missing path

end Decoder

/-- The cursor stands in front of a tree that denotes a value, with no more tokens behind
it than a tape can speak of. -/
def Cursor.Faces (c : Cursor) (v : Value) : Prop :=
  c.rest.length ≤ Token.maxEntries ∧
    ∃ (t : Tree) (start : Nat) (rest : List Token), Lies c.source.toBytes start t.text ∧
      t.Denotes v ∧ c.rest = t.tokens start ++ rest

namespace Decoder

variable {source : Source} {position start : Nat}

/-- A cursor that faces a value reads it. -/
theorem decode_of_faces {c : Cursor} {v : Value} (h : c.Faces v) :
    ∃ d, Value.decode c = .ok v d := by
  obtain ⟨-, t, start, rest, hlies, hv, hrest⟩ := h
  rcases t.decides hlies Value.ready_nil c.position rest with ⟨w, hw, hread⟩ | ⟨hnone, -⟩
  · obtain rfl := hw.unique hv
    rw [← hrest] at hread
    exact ⟨_, Value.decode_of_ok hread⟩
  · exact absurd hv (hnone v)

theorem key_quoted {q : Quoted} (hlies : Lies source.toBytes start q.text) {name : String}
    (hname : Escape.Spells q.raw name.toList) (rest : List Token) :
    key ⟨source, position, (Lexeme.string q).token start :: rest⟩ =
      .ok name ⟨source, position + 1, rest⟩ := by
  refine (scalar_cons _ source position _ rest).trans ?_
  rw [Scalar.string_of_spells hlies hname]

/-- A search looks at a name, and goes on behind the value if it is another one. -/
theorem seekMember_quoted {q : Quoted} (hlies : Lies source.toBytes start q.text) {k : String}
    (hk : Escape.Spells q.raw k.toList) (name : String) (count : Nat) (t : Tree) {place : Nat}
    {rest : List Token} (hsmall : (t.tokens place ++ rest).length ≤ Token.maxEntries) :
    seekMember name (count + 1)
        ⟨source, position, (Lexeme.string q).token start :: (t.tokens place ++ rest)⟩ =
      if k == name then .ok true ⟨source, position + 1, t.tokens place ++ rest⟩
      else seekMember name count ⟨source, position + 1 + (t.tokens place).length, rest⟩ := by
  rw [List.length_append] at hsmall
  rw [seekMember, bind_of_ok _ (key_quoted hlies hk _)]
  split
  · rfl
  · rw [bind_of_ok _ (skipValue_tokens t (Nat.le_of_add_right_le hsmall) rest)]

/-- A search has come to a value, or it has found none. -/
def Seeks (outcome : EStateM.Result Fault Cursor Bool) : Option Value → Prop
  | some v => ∃ c, outcome = .ok true c ∧ c.Faces v
  | none => ∃ c, outcome = .ok false c

/-- A step has come to a value, or it has failed because there is none. -/
def Arrives (outcome : EStateM.Result Fault Cursor Unit) : Option Value → Prop
  | some v => ∃ c, outcome = .ok () c ∧ c.Faces v
  | none => ∃ fault c, outcome = .error fault c

end Decoder

open Decoder

/-- Among the members of an object the first one of a name is found. -/
theorem Grammar.Children.seeks_members {source : Source} (name : String) :
    ∀ (children : Children true) {start : Nat}, Lies source.toBytes start children.text →
    ∀ {ms : List (String × Value)}, children.Members ms → ∀ (position : Nat) {rest : List Token},
    (children.tokens start ++ rest).length ≤ Token.maxEntries →
    Seeks (seekMember name children.size ⟨source, position, children.tokens start ++ rest⟩)
      ((ms.find? fun m => m.1 == name).map Prod.snd)
  | .last (.name first q second) before t after, start, h, _, @Members.last _ _ _ _ _ _ k v hk hv,
      position, rest, hsmall => by
      obtain ⟨hlabel, ht⟩ := Children.lies_last h
      have hq : Lies source.toBytes (start + first.bytes.length) q.text := hlabel.left.left.right
      rw [Children.tokens, Label.tokens, List.append_assoc, List.singleton_append] at hsmall ⊢
      rw [List.length_cons] at hsmall
      rw [Children.size, seekMember_quoted hq hk name 0 t (Nat.le_of_succ_le hsmall),
        List.find?_cons]
      cases k == name with
      | true => exact ⟨_, rfl, Nat.le_of_succ_le hsmall, t, _, rest, ht, hv, rfl⟩
      | false => exact ⟨_, rfl⟩
  | .more (.name first q second) before t after others, start, h, _,
      @Members.more _ _ _ _ _ _ _ k v ms hk hv hms, position, rest, hsmall => by
      obtain ⟨hlabel, ht, hothers⟩ := Children.lies_more h
      have hq : Lies source.toBytes (start + first.bytes.length) q.text := hlabel.left.left.right
      rw [Children.tokens, Label.tokens, List.append_assoc, List.append_assoc,
        List.singleton_append] at hsmall ⊢
      rw [List.length_cons] at hsmall
      rw [Children.size, seekMember_quoted hq hk name others.size t (Nat.le_of_succ_le hsmall),
        List.find?_cons]
      cases k == name with
      | true => exact ⟨_, rfl, Nat.le_of_succ_le hsmall, t, _, _, ht, hv, rfl⟩
      | false =>
          rw [List.length_append] at hsmall
          exact Children.seeks_members name others hothers hms _ (by omega)

/-- A child stands for one element. -/
theorem Grammar.Children.length_elements : ∀ (children : Children false) {vs : List Value},
    children.Elements vs → vs.length = children.size
  | .last .element _ _ _, _, .last _ => rfl
  | .more .element _ _ _ others, _, .more _ hvs => by
      rw [List.length_cons, others.length_elements hvs, Children.size]

/-- Behind as many elements as its index says stands the element of that index. -/
theorem Grammar.Children.skips_elements {source : Source} :
    ∀ (children : Children false) {start : Nat}, Lies source.toBytes start children.text →
    ∀ {vs : List Value}, children.Elements vs → ∀ (position : Nat) {rest : List Token},
    (children.tokens start ++ rest).length ≤ Token.maxEntries →
    ∀ (i : Nat) (v : Value), vs[i]? = some v →
    ∃ c, skipValues i ⟨source, position, children.tokens start ++ rest⟩ = .ok () c ∧ c.Faces v
  | .last .element before t after, start, h, _, .last hw, position, rest, hsmall, i, v, hv => by
      obtain ⟨-, ht⟩ := Children.lies_last h
      cases i with
      | zero =>
          cases hv
          exact ⟨_, rfl, hsmall, t, _, rest, ht, hw, rfl⟩
      | succ i => cases hv
  | .more .element before t after others, start, h, _, .more hw hvs, position, rest, hsmall, i, v,
      hv => by
      obtain ⟨-, ht, hothers⟩ := Children.lies_more h
      rw [Children.tokens, Label.tokens, List.nil_append, List.append_assoc] at hsmall ⊢
      cases i with
      | zero =>
          cases hv
          exact ⟨_, rfl, hsmall, t, _, _, ht, hw, rfl⟩
      | succ i =>
          rw [List.length_append] at hsmall
          rw [skipValues, bind_of_ok _ (skipValue_tokens t (Nat.le_of_add_right_le hsmall) _)]
          exact Children.skips_elements others hothers hvs _ (by omega) i v hv

namespace Decoder

variable {source : Source} {position : Nat} {t : Token} {ts : List Token} (missing : Fault)

theorem enter_member_of_ne (hkind : t.kind ≠ .object) (name : String) :
    Arrives (enter missing (.member name) ⟨source, position, t :: ts⟩) none := by
  rcases children_cons .object source position t ts with ⟨hobject, -⟩ | ⟨-, fault, hfault⟩
  · exact absurd hobject hkind
  · exact ⟨fault, _, bind_of_error _ hfault⟩

theorem enter_element_of_ne (hkind : t.kind ≠ .array) (i : Nat) :
    Arrives (enter missing (.element i) ⟨source, position, t :: ts⟩) none := by
  rcases children_cons .array source position t ts with ⟨harray, -⟩ | ⟨-, fault, hfault⟩
  · exact absurd harray hkind
  · exact ⟨fault, _, bind_of_error _ hfault⟩

/-- An object is entered as far as the search comes. -/
theorem enter_member_of_seeks (hkind : t.kind = .object) {name : String} {found : Option Value}
    (h : Seeks (seekMember name t.count ⟨source, position + 1, ts⟩) found) :
    Arrives (enter missing (.member name) ⟨source, position, t :: ts⟩) found := by
  rcases children_cons .object source position t ts with ⟨-, hcount⟩ | ⟨hne, -⟩
  · cases found with
    | some v =>
        obtain ⟨c, hseek, hfaces⟩ := h
        exact ⟨c, (bind_of_ok _ hcount).trans (bind_of_ok _ hseek), hfaces⟩
    | none =>
        obtain ⟨c, hseek⟩ := h
        exact ⟨missing, c, (bind_of_ok _ hcount).trans (bind_of_ok _ hseek)⟩
  · exact absurd hkind hne

/-- An array is entered up to an index that it has. -/
theorem enter_element_of_skips (hkind : t.kind = .array) {vs : List Value}
    (hlength : vs.length = t.count)
    (h : ∀ (i : Nat) (v : Value), vs[i]? = some v →
      ∃ c, skipValues i ⟨source, position + 1, ts⟩ = .ok () c ∧ c.Faces v) (i : Nat) :
    Arrives (enter missing (.element i) ⟨source, position, t :: ts⟩) vs[i]? := by
  rcases children_cons .array source position t ts with ⟨-, hcount⟩ | ⟨hne, -⟩
  · have hread : enter missing (.element i) ⟨source, position, t :: ts⟩ =
        (if i < t.count then skipValues i else throw missing : Decoder Unit)
          ⟨source, position + 1, ts⟩ := bind_of_ok _ hcount
    rw [hread, ← hlength]
    cases hv : vs[i]? with
    | some v =>
        obtain ⟨c, hskip, hfaces⟩ := h i v hv
        rw [if_pos (List.getElem?_eq_some_iff.mp hv).1]
        exact ⟨c, hskip, hfaces⟩
    | none =>
        rw [if_neg (Nat.not_lt.mpr (List.getElem?_eq_none_iff.mp hv))]
        exact ⟨missing, _, rfl⟩
  · exact absurd hkind hne

end Decoder

/-- What is no container has no child. -/
theorem Grammar.Lexeme.Denotes.child?_eq_none {x : Lexeme} {v : Value} (h : x.Denotes v)
    (step : PathStep) : v.child? step = none := by
  cases h with
  | word w => cases w <;> cases step <;> rfl
  | number | string => cases step <;> rfl

theorem Grammar.Lexeme.isContainer_token (x : Lexeme) (start : Nat) :
    (x.token start).kind.isContainer = false := by
  cases x with
  | word w => cases w <;> rfl
  | number | string => rfl

/-- A step from a value leads to the child that the value has there. -/
theorem Cursor.Faces.arrives {c : Cursor} {v : Value} (h : c.Faces v) (missing : Fault)
    (step : PathStep) : Arrives (enter missing step c) (v.child? step) := by
  obtain ⟨source, position, ts⟩ := c
  obtain ⟨hsmall, t, start, rest, hlies, hv, rfl⟩ := h
  cases hv with
  | @scalar x _ hx =>
      have hkind {kind : Kind} (hcontainer : kind.isContainer = true) :
          (x.token start).kind ≠ kind := by
        rintro rfl
        rw [x.isContainer_token] at hcontainer
        cases hcontainer
      rw [hx.child?_eq_none]
      cases step with
      | member name => exact enter_member_of_ne missing (hkind rfl) name
      | element i => exact enter_element_of_ne missing (hkind rfl) i
  | emptyArray inside =>
      cases step with
      | member name => exact enter_member_of_ne missing (by rintro ⟨⟩) name
      | element i => exact enter_element_of_skips missing rfl rfl (fun _ _ hv => by cases hv) i
  | emptyObject inside =>
      cases step with
      | member name => exact enter_member_of_seeks missing rfl ⟨_, rfl⟩
      | element i => exact enter_element_of_ne missing (by rintro ⟨⟩) i
  | @array children vs hvs =>
      cases step with
      | member name => exact enter_member_of_ne missing (by rintro ⟨⟩) name
      | element i =>
          have hskips := children.skips_elements hlies.tail.left hvs (position + 1)
            (Nat.le_of_succ_le hsmall)
          exact enter_element_of_skips missing rfl (children.length_elements hvs) hskips i
  | @object children ms hms =>
      cases step with
      | member name =>
          have hseeks := children.seeks_members name hlies.tail.left hms (position + 1)
            (Nat.le_of_succ_le hsmall)
          exact enter_member_of_seeks missing rfl hseeks
      | element i => exact enter_element_of_ne missing (by rintro ⟨⟩) i

/-- A path from a value leads to the value at its end. -/
theorem Cursor.Faces.arrives_walk {c : Cursor} {v : Value} (h : c.Faces v) (missing : Fault)
    (path : List PathStep) : Arrives (walk missing path c) (v.at? path) := by
  induction path generalizing c v with
  | nil => exact ⟨c, rfl, h⟩
  | cons step path ih =>
      have hstep := h.arrives missing step
      rw [Value.at?]
      cases hchild : v.child? step with
      | none =>
          rw [hchild] at hstep
          obtain ⟨fault, d, hfault⟩ := hstep
          exact ⟨fault, d, bind_of_error _ hfault⟩
      | some w =>
          rw [hchild] at hstep
          obtain ⟨d, hd, hfaces⟩ := hstep
          have hwalk : walk missing (step :: path) c = walk missing path d := bind_of_ok _ hd
          rw [hwalk]
          exact ih hfaces

/-- In a document that is read as a value, a path can be walked to a value if and only
if the value of the document has one at the end of the path, and then it is that value,
whatever the fault is where a child is missing. The document is no longer than a tape
can count, since values are passed over by their counts. -/
theorem Codec.value_walk {limits : Limits} {bs : Bytes} {v : Value}
    (h : Codec.value.ofSource limits (.ofBytes bs) = .ok v) (hsmall : bs.length ≤ Token.maxEntries)
    (missing : Fault) :
    ∃ tape, Tape.ofSource limits (.ofBytes bs) = .ok tape ∧
      ∀ (path : List PathStep) (w : Value),
        (∃ c, (walk missing path >>= fun _ => Value.decode) (tape.cursor (.ofBytes bs)) =
          .ok w c) ↔ v.at? path = some w := by
  obtain ⟨d, hd, hheight, hv⟩ := Codec.value_ofSource_eq_ok_iff.mp h
  have htape : Tape.ofSource limits (.ofBytes bs) = .ok ⟨d.tokens 0⟩ :=
    Tape.read_fst_eq_ok_iff.mpr (Scan.document_eq_ok_iff.mpr ⟨d, hd, hheight, rfl⟩)
  have hlies : Lies (Source.ofBytes bs).toBytes (0 + d.before.bytes.length) d.tree.text :=
    d.lies_tree hd
  have hfaces : (Tape.cursor ⟨d.tokens 0⟩ (.ofBytes bs)).Faces v := by
    refine ⟨?_, d.tree, _, [], hlies, hv, (List.append_nil _).symm⟩
    have htext := congrArg List.length hd
    have htokens := d.tree.length_tokens_le (0 + d.before.bytes.length)
    rw [Document.text, List.length_append, List.length_append] at htext
    show (d.tree.tokens (0 + d.before.bytes.length)).length ≤ _
    omega
  refine ⟨⟨d.tokens 0⟩, htape, fun path w => ?_⟩
  have hwalk := hfaces.arrives_walk missing path
  cases hvalue : v.at? path with
  | none =>
      rw [hvalue] at hwalk
      obtain ⟨fault, e, hfault⟩ := hwalk
      rw [bind_of_error _ hfault]
      refine iff_of_false ?_ (by rintro ⟨⟩)
      rintro ⟨c, ⟨⟩⟩
  | some u =>
      rw [hvalue] at hwalk
      obtain ⟨e, he, hend⟩ := hwalk
      obtain ⟨f, hf⟩ := decode_of_faces hend
      rw [bind_of_ok _ he, hf]
      constructor
      · rintro ⟨c, ⟨⟩⟩
        rfl
      · rintro ⟨⟩
        exact ⟨f, rfl⟩

/-- In `{"\u0061":[true],"a":null}` the first member of the name is the list, which has an
element 0 and no element 1. -/
theorem Codec.value_walk_repeated :
    ∃ tape, Tape.ofSource {} (.ofBytes [0x7B, 0x22, 0x5C, 0x75, 0x30, 0x30, 0x36, 0x31, 0x22, 0x3A,
        0x5B, 0x74, 0x72, 0x75, 0x65, 0x5D, 0x2C, 0x22, 0x61, 0x22, 0x3A, 0x6E, 0x75, 0x6C, 0x6C,
        0x7D]) = .ok tape ∧
      (∃ c, (walk (Fault.missingField "a" ⟨.object, 0, 26, 2⟩) [.member "a", .element 0] >>=
          fun _ => Value.decode) (tape.cursor (.ofBytes [0x7B, 0x22, 0x5C, 0x75, 0x30, 0x30, 0x36,
            0x31, 0x22, 0x3A, 0x5B, 0x74, 0x72, 0x75, 0x65, 0x5D, 0x2C, 0x22, 0x61, 0x22, 0x3A,
            0x6E, 0x75, 0x6C, 0x6C, 0x7D])) = .ok (.bool true) c) ∧
      ¬∃ w c, (walk (Fault.missingField "a" ⟨.object, 0, 26, 2⟩) [.member "a", .element 1] >>=
          fun _ => Value.decode) (tape.cursor (.ofBytes [0x7B, 0x22, 0x5C, 0x75, 0x30, 0x30, 0x36,
            0x31, 0x22, 0x3A, 0x5B, 0x74, 0x72, 0x75, 0x65, 0x5D, 0x2C, 0x22, 0x61, 0x22, 0x3A,
            0x6E, 0x75, 0x6C, 0x6C, 0x7D])) = .ok w c := by
  have hnumbered : Escape.Escaped [0x75, 0x30, 0x30, 0x36, 0x31] 'a' :=
    .numbered (i := 0) (j := 0) (k := 6) (l := 1) rfl rfl rfl rfl
  have hescaped : Escape.Spells [0x5C, 0x75, 0x30, 0x30, 0x36, 0x31] "a".toList :=
    .escape hnumbered .nil
  have hplain : Escape.Spells [0x61] "a".toList :=
    .plain (c := 'a') (by decide) (by decide) (by decide) .nil
  let blanks : Blanks := ⟨[], fun b hb => by cases hb⟩
  let list : Tree := .container false (.last .element blanks (.scalar (.word .yes)) blanks)
  let members : Children true :=
    .more (.name blanks ⟨_, hescaped.inside⟩ blanks) blanks list blanks
      (.last (.name blanks ⟨_, hplain.inside⟩ blanks) blanks (.scalar (.word .null)) blanks)
  have hmembers : members.Members [("a", .array [.bool true]), ("a", .null)] :=
    .more hescaped (.array (.last (.scalar (.word .yes)))) (.last hplain (.scalar (.word .null)))
  have hread : Codec.value.ofSource {} (.ofBytes [0x7B, 0x22, 0x5C, 0x75, 0x30, 0x30, 0x36, 0x31,
      0x22, 0x3A, 0x5B, 0x74, 0x72, 0x75, 0x65, 0x5D, 0x2C, 0x22, 0x61, 0x22, 0x3A, 0x6E, 0x75,
      0x6C, 0x6C, 0x7D]) = .ok (.object [("a", .array [.bool true]), ("a", .null)]) :=
    Codec.value_ofSource_eq_ok_iff.mpr
      ⟨⟨blanks, .container true members, blanks⟩, rfl, Nat.le_of_ble_eq_true rfl,
        .object hmembers⟩
  obtain ⟨tape, htape, hwalk⟩ := Codec.value_walk hread (by decide)
    (Fault.missingField "a" ⟨.object, 0, 26, 2⟩)
  refine ⟨tape, htape, (hwalk _ _).mpr rfl, ?_⟩
  rintro ⟨w, hw⟩
  have hnone := (hwalk _ w).mp hw
  cases hnone

end FlatJson
