import FlatJson.Proofs.OneValue

/-!
# Values read by recursion

A value is read by one walk along the tape with a stack of containers that are not
complete. This module says that the walk does what a recursion over the subtree would do
(`Tape.decode_recursion`), in any source, whether it is the one that was tokenized or not.

The subtree in front of a token is a `Branch`: its counts are the numbers of its children,
so that a branch is well formed in any case, and its tokens (`Branch.tokens`) are a part of
the tape (`Subtree.exists_branch`). The recursion (`Branch.value`) fails at the first token
in that order which cannot be read from the source (`Value.Retraces`).
-/

namespace FlatJson

/-- The token of the name of a member. -/
structure NameToken where
  token : Token
  kind : token.kind = .string
  count : token.count = 0

/-- The part of a tape that one value takes up. -/
inductive Branch
  | leaf (t : Token) (scalar : t.kind.isContainer = false) (count : t.count = 0)
  | array (start stop : Nat) (elements : List Branch)
  | object (start stop : Nat) (members : List (NameToken × Branch))

namespace Branch

mutual

/-- The tokens of a branch, each container before its children and each name before its
value. -/
def tokens : Branch → List Token
  | leaf t _ _ => [t]
  | array start stop bs => ⟨.array, start, stop, bs.length⟩ :: elementTokens bs
  | object start stop ms => ⟨.object, start, stop, ms.length⟩ :: memberTokens ms

def elementTokens : List Branch → List Token
  | [] => []
  | b :: bs => b.tokens ++ elementTokens bs

def memberTokens : List (NameToken × Branch) → List Token
  | [] => []
  | (name, b) :: ms => name.token :: (b.tokens ++ memberTokens ms)

end

/-- The value that a token without children is read as. -/
def leafValue (s : Source) (t : Token) : Except Fault Value :=
  match t.kind with
  | .string => return .string (← Scalar.string s t)
  | .number => return .number (← Scalar.float .binary64 s t)
  | .yes => return .bool true
  | .no => return .bool false
  | _ => return .null

mutual

/-- The value of a branch, by recursion. -/
def value (s : Source) : Branch → Except Fault Value
  | leaf t _ _ => leafValue s t
  | array _ _ bs => return .array (← elementValues s bs)
  | object _ _ ms => return .object (← memberValues s ms)

/-- The values of some elements, one after the other. -/
def elementValues (s : Source) : List Branch → Except Fault (List Value)
  | [] => return []
  | b :: bs => do
    let v ← value s b
    return v :: (← elementValues s bs)

/-- The members of an object, each name before its value. -/
def memberValues (s : Source) : List (NameToken × Branch) → Except Fault (List (String × Value))
  | [] => return []
  | (name, b) :: ms => do
    let key ← Scalar.string s name.token
    let v ← value s b
    return (key, v) :: (← memberValues s ms)

end

end Branch

/-- Whether a token can be read: a string or a key spells a text, and a number denotes
one. -/
def Scalar.probe (s : Source) (t : Token) : Except Fault Unit :=
  match t.kind with
  | .string => (Scalar.string s t).map fun _ => ()
  | .number => (Scalar.float .binary64 s t).map fun _ => ()
  | _ => .ok ()

namespace Value

/-- The walk does what the recursion does: where the recursion succeeds, all the tokens can
be read and the walk goes on with the outcome, and where it fails, the walk stops behind the
first token that cannot be read, with the same fault. -/
def Retraces {α : Type} (s : Source) (position : Nat) (ts rest : List Token)
    (read : Except Fault α) (outcome : Except Fault Value × Nat × List Token)
    (resumed : α → Except Fault Value × Nat × List Token) : Prop :=
  match read with
  | .ok x => (∀ t ∈ ts, Scalar.probe s t = .ok ()) ∧ outcome = resumed x
  | .error fault => ∃ before t after, ts = before ++ t :: after ∧
      (∀ u ∈ before, Scalar.probe s u = .ok ()) ∧ Scalar.probe s t = .error fault ∧
      outcome = (.error fault, position + before.length + 1, after ++ rest)

variable {α β : Type} {s : Source} {position : Nat} {ts us rest : List Token}
  {outcome : Except Fault Value × Nat × List Token}
  {resumed : α → Except Fault Value × Nat × List Token}
  {finished : β → Except Fault Value × Nat × List Token}

/-- Two parts of a subtree are read one after the other. -/
theorem Retraces.bind {read : Except Fault α} {next : α → Except Fault β}
    (h : Retraces s position ts (us ++ rest) read outcome resumed)
    (hnext : ∀ x, Retraces s (position + ts.length) us rest (next x) (resumed x) finished) :
    Retraces s position (ts ++ us) rest (read >>= next) outcome finished := by
  cases read with
  | error fault =>
      obtain ⟨before, t, after, rfl, hbefore, ht, rfl⟩ := h
      exact ⟨before, t, after ++ us, by simp, hbefore, ht, by simp⟩
  | ok x =>
      obtain ⟨hts, rfl⟩ := h
      have hus := hnext x
      show Retraces s position (ts ++ us) rest (next x) (resumed x) finished
      generalize next x = later at hus ⊢
      cases later with
      | ok y => exact ⟨List.forall_mem_append.mpr ⟨hts, hus.1⟩, hus.2⟩
      | error fault =>
          obtain ⟨before, t, after, rfl, hbefore, ht, houtcome⟩ := hus
          refine ⟨ts ++ before, t, after, (List.append_assoc ..).symm,
            List.forall_mem_append.mpr ⟨hts, hbefore⟩, ht, ?_⟩
          rw [houtcome, List.length_append, Nat.add_assoc position]

theorem Retraces.map {read : Except Fault α} (f : α → β)
    (h : Retraces s position ts rest read outcome resumed)
    (hresumed : ∀ x, resumed x = finished (f x)) :
    Retraces s position ts rest (read >>= fun x => pure (f x)) outcome finished := by
  cases read with
  | error fault => exact h
  | ok x => exact ⟨h.1, h.2.trans (hresumed x)⟩

/-- A token that can be read stands in front. -/
theorem Retraces.cons {read : Except Fault α} {t : Token} (ht : Scalar.probe s t = .ok ())
    (h : Retraces s (position + 1) ts rest read outcome resumed) :
    Retraces s position (t :: ts) rest read outcome resumed := by
  cases read with
  | ok x => exact ⟨List.forall_mem_cons.mpr ⟨ht, h.1⟩, h.2⟩
  | error fault =>
      obtain ⟨before, u, after, rfl, hbefore, hu, rfl⟩ := h
      refine ⟨t :: before, u, after, rfl, List.forall_mem_cons.mpr ⟨ht, hbefore⟩, hu, ?_⟩
      rw [List.length_cons, Nat.add_assoc position 1, Nat.add_comm 1]

/-- A token of which something is made, or which cannot be read. -/
theorem retraces_token {t : Token} {read : Except Fault α}
    (hprobe : Scalar.probe s t = read.map fun _ => ())
    (hok : ∀ x, read = .ok x → outcome = resumed x)
    (herror : ∀ fault, read = .error fault → outcome = (.error fault, position + 1, rest)) :
    Retraces s position [t] rest read outcome resumed := by
  cases read with
  | ok x => exact ⟨List.forall_mem_singleton.mpr hprobe, hok x rfl⟩
  | error fault => exact ⟨[], t, [], rfl, by simp, hprobe, herror fault rfl⟩

/-- What is made of a token without children. -/
theorem ofToken_leaf {t : Token} (ht : t.kind.isContainer = false) :
    ofToken s t = (Branch.leafValue s t).map Step.complete ∧
      Scalar.probe s t = (Branch.leafValue s t).map fun _ => () := by
  unfold ofToken Branch.leafValue Scalar.probe
  cases hkind : t.kind with
  | object => rw [hkind] at ht; cases ht
  | array => rw [hkind] at ht; cases ht
  | string => cases Scalar.string s t <;> exact ⟨rfl, rfl⟩
  | number => cases Scalar.float .binary64 s t <;> exact ⟨rfl, rfl⟩
  | _ => exact ⟨rfl, rfl⟩

theorem retraces_leaf {frames : List Frame} (hready : Ready frames) {t : Token}
    (ht : t.kind.isContainer = false) (position : Nat) (rest : List Token) :
    Retraces s position [t] rest (Branch.leafValue s t)
      (readFrom s frames position (t :: rest))
      fun v => resume s (position + 1) rest (deliver v frames) := by
  obtain ⟨htoken, hprobe⟩ := ofToken_leaf (s := s) ht
  refine retraces_token hprobe (fun v hv => ?_) fun fault hfault => ?_
  · rw [readFrom_cons hready, htoken, hv]
    rfl
  · rw [readFrom_cons hready, htoken, hfault]
    rfl

theorem retraces_name (name : NameToken) (left : Nat) (done : List (String × Value))
    (outer : List Frame) (position : Nat) (rest : List Token) :
    Retraces s position [name.token] rest (Scalar.string s name.token)
      (readFrom s (.object left none done :: outer) position (name.token :: rest))
      fun key => readFrom s (.object left (some key) done :: outer) (position + 1) rest := by
  rw [readFrom_name]
  refine retraces_token ?_ (fun key hkey => ?_) fun fault hfault => ?_
  · rw [Scalar.probe, name.kind]
  · rw [hkey]
  · rw [hfault]

end Value

open Value

namespace Branch

mutual

/-- Over a branch the walk does what the recursion does. -/
theorem retraces (s : Source) : ∀ (b : Branch) {frames : List Frame}, Ready frames →
    ∀ (position : Nat) (rest : List Token),
    Retraces s position b.tokens rest (b.value s) (readFrom s frames position (b.tokens ++ rest))
      fun v => resume s (position + b.tokens.length) rest (deliver v frames)
  | .leaf t ht _, frames, hready, position, rest => retraces_leaf hready ht position rest
  | .array start stop [], frames, hready, position, rest => by
      refine ⟨by simp [tokens, elementTokens, Scalar.probe], ?_⟩
      rw [tokens, elementTokens, List.singleton_append, readFrom_cons hready]
      rfl
  | .array start stop (b :: bs), frames, hready, position, rest => by
      have hchildren := retraces_elements s (b :: bs) (List.cons_ne_nil b bs) frames (position + 1)
        rest []
      have hstep : readFrom s frames position ((array start stop (b :: bs)).tokens ++ rest) =
          readFrom s (.array (b :: bs).length [] :: frames) (position + 1)
            (elementTokens (b :: bs) ++ rest) := by
        rw [tokens, List.cons_append, readFrom_cons hready]
        rfl
      rw [hstep]
      refine Retraces.cons rfl (hchildren.map Value.array fun vs => ?_)
      rw [tokens, List.length_cons, List.reverse_nil, List.nil_append, Nat.add_assoc,
        Nat.add_comm 1]
  | .object start stop [], frames, hready, position, rest => by
      refine ⟨by simp [tokens, memberTokens, Scalar.probe], ?_⟩
      rw [tokens, memberTokens, List.singleton_append, readFrom_cons hready]
      rfl
  | .object start stop (m :: ms), frames, hready, position, rest => by
      have hchildren := retraces_members s (m :: ms) (List.cons_ne_nil m ms) frames (position + 1)
        rest []
      have hstep : readFrom s frames position ((object start stop (m :: ms)).tokens ++ rest) =
          readFrom s (.object (m :: ms).length none [] :: frames) (position + 1)
            (memberTokens (m :: ms) ++ rest) := by
        rw [tokens, List.cons_append, readFrom_cons hready]
        rfl
      rw [hstep]
      refine Retraces.cons rfl (hchildren.map Value.object fun vs => ?_)
      rw [tokens, List.length_cons, List.reverse_nil, List.nil_append, Nat.add_assoc,
        Nat.add_comm 1]

theorem retraces_elements (s : Source) : ∀ (bs : List Branch), bs ≠ [] →
    ∀ (outer : List Frame) (position : Nat) (rest : List Token) (done : List Value),
    Retraces s position (elementTokens bs) rest (elementValues s bs)
      (readFrom s (.array bs.length done :: outer) position (elementTokens bs ++ rest))
      fun vs => resume s (position + (elementTokens bs).length) rest
        (deliver (.array (done.reverse ++ vs)) outer)
  | [], hne, _, _, _, _ => absurd rfl hne
  | [b], _, outer, position, rest, done => by
      have hb := retraces s b (ready_array 1 done outer) position rest
      rw [elementTokens, elementTokens, List.append_nil]
      refine hb.map (fun v => [v]) fun v => ?_
      rw [deliver_array_last]
  | b :: c :: bs, _, outer, position, rest, done => by
      have hb := retraces s b (ready_array (bs.length + 2) done outer) position
        (elementTokens (c :: bs) ++ rest)
      rw [elementTokens, List.append_assoc]
      refine hb.bind fun v => ?_
      rw [deliver_array_more (Nat.succ_pos bs.length), resume]
      refine (retraces_elements s (c :: bs) (List.cons_ne_nil c bs) outer _ rest (v :: done)).map
        (fun vs => v :: vs) fun vs => ?_
      simp [Nat.add_assoc]

theorem retraces_members (s : Source) : ∀ (ms : List (NameToken × Branch)), ms ≠ [] →
    ∀ (outer : List Frame) (position : Nat) (rest : List Token) (done : List (String × Value)),
    Retraces s position (memberTokens ms) rest (memberValues s ms)
      (readFrom s (.object ms.length none done :: outer) position (memberTokens ms ++ rest))
      fun vs => resume s (position + (memberTokens ms).length) rest
        (deliver (.object (done.reverse ++ vs)) outer)
  | [], hne, _, _, _, _ => absurd rfl hne
  | [(name, b)], _, outer, position, rest, done => by
      have hname := retraces_name (s := s) name 1 done outer position (b.tokens ++ rest)
      rw [memberTokens, memberTokens, List.append_nil]
      refine hname.bind fun key => ?_
      refine (retraces s b (ready_object 1 key done outer) (position + 1) rest).map
        (fun v => [(key, v)]) fun v => ?_
      rw [deliver_object_last]
      simp [Nat.add_assoc, Nat.add_comm 1]
  | (name, b) :: m :: ms, _, outer, position, rest, done => by
      have hname := retraces_name (s := s) name (ms.length + 2) done outer position
        (b.tokens ++ memberTokens (m :: ms) ++ rest)
      rw [memberTokens]
      refine hname.bind fun key => ?_
      have hb := retraces s b (ready_object (ms.length + 2) key done outer) (position + 1)
        (memberTokens (m :: ms) ++ rest)
      rw [List.append_assoc]
      refine hb.bind fun v => ?_
      rw [deliver_object_more (Nat.succ_pos ms.length), resume]
      refine (retraces_members s (m :: ms) (List.cons_ne_nil m ms) outer _ rest
        ((key, v) :: done)).map (fun vs => (key, v) :: vs) fun vs => ?_
      simp [Nat.add_assoc, Nat.add_comm 1]

end

end Branch

/-! The branches of a tape. -/

/-- Some tokens are those of `n` children: of branches in an array, and of names with their
branches in an object. -/
def Branch.AreChildren (n : Nat) (ts : List Token) : Bool → Prop
  | false => ∃ bs : List Branch, n = bs.length ∧ ts = elementTokens bs
  | true => ∃ ms : List (NameToken × Branch), n = ms.length ∧ ts = memberTokens ms

namespace Grammar

mutual

/-- A subtree is a branch. -/
theorem Subtree.exists_branch : ∀ {ts rest : List Token}, Subtree ts rest →
    ∃ b : Branch, ts = b.tokens ++ rest
  | t :: _, rest, .scalar hkind hcount => ⟨.leaf t hkind hcount, rfl⟩
  | ⟨kind, start, stop, count⟩ :: _, rest, @Subtree.container _ isObject _ _ hkind h => by
      obtain ⟨us, rfl, hus⟩ := h.exists_branches
      obtain rfl : kind = containerKind isObject := hkind
      cases isObject with
      | false =>
          obtain ⟨bs, hcount, rfl⟩ := hus
          obtain rfl : count = bs.length := hcount
          exact ⟨.array start stop bs, rfl⟩
      | true =>
          obtain ⟨ms, hcount, rfl⟩ := hus
          obtain rfl : count = ms.length := hcount
          exact ⟨.object start stop ms, rfl⟩

theorem Subtrees.exists_branches : ∀ {isObject : Bool} {n : Nat} {ts rest : List Token},
    Subtrees isObject n ts rest → ∃ us, ts = us ++ rest ∧ Branch.AreChildren n us isObject
  | false, _, _, _, .nil => ⟨[], rfl, [], rfl, rfl⟩
  | true, _, _, _, .nil => ⟨[], rfl, [], rfl, rfl⟩
  | _, _, _, _, .element h hs => by
      obtain ⟨b, rfl⟩ := h.exists_branch
      obtain ⟨us, rfl, bs, rfl, rfl⟩ := hs.exists_branches
      exact ⟨_, (List.append_assoc ..).symm, b :: bs, rfl, rfl⟩
  | _, _, _, _, @Subtrees.member _ name _ _ _ hkind hcount h hs => by
      obtain ⟨b, rfl⟩ := h.exists_branch
      obtain ⟨us, rfl, ms, rfl, rfl⟩ := hs.exists_branches
      exact ⟨_, congrArg (name :: ·) (List.append_assoc ..).symm,
        (⟨name, hkind, hcount⟩, b) :: ms, rfl, rfl⟩

end

end Grammar

open ByteReader LawfulReader

variable {ρ : Type} [ByteReader ρ] [LawfulReader ρ]

/-- A tape of a document is a branch from each of its tokens on. -/
theorem Tape.exists_branch {limits : Limits} {r : ρ} {tape : Tape}
    (h : (Tape.read limits r).1 = .ok tape) {i : Nat} (hi : i < tape.size) :
    ∃ (b : Branch) (rest : List Token), tape.tokens.drop i = b.tokens ++ rest := by
  have hleft : (tape.tokens.drop i).length = tape.size - i := List.length_drop
  obtain ⟨rest, hfront⟩ := (subtree_of_read h).1.of_suffix (List.drop_suffix i tape.tokens) (by
    rw [hleft, List.length_nil]
    omega)
  obtain ⟨b, hb⟩ := hfront.exists_branch
  exact ⟨b, rest, hb⟩

/-- In front of any token of a tape, a value is read from any source as by recursion over the
branch that stands there: either all of it can be read, or the first token that cannot be read
is to blame, and the cursor is left behind that token. -/
theorem Tape.decode_recursion {limits : Limits} {r : ρ} {tape : Tape}
    (h : (Tape.read limits r).1 = .ok tape) (source : Source) {i : Nat} (hi : i < tape.size) :
    (∃ (b : Branch) (rest : List Token), tape.tokens.drop i = b.tokens ++ rest) ∧
    ∀ (b : Branch) (rest : List Token), tape.tokens.drop i = b.tokens ++ rest →
      match b.value source with
      | .ok v => (∀ t ∈ b.tokens, Scalar.probe source t = .ok ()) ∧
          Value.decode (tape.cursorAt source i) = .ok v ⟨source, i + b.tokens.length, rest⟩
      | .error fault => ∃ before t after, b.tokens = before ++ t :: after ∧
          (∀ u ∈ before, Scalar.probe source u = .ok ()) ∧ Scalar.probe source t = .error fault ∧
          Value.decode (tape.cursorAt source i) =
            .error fault ⟨source, i + before.length + 1, after ++ rest⟩ := by
  refine ⟨exists_branch h hi, fun b rest hb => ?_⟩
  have hretraces := b.retraces source ready_nil i rest
  have hcursor : tape.cursorAt source i = ⟨source, i, b.tokens ++ rest⟩ := by
    rw [cursorAt, hb]
  rw [hcursor]
  generalize b.value source = read at hretraces ⊢
  cases read with
  | ok v => exact ⟨hretraces.1, decode_of_ok hretraces.2⟩
  | error fault =>
      obtain ⟨before, t, after, htokens, hbefore, ht, houtcome⟩ := hretraces
      exact ⟨before, t, after, htokens, hbefore, ht, decode_of_error houtcome⟩

/-- The tape of `[[],{"a":7}]` is read from `[[],{"a":x}]`: the object in it has no value,
because there is no number. -/
theorem Tape.decode_recursion_elsewhere :
    ∃ before t after,
      [⟨.object, 4, 11, 1⟩, ⟨.string, 6, 7, 0⟩, ⟨.number, 9, 10, 0⟩] = before ++ t :: after ∧
      (∀ u ∈ before, Scalar.probe (.ofBytes [0x5B, 0x5B, 0x5D, 0x2C, 0x7B, 0x22, 0x61, 0x22, 0x3A,
        0x78, 0x7D, 0x5D]) u = .ok ()) ∧
      Scalar.probe (.ofBytes [0x5B, 0x5B, 0x5D, 0x2C, 0x7B, 0x22, 0x61, 0x22, 0x3A, 0x78, 0x7D,
        0x5D]) t = .error (.read (.of .invalidNumber [0x78] 9)) ∧
      Value.decode (Tape.cursorAt ⟨[⟨.array, 0, 12, 2⟩, ⟨.array, 1, 3, 0⟩, ⟨.object, 4, 11, 1⟩,
          ⟨.string, 6, 7, 0⟩, ⟨.number, 9, 10, 0⟩]⟩ (.ofBytes [0x5B, 0x5B, 0x5D, 0x2C, 0x7B, 0x22,
            0x61, 0x22, 0x3A, 0x78, 0x7D, 0x5D]) 2) =
        .error (.read (.of .invalidNumber [0x78] 9)) ⟨.ofBytes [0x5B, 0x5B, 0x5D, 0x2C, 0x7B, 0x22,
          0x61, 0x22, 0x3A, 0x78, 0x7D, 0x5D], 2 + before.length + 1, after ++ []⟩ := by
  have hread : (Tape.read {} (SliceReader.ofSource (.ofBytes [0x5B, 0x5B, 0x5D, 0x2C, 0x7B, 0x22,
      0x61, 0x22, 0x3A, 0x37, 0x7D, 0x5D]))).1 =
        .ok ⟨[⟨.array, 0, 12, 2⟩, ⟨.array, 1, 3, 0⟩, ⟨.object, 4, 11, 1⟩, ⟨.string, 6, 7, 0⟩,
          ⟨.number, 9, 10, 0⟩]⟩ := by
    cbv
  let b : Branch := .object 4 11
    [(⟨⟨.string, 6, 7, 0⟩, rfl, rfl⟩, .leaf ⟨.number, 9, 10, 0⟩ rfl rfl)]
  let source : Source :=
    .ofBytes [0x5B, 0x5B, 0x5D, 0x2C, 0x7B, 0x22, 0x61, 0x22, 0x3A, 0x78, 0x7D, 0x5D]
  have hspells : Escape.Spells [0x61] "a".toList :=
    have hplain : Escape.Spells (String.utf8EncodeChar 'a' ++ []) ['a'] :=
      .plain (by decide) (by decide) (by decide) .nil
    hplain
  have hlies : Grammar.Lies source.toBytes 5 (⟨[0x61], hspells.inside⟩ : Grammar.Quoted).text :=
    ⟨[0x5B, 0x5B, 0x5D, 0x2C, 0x7B], [0x3A, 0x78, 0x7D, 0x5D], rfl, rfl⟩
  have hkey : Scalar.string source ⟨.string, 6, 7, 0⟩ = .ok "a" :=
    Scalar.string_of_spells hlies hspells
  have hnumber : Scalar.float .binary64 source ⟨.number, 9, 10, 0⟩ =
      .error (.read (.of .invalidNumber [0x78] 9)) := rfl
  have hvalue : b.value source = .error (.read (.of .invalidNumber [0x78] 9)) := by
    simp only [b, Branch.value, Branch.memberValues, Branch.leafValue, hkey, hnumber]
    rfl
  have hdecode := (Tape.decode_recursion hread source (i := 2) (by decide)).2 b [] rfl
  rw [hvalue] at hdecode
  exact hdecode

end FlatJson
