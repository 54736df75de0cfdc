import FlatJson.Proofs.Faults

/-!
# Runs of a cursor

Whatever is done with a cursor, it stays on its tape and never goes back
(`Decoder.Advances`), and at the end of the tape there is nothing to be taken, so that
the cursor stays (`Decoder.Starves`). These are facts about every cursor. Before the
end of its own tape a cursor stands in front of a subtree, wherever the operations
before have left it; so a run may go on after any fault, and only at the end is
something asked for that is not there (`Tape.run_safe`).
-/

namespace FlatJson

open Grammar

namespace Cursor

/-- A cursor comes to another by taking tokens. -/
def Before (c d : Cursor) : Prop :=
  d.source = c.source ∧ ∃ taken, c.rest = taken ++ d.rest ∧ d.position = c.position + taken.length

theorem Before.refl (c : Cursor) : c.Before c := ⟨rfl, [], rfl, rfl⟩

theorem Before.trans {c d e : Cursor} (h : c.Before d) (hmore : d.Before e) : c.Before e := by
  obtain ⟨hsource, ts, hts, hposition⟩ := h
  obtain ⟨hsource', us, hus, hposition'⟩ := hmore
  refine ⟨hsource'.trans hsource, ts ++ us, ?_, ?_⟩
  · rw [hts, hus, List.append_assoc]
  · rw [hposition', hposition, List.length_append, Nat.add_assoc]

theorem Before.position_le {c d : Cursor} (h : c.Before d) : c.position ≤ d.position := by
  obtain ⟨-, taken, -, hposition⟩ := h
  omega

theorem Before.suffix {c d : Cursor} (h : c.Before d) : d.rest <:+ c.rest := by
  obtain ⟨-, taken, hrest, -⟩ := h
  exact ⟨taken, hrest.symm⟩

/-- The tape is as long as before. -/
theorem Before.size_eq {c d : Cursor} (h : c.Before d) : d.size = c.size := by
  obtain ⟨-, taken, hrest, hposition⟩ := h
  rw [size, size, hrest, hposition, List.length_append, Nat.add_assoc]

theorem before_cons (source : Source) (position : Nat) (t : Token) (ts : List Token) :
    Before ⟨source, position, t :: ts⟩ ⟨source, position + 1, ts⟩ :=
  ⟨rfl, [t], rfl, rfl⟩

/-- Values are passed over by taking tokens. -/
theorem exists_passOver (pending position : Nat) (ts : List Token) :
    ∃ left taken rest, passOver pending position ts = (left, position + taken.length, rest) ∧
      ts = taken ++ rest := by
  induction ts generalizing pending position with
  | nil => exact ⟨pending, [], [], rfl, rfl⟩
  | cons t ts ih =>
      cases pending with
      | zero => exact ⟨0, [], t :: ts, rfl, rfl⟩
      | succ n =>
          obtain ⟨left, taken, rest, hpass, rfl⟩ := ih (n + t.ownedEntries) (position + 1)
          refine ⟨left, t :: taken, rest, ?_, rfl⟩
          rw [passOver, hpass, List.length_cons, Nat.add_assoc, Nat.add_comm 1]

end Cursor

/-- A value is read by taking tokens. -/
theorem Value.exists_readFrom (s : Source) (frames : List Value.Frame) (position : Nat)
    (ts : List Token) :
    ∃ result taken rest, Value.readFrom s frames position ts =
      (result, position + taken.length, rest) ∧ ts = taken ++ rest := by
  induction ts generalizing frames position with
  | nil => exact ⟨_, [], [], rfl, rfl⟩
  | cons t ts ih =>
      rw [Value.readFrom]
      cases Value.take s t frames with
      | error fault => exact ⟨_, [t], ts, rfl, rfl⟩
      | ok outcome =>
          cases outcome with
          | inl v => exact ⟨_, [t], ts, rfl, rfl⟩
          | inr frames =>
              obtain ⟨result, taken, rest, hread, rfl⟩ := ih frames (position + 1)
              refine ⟨result, t :: taken, rest, ?_, rfl⟩
              rw [List.length_cons, Nat.add_comm taken.length, ← Nat.add_assoc]
              exact hread

namespace Decoder

variable {α β : Type}

/-- What a decoder comes to: the fault, if there is one, and the cursor that is left. -/
def outcome (read : Decoder α) (c : Cursor) : Option Fault × Cursor :=
  match read c with
  | .ok _ d => (none, d)
  | .error fault d => (some fault, d)

theorem outcome_of_ok {read : Decoder α} {c d : Cursor} {x : α} (h : read c = .ok x d) :
    outcome read c = (none, d) := by
  rw [outcome, h]

theorem outcome_of_error {read : Decoder α} {c d : Cursor} {fault : Fault}
    (h : read c = .error fault d) : outcome read c = (some fault, d) := by
  rw [outcome, h]

/-- A decoder leaves the cursor further on, whether it succeeds or not. -/
def Advances (read : Decoder α) : Prop :=
  ∀ c : Cursor, c.Before (outcome read c).2

/-- A decoder finds no token at the end of the tape, and leaves the cursor there. -/
def Starves (read : Decoder α) : Prop :=
  ∀ c : Cursor, c.rest = [] → ∃ fault, read c = .error (.bounds fault) c

theorem advances_pure (x : α) : Advances (pure x : Decoder α) := fun c => .refl c

theorem advances_throw (fault : Fault) : Advances (throw fault : Decoder α) := fun c => .refl c

theorem Advances.bind {read : Decoder α} {next : α → Decoder β} (h : Advances read)
    (hnext : ∀ x, Advances (next x)) : Advances (read >>= next) := by
  intro c
  have hfirst := h c
  cases hread : read c with
  | ok x d =>
      rw [outcome_of_ok hread] at hfirst
      rw [outcome, bind_of_ok _ hread]
      exact hfirst.trans (hnext x d)
  | error fault d =>
      rw [outcome_of_error hread] at hfirst
      rw [outcome, bind_of_error _ hread]
      exact hfirst

theorem Starves.bind {read : Decoder α} (h : Starves read) (next : α → Decoder β) :
    Starves (read >>= next) := by
  intro c hc
  obtain ⟨fault, hfault⟩ := h c hc
  exact ⟨fault, bind_of_error next hfault⟩

theorem advances_next : Advances next := by
  intro c
  obtain ⟨source, position, ts⟩ := c
  cases ts with
  | nil => exact .refl _
  | cons t ts => exact Cursor.before_cons source position t ts

theorem starves_next : Starves next := by
  intro c hc
  obtain ⟨source, position, ts⟩ := c
  obtain rfl : ts = [] := hc
  exact ⟨_, rfl⟩

theorem advances_peek : Advances peek := by
  intro c
  obtain ⟨source, position, ts⟩ := c
  cases ts with
  | nil => exact .refl _
  | cons t ts => exact .refl _

theorem starves_peek : Starves peek := by
  intro c hc
  obtain ⟨source, position, ts⟩ := c
  obtain rfl : ts = [] := hc
  exact ⟨_, rfl⟩

theorem advances_scalar (read : Source → Token → Except Fault α) : Advances (scalar read) := by
  intro c
  obtain ⟨source, position, ts⟩ := c
  cases ts with
  | nil => exact .refl _
  | cons t ts =>
      have hstep := scalar_cons read source position t ts
      cases hread : read source t with
      | ok x =>
          rw [hread] at hstep
          rw [outcome_of_ok hstep]
          exact Cursor.before_cons source position t ts
      | error fault =>
          rw [hread] at hstep
          rw [outcome_of_error hstep]
          exact Cursor.before_cons source position t ts

theorem starves_scalar (read : Source → Token → Except Fault α) : Starves (scalar read) :=
  starves_next.bind _

theorem advances_isNull : Advances isNull := advances_peek.bind fun _ => advances_pure _

theorem starves_isNull : Starves isNull := starves_peek.bind _

theorem advances_repeatOnto {read : Decoder α} (h : Advances read) (acc : List α) (n : Nat) :
    Advances (repeatOnto read acc n) := by
  induction n generalizing acc with
  | zero => exact advances_pure _
  | succ n ih => exact h.bind fun x => ih (x :: acc)

theorem advances_skipValue : Advances skipValue := by
  intro c
  obtain ⟨left, taken, rest, hpass, hrest⟩ := Cursor.exists_passOver 1 c.position c.rest
  have hbefore : c.Before ⟨c.source, c.position + taken.length, rest⟩ := ⟨rfl, taken, hrest, rfl⟩
  have hcursor : (outcome skipValue c).2 = ⟨c.source, c.position + taken.length, rest⟩ := by
    unfold outcome skipValue
    rw [get_bind, hpass]
    cases left <;> rfl
  rw [hcursor]
  exact hbefore

theorem starves_skipValue : Starves skipValue := by
  intro c hc
  obtain ⟨source, position, ts⟩ := c
  obtain rfl : ts = [] := hc
  exact ⟨_, rfl⟩

end Decoder

open Decoder

theorem Value.advances_decode : Advances Value.decode := by
  intro c
  obtain ⟨result, taken, rest, hread, hrest⟩ :=
    Value.exists_readFrom c.source [] c.position c.rest
  have hbefore : c.Before ⟨c.source, c.position + taken.length, rest⟩ := ⟨rfl, taken, hrest, rfl⟩
  cases result with
  | ok v =>
      rw [outcome_of_ok (Value.decode_of_ok hread)]
      exact hbefore
  | error fault =>
      rw [outcome_of_error (Value.decode_of_error hread)]
      exact hbefore

theorem Value.starves_decode : Starves Value.decode := by
  intro c hc
  obtain ⟨source, position, ts⟩ := c
  obtain rfl : ts = [] := hc
  exact ⟨_, rfl⟩

theorem TextForm.advances_quoted {α : Type} (form : TextForm α) : Advances form.quoted.decode := by
  refine advances_peek.bind fun t => (advances_scalar _).bind fun s => ?_
  simp only
  split
  · exact advances_pure _
  · exact advances_throw _

theorem Codec.advances_option {α : Type} {c : Codec α} (h : Advances c.decode) :
    Advances c.option.decode := by
  refine advances_isNull.bind fun isNull => ?_
  cases isNull with
  | true => exact (advances_scalar _).bind fun _ => advances_pure none
  | false => exact h.bind fun x => advances_pure (some x)

theorem TextForm.starves_quoted {α : Type} (form : TextForm α) : Starves form.quoted.decode :=
  starves_peek.bind _

theorem Decoder.inherited_advances : Inherited @Advances where
  bool := advances_scalar _
  null := advances_scalar _
  integer _ := advances_scalar _
  float _ := advances_scalar _
  string := advances_scalar _
  value := Value.advances_decode
  numeral form := advances_scalar fun s t => Scalar.withText s .number t form.parseNumeral
  quoted form := form.advances_quoted
  map f h := h.bind fun x => advances_pure (f x)
  option h := Codec.advances_option h
  list h := (advances_scalar _).bind fun count => advances_repeatOnto h [] count

theorem Decoder.inherited_starves : Inherited @Starves where
  bool := starves_scalar _
  null := starves_scalar _
  integer _ := starves_scalar _
  float _ := starves_scalar _
  string := starves_scalar _
  value := Value.starves_decode
  numeral form := starves_scalar fun s t => Scalar.withText s .number t form.parseNumeral
  quoted form := form.starves_quoted
  map _ h := h.bind _
  option _ := starves_isNull.bind _
  list _ := (starves_scalar _).bind _

/-- Something that is done with a cursor. -/
inductive Operation
  | next
  | peek
  | skipElement
  | skipValue
  | isNull
  | float (f : Format)
  | integer (type : IntType)
  | string
  | key
  | bool
  | null
  | beginObject
  | beginArray
  | decode (s : Shape)

namespace Operation

/-- What an operation comes to: the fault, if there is one, and the cursor that is
left. -/
def step (c : Cursor) : Operation → Option Fault × Cursor
  | next => outcome Decoder.next c
  | peek => outcome Decoder.peek c
  | skipElement => outcome Decoder.skipElement c
  | skipValue => outcome Decoder.skipValue c
  | isNull => outcome Decoder.isNull c
  | float f => outcome (Decoder.float f) c
  | integer type => outcome (Decoder.integer type) c
  | string => outcome Decoder.string c
  | key => outcome Decoder.key c
  | bool => outcome Decoder.bool c
  | null => outcome Decoder.null c
  | beginObject => outcome Decoder.beginObject c
  | beginArray => outcome Decoder.beginArray c
  | decode s => outcome s.codec.decode c

/-- The cursor after some operations, one after the other, whatever each of them comes
to. -/
def run (c : Cursor) : List Operation → Cursor
  | [] => c
  | o :: more => run (o.step c).2 more

/-- An operation takes one token and nothing else. -/
def takesToken : Operation → Bool
  | peek | skipValue | isNull | decode _ => false
  | _ => true

/-- An operation leaves the cursor further on. -/
theorem before_step (c : Cursor) (o : Operation) : c.Before (o.step c).2 := by
  cases o with
  | next => exact advances_next c
  | peek => exact advances_peek c
  | skipElement => exact advances_next.bind (fun _ => advances_pure ()) c
  | skipValue => exact advances_skipValue c
  | isNull => exact advances_isNull c
  | float | integer | string | key | bool | null | beginObject | beginArray =>
      exact advances_scalar _ c
  | decode s => exact inherited_advances.decode s c

/-- So do all of them. -/
theorem before_run (c : Cursor) (os : List Operation) : c.Before (run c os) := by
  induction os generalizing c with
  | nil => exact .refl c
  | cons o more ih => exact (before_step c o).trans (ih _)

/-- At the end of the tape an operation has nothing to take. -/
theorem step_of_nil {c : Cursor} (hc : c.rest = []) (o : Operation) :
    ∃ fault, o.step c = (some (.bounds fault), c) := by
  have hstarves {α : Type} {read : Decoder α} (h : Starves read) :
      ∃ fault, outcome read c = (some (.bounds fault), c) := by
    obtain ⟨fault, hfault⟩ := h c hc
    exact ⟨fault, outcome_of_error hfault⟩
  cases o with
  | next => exact hstarves starves_next
  | peek => exact hstarves starves_peek
  | skipElement => exact hstarves (starves_next.bind _)
  | skipValue => exact hstarves starves_skipValue
  | isNull => exact hstarves starves_isNull
  | float | integer | string | key | bool | null | beginObject | beginArray =>
      exact hstarves (starves_scalar _)
  | decode s => exact hstarves (inherited_starves.decode s)

/-- Where there is a token, the operations that take one take it, whatever it is. -/
theorem position_step_of_takesToken {c : Cursor} (hc : c.rest ≠ []) {o : Operation}
    (ho : o.takesToken = true) : (o.step c).2.position = c.position + 1 := by
  obtain ⟨source, position, ts⟩ := c
  cases ts with
  | nil => exact absurd rfl hc
  | cons t ts =>
      have hscalar {α : Type} (read : Source → Token → Except Fault α) :
          (outcome (scalar read) ⟨source, position, t :: ts⟩).2.position = position + 1 := by
        rw [outcome, scalar_cons]
        cases read source t <;> rfl
      cases o with
      | next => rfl
      | skipElement => rfl
      | float | integer | string | key | bool | null | beginObject | beginArray =>
          exact hscalar _
      | peek | skipValue | isNull | decode => cases ho

/-- In front of a subtree of a tape nothing is asked for that is not there. -/
theorem not_bounds_step {c : Cursor} {rest : List Token} (hsubtree : Subtree c.rest rest)
    (hstands : ∀ t ∈ c.rest, Stands c.source.toBytes t)
    (hsmall : c.rest.length ≤ Token.maxEntries + rest.length) (o : Operation)
    (fault : OutOfBounds) : (o.step c).1 ≠ some (.bounds fault) := by
  have hblames {α : Type} {read : Decoder α} (h : BlamesToken read) :
      (outcome read c).1 ≠ some (.bounds fault) := by
    cases hread : read c with
    | ok x d =>
        rw [outcome_of_ok hread]
        rintro ⟨⟩
    | error f d =>
        obtain ⟨t, -, ht⟩ := h c rest hsubtree hstands f d hread
        rw [outcome_of_error hread]
        cases ht
        rintro ⟨⟩
  have hscalar {α : Type} {read : Source → Token → Except Fault α}
      (h : ∀ s t fault, read s t = .error fault → Scalar.Refuses s t fault) :
      (outcome (scalar read) c).1 ≠ some (.bounds fault) :=
    hblames ((faultsAt_scalar h).blamesToken fun _ _ _ h hstands => h.blames hstands)
  cases o with
  | float f => exact hscalar fun _ _ _ h => .float f h
  | integer type => exact hscalar fun _ _ _ h => .integer type h
  | string | key => exact hscalar fun _ _ _ h => .string h
  | bool => exact hscalar fun _ _ _ h => .bool h
  | null => exact hscalar fun _ _ _ h => .null h
  | beginObject => exact hscalar fun _ _ _ h => .children .object h
  | beginArray => exact hscalar fun _ _ _ h => .children .array h
  | decode s => exact hblames s.blamesToken_decode
  | skipValue =>
      rw [step, outcome_of_ok (skipValue_of_subtree hsubtree hsmall)]
      rintro ⟨⟩
  | next | peek | skipElement | isNull =>
      obtain ⟨source, position, ts⟩ := c
      cases ts with
      | nil => cases hsubtree
      | cons t ts => rintro ⟨⟩

/-- What an operation does to a cursor on a tape of `size` tokens. -/
structure Safe (size : Nat) (c : Cursor) (o : Operation) : Prop where
  position_le : c.position ≤ (o.step c).2.position
  le_size : (o.step c).2.position ≤ size
  bounds_iff : (∃ fault, (o.step c).1 = some (.bounds fault)) ↔ c.position = size
  stays : c.position = size → (o.step c).2 = c
  skips : c.position < size → o = .skipValue → (o.step c).1 = none
  takes : c.position < size → o.takesToken = true → (o.step c).2.position = c.position + 1

end Operation

open ByteReader LawfulReader

/-- On the tape of a document, whatever has been done before with a cursor, an operation
leaves it on the tape and does not move it back; it asks for what is not there at the
end of the tape and nowhere else, and then the cursor stays. Before the end a value can
be passed over, and an operation that takes one token moves the cursor by one. The
document is no longer than a tape can count, since values are passed over by their
counts. -/
theorem Tape.run_safe {ρ : Type} [ByteReader ρ] [LawfulReader ρ] {limits : Limits} {r : ρ}
    {tape : Tape} (h : (Tape.read limits r).1 = .ok tape) (hlimit : limit r ≤ Token.maxEntries)
    {source : Source} (hsource : source.toBytes = content r) (os : List Operation)
    (o : Operation) : Operation.Safe tape.size (Operation.run (tape.cursor source) os) o := by
  obtain ⟨hsubtree, hsize⟩ := Tape.subtree_of_read h
  have hbefore := Operation.before_run (tape.cursor source) os
  generalize Operation.run (tape.cursor source) os = c at hbefore
  have hwhole : c.size = tape.size := hbefore.size_eq.trans (Nat.zero_add _)
  have hstep := Operation.before_step c o
  have hle : (o.step c).2.position ≤ tape.size := by
    rw [← hwhole, ← hstep.size_eq]
    exact Nat.le_add_right _ _
  have hnil : c.position = tape.size ↔ c.rest = [] := by
    rw [← hwhole, Cursor.size, ← List.length_eq_zero_iff]
    omega
  by_cases hend : c.rest = []
  · obtain ⟨fault, hfault⟩ := Operation.step_of_nil hend o
    have hposition := hnil.mpr hend
    exact
      { position_le := hstep.position_le
        le_size := hle
        bounds_iff := iff_of_true ⟨fault, by rw [hfault]⟩ hposition
        stays := fun _ => by rw [hfault]
        skips := fun hlt => absurd hposition hlt.ne
        takes := fun hlt => absurd hposition hlt.ne }
  · have hpos : ([] : List Token).length < c.rest.length := List.length_pos_iff.mpr hend
    obtain ⟨rest, hfront⟩ := hsubtree.of_suffix hbefore.suffix hpos
    have hstands : ∀ t ∈ c.rest, Stands c.source.toBytes t := by
      intro t ht
      have hmem : t ∈ tape.tokens := hbefore.suffix.subset ht
      rw [hbefore.1]
      exact hsource ▸ Tape.stands_of_read h t hmem
    have hsmall : c.rest.length ≤ Token.maxEntries + rest.length := by
      have hlength := hbefore.suffix.length_le
      have htape : tape.tokens.length ≤ limit r := hsize
      change c.rest.length ≤ tape.tokens.length at hlength
      omega
    have hposition : c.position ≠ tape.size := fun heq => hend (hnil.mp heq)
    refine
      { position_le := hstep.position_le
        le_size := hle
        bounds_iff := iff_of_false ?_ hposition
        stays := fun heq => absurd heq hposition
        skips := ?_
        takes := fun _ => Operation.position_step_of_takesToken hend }
    · rintro ⟨fault, hfault⟩
      exact Operation.not_bounds_step hfront hstands hsmall o fault hfault
    · rintro - rfl
      rw [Operation.step, outcome_of_ok (skipValue_of_subtree hfront hsmall)]

/-- On the tape of `{"k":[]}` a list may be asked for in vain, and the cursor, which
stands at the name then, passes over it. After the array there is nothing left. -/
theorem Tape.run_safe_name :
    (Operation.skipValue.step (Operation.run
        (Tape.cursor ⟨[⟨.object, 0, 8, 1⟩, ⟨.string, 2, 3, 0⟩, ⟨.array, 5, 7, 0⟩]⟩
          (.ofBytes [0x7B, 0x22, 0x6B, 0x22, 0x3A, 0x5B, 0x5D, 0x7D]))
        [.decode (.list .value)])).1 = none ∧
      ∃ fault, (Operation.next.step (Operation.run
        (Tape.cursor ⟨[⟨.object, 0, 8, 1⟩, ⟨.string, 2, 3, 0⟩, ⟨.array, 5, 7, 0⟩]⟩
          (.ofBytes [0x7B, 0x22, 0x6B, 0x22, 0x3A, 0x5B, 0x5D, 0x7D]))
        [.decode (.list .value), .skipValue, .beginArray])).1 = some (.bounds fault) := by
  have hread : (Tape.read {} (SliceReader.ofSource
      (.ofBytes [0x7B, 0x22, 0x6B, 0x22, 0x3A, 0x5B, 0x5D, 0x7D]))).1 =
        .ok ⟨[⟨.object, 0, 8, 1⟩, ⟨.string, 2, 3, 0⟩, ⟨.array, 5, 7, 0⟩]⟩ := by
    cbv
  have hname := Tape.run_safe hread (by decide) rfl [.decode (.list .value)] .skipValue
  have hend := Tape.run_safe hread (by decide) rfl
    [.decode (.list .value), .skipValue, .beginArray] .next
  exact ⟨hname.skips (by decide) rfl, hend.bounds_iff.mpr rfl⟩

end FlatJson
