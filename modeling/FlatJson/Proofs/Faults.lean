import FlatJson.Proofs.Phases
import FlatJson.Proofs.Scan.Bound
import FlatJson.Proofs.Tape.Refusal

/-!
# Faults of a document

A decoder in front of a subtree fails at one of the tokens behind the cursor
(`Decoder.FaultsAt`), and its fault blames that token (`Decoder.BlamesToken`). The codecs
of larger types inherit this from those of their parts, which take one value each. So a
document is read as a value of a shape, or it is at fault at one of its own places: no
codec asks for a token or for a byte that is not there, and none leaves a token behind.
-/

namespace FlatJson

open Grammar

namespace ReadCause

theorem OfToken.ofText {cause : ReadCause} (h : cause.OfToken) : cause.ofText = true := by
  cases h <;> rfl

/-- What texts are refused for is never that tokens are left. -/
theorem message_ne_unconsumed {cause : ReadCause} (h : cause.ofText = true) :
    cause.message ≠ unconsumed.message := by
  intro heq
  have hhead : cause.message.toList.head? = some 'U' := by
    rw [heq]
    decide
  cases cause with
  | expectedSeparator container => cases container <;> exact absurd heq (by decide)
  | mismatch what found =>
      change ("Expected " ++ what ++ ", found " ++ found.name).toList.head? = some 'U' at hhead
      rw [String.toList_append, String.toList_append, String.toList_append] at hhead
      cases hhead
  | invalid what =>
      change ("Invalid " ++ what).toList.head? = some 'U' at hhead
      rw [String.toList_append] at hhead
      cases hhead
  | unconsumed | missingField name | other message => cases h
  | _ => exact absurd heq (by decide)

end ReadCause

namespace Decoder

variable {α β : Type}

/-- In front of a subtree of tokens that stand in the document, a fault blames one of
them. -/
def BlamesToken (read : Decoder α) : Prop :=
  ∀ (c : Cursor) (rest : List Token), Subtree c.rest rest →
    (∀ t ∈ c.rest, Stands c.source.toBytes t) →
    ∀ fault d, read c = .error fault d → ∃ t ∈ c.rest, fault.Blames t

/-- In front of a subtree, a decoder fails at one of the tokens behind the cursor, with a
fault that `P` allows of that token. -/
def FaultsAt (P : Source → Token → Fault → Prop) (read : Decoder α) : Prop :=
  ∀ (c : Cursor) (rest : List Token), Subtree c.rest rest →
    ∀ fault d, read c = .error fault d → ∃ t ∈ c.rest, P c.source t fault

variable {P : Source → Token → Fault → Prop} {read : Decoder α}

theorem faultsAt_scalar {read : Source → Token → Except Fault α}
    (h : ∀ s t fault, read s t = .error fault → P s t fault) : FaultsAt P (scalar read) := by
  intro c rest hsubtree fault d hread
  obtain ⟨source, position, ts⟩ := c
  cases ts with
  | nil => cases hsubtree
  | cons t ts =>
      rw [scalar_cons] at hread
      cases htoken : read source t with
      | ok x =>
          rw [htoken] at hread
          cases hread
      | error f =>
          rw [htoken] at hread
          cases hread
          exact ⟨t, List.mem_cons_self, h source t fault htoken⟩

theorem FaultsAt.mono {Q : Source → Token → Fault → Prop} (h : FaultsAt P read)
    (hPQ : ∀ s t fault, P s t fault → Q s t fault) : FaultsAt Q read := by
  intro c rest hsubtree fault d hread
  obtain ⟨t, ht, hfault⟩ := h c rest hsubtree fault d hread
  exact ⟨t, ht, hPQ c.source t fault hfault⟩

/-- A look at the next token does not fail. -/
theorem FaultsAt.isNull_bind {next : Bool → Decoder α} (h : ∀ b, FaultsAt P (next b)) :
    FaultsAt P (isNull >>= next) := by
  intro c rest hsubtree fault d hread
  obtain ⟨source, position, ts⟩ := c
  cases ts with
  | nil => cases hsubtree
  | cons t ts => exact h (t.kind == .null) ⟨source, position, t :: ts⟩ rest hsubtree fault d hread

/-- What is made of a value that has been read may be refused for the token in front of
it. -/
theorem FaultsAt.peek_bind {read : Decoder β} {next : Token → β → Decoder α}
    (h : FaultsAt P read)
    (hnext : ∀ s t x c fault d, next t x c = .error fault d → P s t fault) :
    FaultsAt P (peek >>= fun t => read >>= next t) := by
  intro c rest hsubtree fault d hread
  obtain ⟨source, position, ts⟩ := c
  cases ts with
  | nil => cases hsubtree
  | cons t ts =>
      have hbind : (read >>= next t) ⟨source, position, t :: ts⟩ = .error fault d := hread
      cases hfirst : read ⟨source, position, t :: ts⟩ with
      | error g e =>
          rw [bind_of_error _ hfirst] at hbind
          cases hbind
          exact h _ rest hsubtree fault d hfirst
      | ok x e =>
          rw [bind_of_ok _ hfirst] at hbind
          exact ⟨t, List.mem_cons_self, hnext source t x e fault d hbind⟩

theorem FaultsAt.map (h : FaultsAt P read) (f : α → β) :
    FaultsAt P (read >>= fun x => pure (f x)) := by
  intro c rest hsubtree fault d hread
  cases hfirst : read c with
  | ok x e =>
      rw [bind_of_ok _ hfirst] at hread
      cases hread
  | error g e =>
      rw [bind_of_error _ hfirst] at hread
      cases hread
      exact h c rest hsubtree fault d hfirst

theorem FaultsAt.repeatOnto (h : FaultsAt P read) (hone : TakesOne read) {n : Nat}
    (acc : List α) {c d : Cursor} {rest : List Token} {fault : Fault}
    (hchildren : Subtrees false n c.rest rest)
    (hread : Decoder.repeatOnto read acc n c = .error fault d) :
    ∃ t ∈ c.rest, P c.source t fault := by
  induction n generalizing c acc with
  | zero => cases hread
  | succ n ih =>
      cases hchildren with
      | @element _ _ us _ hfirst hothers =>
          have hends := hone c us hfirst
          cases hx : read c with
          | error g e =>
              rw [Decoder.repeatOnto, bind_of_error _ hx] at hread
              cases hread
              exact h c us hfirst fault d hx
          | ok x e =>
              rw [hx] at hends
              obtain rfl : e = c.past us := hends
              rw [Decoder.repeatOnto, bind_of_ok _ hx] at hread
              obtain ⟨t, ht, hfault⟩ := ih (x :: acc) (c := c.past us) hothers hread
              exact ⟨t, hfirst.suffix.subset ht, hfault⟩

theorem FaultsAt.list (h : FaultsAt P read) (hone : TakesOne read)
    (hP : ∀ s t fault, Scalar.Refuses s t fault → P s t fault) :
    FaultsAt P (beginArray >>= fun count => Decoder.repeatOnto read [] count) := by
  intro c rest hsubtree fault d hread
  obtain ⟨source, position, ts⟩ := c
  cases ts with
  | nil => cases hsubtree
  | cons t ts =>
      rcases beginArray_cons source position t ts with ⟨hkind, hcount⟩ | ⟨-, g, hfault⟩
      · rw [bind_of_ok _ hcount] at hread
        have hchildren : Subtrees false t.count ts rest := hsubtree.children hkind
        obtain ⟨u, hu, hfault⟩ :=
          h.repeatOnto hone (c := ⟨source, position + 1, ts⟩) [] hchildren hread
        exact ⟨u, List.mem_cons_of_mem _ hu, hfault⟩
      · have hbegin : FaultsAt P beginArray :=
          faultsAt_scalar fun s t fault h => hP s t fault (.children .array h)
        rw [bind_of_error _ hfault] at hread
        cases hread
        exact hbegin _ rest hsubtree fault _ hfault

theorem FaultsAt.blamesToken (h : FaultsAt P read)
    (hP : ∀ s t fault, P s t fault → Stands s.toBytes t → fault.Blames t) :
    BlamesToken read := by
  intro c rest hsubtree hstands fault d hread
  obtain ⟨t, ht, hfault⟩ := h c rest hsubtree fault d hread
  exact ⟨t, ht, hP c.source t fault hfault (hstands t ht)⟩

end Decoder

open Decoder

section Closure

variable {α : Type} {P : Source → Token → Fault → Prop}

theorem Codec.faultsAt_option {c : Codec α} (h : FaultsAt P c.decode)
    (hP : ∀ s t fault, Scalar.Refuses s t fault → P s t fault) : FaultsAt P c.option.decode := by
  refine FaultsAt.isNull_bind fun isNull => ?_
  cases isNull with
  | true =>
      have hnull : FaultsAt P Decoder.null :=
        faultsAt_scalar fun s t fault h => hP s t fault (.null h)
      exact hnull.map fun _ => none
  | false => exact h.map some

/-- A text that is none of a type's texts is refused for the string that it was read
from. -/
theorem TextForm.faultsAt_quoted (form : TextForm α)
    (hP : ∀ s t fault, Scalar.Refuses s t fault → P s t fault)
    (hform : ∀ s (t : Token) text, P s t (.read (.of form.refusal text t.start))) :
    FaultsAt P form.quoted.decode := by
  have hstring : FaultsAt P Decoder.string :=
    faultsAt_scalar fun s t fault h => hP s t fault (.string h)
  refine hstring.peek_bind fun source t s c fault d hread => ?_
  cases hparse : form.parse (Utf8.ofString s) with
  | some x =>
      rw [hparse] at hread
      cases hread
  | none =>
      rw [hparse] at hread
      cases hread
      exact hform source t (Utf8.ofString s)

end Closure

/-- Only strings and numbers are refused where a value may come. -/
theorem Value.refuses_of_ofToken {s : Source} {t : Token} {fault : Fault}
    (h : Value.ofToken s t = .error fault) : Scalar.Refuses s t fault := by
  have hmap {α : Type} {read : Except Fault α} {f : α → Value.Step}
      (hread : read.map f = .error fault) : read = .error fault := by
    cases read with
    | ok x => cases hread
    | error g =>
        cases hread
        rfl
  unfold Value.ofToken at h
  split at h
  · cases h
  · cases h
  · exact .string (hmap h)
  · exact .float .binary64 (hmap h)
  all_goals cases h

/-- What the walk along a tape refuses a token for is the fault of a string or of a
number. -/
theorem Value.refuses_of_take {s : Source} {t : Token} {frames : List Value.Frame} {fault : Fault}
    (h : Value.take s t frames = .error fault) : Scalar.Refuses s t fault := by
  unfold Value.take at h
  split at h
  · split at h
    · cases h
    · next hstring =>
        cases h
        exact .string hstring
  · split at h
    · cases h
    · cases h
    · next hread =>
        cases h
        exact Value.refuses_of_ofToken hread

theorem Value.faultsAt_decode : FaultsAt Scalar.Refuses Value.decode := by
  intro c rest hsubtree fault d hread
  rcases hsubtree.readFrom_ends c.source Value.ready_nil c.position with
    ⟨v, hv⟩ | ⟨g, place, left, hfault, -, -, t, ht, frames, htake⟩
  · rw [Value.decode_of_ok hv] at hread
    cases hread
  · rw [Value.decode_of_error hfault] at hread
    cases hread
    exact ⟨t, ht, Value.refuses_of_take htake⟩

theorem Decoder.inherited_faultsAt {P : Source → Token → Fault → Prop}
    (hP : ∀ s t fault, Scalar.Refuses s t fault → P s t fault)
    (hform : ∀ s (t : Token) what text, P s t (.read (.of (.invalid what) text t.start))) :
    Inherited fun _ read => TakesOne read ∧ FaultsAt P read where
  bool := ⟨takesOne_bool, faultsAt_scalar fun s t fault h => hP s t fault (.bool h)⟩
  null := ⟨takesOne_null, faultsAt_scalar fun s t fault h => hP s t fault (.null h)⟩
  integer type :=
    ⟨inherited_takesOne.integer type,
      faultsAt_scalar fun s t fault h => hP s t fault (.integer type h)⟩
  float f :=
    ⟨inherited_takesOne.float f, faultsAt_scalar fun s t fault h => hP s t fault (.float f h)⟩
  string :=
    ⟨inherited_takesOne.string, faultsAt_scalar fun s t fault h => hP s t fault (.string h)⟩
  value := ⟨Value.takesOne_decode, Value.faultsAt_decode.mono hP⟩
  numeral form :=
    ⟨inherited_takesOne.numeral form,
      faultsAt_scalar fun s t fault h => hP s t fault (.numeral form h)⟩
  quoted form :=
    ⟨form.takesOne_quoted, form.faultsAt_quoted hP fun s t text => hform s t form.what text⟩
  map f h := ⟨inherited_takesOne.map f h.1, h.2.map f⟩
  option h := ⟨Codec.takesOne_option h.1, Codec.faultsAt_option h.2 hP⟩
  list h := ⟨h.1.list, h.2.list h.1 hP⟩

/-- The fault of a shape blames a token. -/
theorem Shape.blamesToken_decode (s : Shape) : BlamesToken s.codec.decode := by
  have hinherited : Inherited fun _ read => TakesOne read ∧
      FaultsAt (fun s t fault => Stands s.toBytes t → fault.Blames t) read :=
    inherited_faultsAt (fun _ _ _ h hstands => h.blames hstands) fun _ _ what _ hstands =>
      .read (.invalid what) (Nat.le_refl _) hstands.start_le_stop
  exact (hinherited.decode s).2.blamesToken fun _ _ _ h => h

/-- A codec of a shape takes all of a tape, so that the tape is read as what it decodes,
or it fails with the fault of a text, for which one of the tokens is to blame. -/
theorem Shape.decode_cases (s : Shape) {tape : Tape} {source : Source}
    (hsubtree : Subtree tape.tokens []) (hstands : ∀ t ∈ tape.tokens, Stands source.toBytes t) :
    (∃ x, s.codec.decode (tape.cursor source) = .ok x ((tape.cursor source).past []) ∧
        s.codec.ofTape tape source = .ok x) ∨
      ∃ fault d, s.codec.decode (tape.cursor source) = .error (.read fault) d ∧
        s.codec.ofTape tape source = .error (.read fault) ∧
        ∃ t ∈ tape.tokens, (Fault.read fault).Blames t := by
  cases hread : s.codec.decode (tape.cursor source) with
  | error fault d =>
      obtain ⟨t, ht, hblames⟩ := s.blamesToken_decode _ [] hsubtree hstands fault d hread
      cases hblames with
      | @read f hcause hstart hstop =>
          exact .inr ⟨f, d, rfl, Codec.ofTape_of_error hread, t, ht, .read hcause hstart hstop⟩
  | ok x d =>
      have hends := s.takesOne_decode (tape.cursor source) [] hsubtree
      rw [hread] at hends
      obtain rfl : d = (tape.cursor source).past [] := hends
      exact .inl ⟨x, rfl, Codec.ofTape_of_ok hread rfl⟩

/-- A tape is read in full, or one of its tokens is blamed. -/
theorem Shape.ofTape_cases (s : Shape) {tape : Tape} {source : Source}
    (hsubtree : Subtree tape.tokens []) (hstands : ∀ t ∈ tape.tokens, Stands source.toBytes t) :
    (∃ x, s.codec.ofTape tape source = .ok x) ∨
      ∃ fault, s.codec.ofTape tape source = .error fault ∧ ∃ t ∈ tape.tokens, fault.Blames t := by
  rcases s.decode_cases hsubtree hstands with ⟨x, -, hx⟩ | ⟨fault, d, -, hfault, hblames⟩
  · exact .inl ⟨x, hx⟩
  · exact .inr ⟨.read fault, hfault, hblames⟩

/-- A text is read as a value of a shape, or the fault is one of reading, at a place of
the text, and it is not that tokens are left: no codec asks for what is not there. -/
theorem Shape.ofBytes_reads_or_blames (s : Shape) (bs : Bytes) :
    (∃ x, s.codec.ofBytes bs = .ok x) ∨
      ∃ fault, s.codec.ofBytes bs = .error (.read fault) ∧ fault.offset ≤ bs.length ∧
        fault.cause.message ≠ ReadCause.unconsumed.message := by
  unfold Codec.ofBytes Codec.ofSource
  cases htape : Tape.ofSource {} (.ofBytes bs) with
  | error fault =>
      obtain ⟨stop, hrun, hcause, hoffset⟩ := Tape.run_eq_error htape
      have hwithin := Scan.run_within hrun
      have hle : fault.offset ≤ bs.length := by
        have hstop := hwithin.offset_le
        rwa [Scan.Place.limit, Nat.zero_add, ← hoffset] at hstop
      have htext : fault.cause.ofText = true := by rw [hcause, hwithin.ofText]
      exact .inr ⟨fault, rfl, hle, ReadCause.message_ne_unconsumed htext⟩
  | ok tape =>
      have hstands : ∀ t ∈ tape.tokens, Stands (Source.ofBytes bs).toBytes t :=
        Tape.stands_of_read htape
      rcases s.ofTape_cases (Tape.subtree_of_read htape).1 hstands with
        ⟨x, hx⟩ | ⟨fault, hfault, t, ht, hblames⟩
      · exact .inl ⟨x, hx⟩
      · cases hblames with
        | @read f hcause _ hstop =>
            have hle := (hstands t ht).stop_le_length
            exact .inr ⟨f, hfault, hstop.trans hle,
              ReadCause.message_ne_unconsumed hcause.ofText⟩

end FlatJson
