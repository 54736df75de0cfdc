import FlatJson.Proofs.Scan.Derive
import FlatJson.Proofs.Text.Boundary

/-!
# Where a pass stops

A pass goes from one place of its document to another further on, and it cuts no
character on its way if none was cut where it began (`Place.Reaches`). So it does in
each step that succeeds (`step_reaches`), and where it is refused, it names such a place,
the end included, and a cause that is about the text of a document (`run_reached`). Each
reader has a lemma `…_reaches` for where it leads, and a lemma `…_reached` for what it
refuses.
-/

namespace FlatJson

/-- A text is refused for this cause: that of a document, or that of a token. What
is left is about values and about what callers ask for. -/
def ReadCause.ofText : ReadCause → Bool
  | unconsumed | missingField _ | other _ => false
  | _ => true

namespace Scan

open Ascii Grammar Utf8

/-- A place lies further on in the same document, and no character is cut there if none
is cut where one comes from. -/
def Place.Reaches (p q : Place) : Prop :=
  ∃ taken, p.rest = taken ++ q.rest ∧ q.offset = p.offset + taken.length ∧
    CleanCut taken q.rest

namespace Place.Reaches

variable {p q r : Place}

theorem refl (p : Place) : p.Reaches p :=
  ⟨[], rfl, rfl, .start p.rest⟩

theorem trans (hfirst : p.Reaches q) (hsecond : q.Reaches r) : p.Reaches r := by
  obtain ⟨front, hp, hq, hfront⟩ := hfirst
  obtain ⟨middle, hrest, hr, hmiddle⟩ := hsecond
  rw [hrest] at hp hfront
  refine ⟨front ++ middle, by rw [hp, List.append_assoc], ?_, hfront.trans hmiddle⟩
  rw [hr, hq, List.length_append, Nat.add_assoc]

/-- The document ends where it did. -/
theorem limit_eq (h : p.Reaches q) : q.limit = p.limit := by
  obtain ⟨taken, hrest, hoffset, -⟩ := h
  rw [limit, limit, hoffset, hrest, List.length_append, Nat.add_assoc]

end Place.Reaches

/-- What is cut off cleanly leads to what is left. -/
theorem reaches_append (offset : Nat) {taken rest : Bytes} (h : CleanCut taken rest) :
    Place.Reaches ⟨offset, taken ++ rest⟩ ⟨offset + taken.length, rest⟩ :=
  ⟨taken, rfl, rfl, h⟩

theorem cleanCut_quoted (q : Quoted) (rest : Bytes) : CleanCut q.text rest :=
  .behind (quote :: q.raw) rest (by decide)

theorem cleanCut_lexeme (x : Lexeme) (rest : Bytes) : CleanCut x.text rest := by
  cases x with
  | word w => exact .of_ascii w.toNat_lt rest
  | number n => exact .of_ascii n.toNat_lt rest
  | string q => exact cleanCut_quoted q rest

theorem toNat_opener_lt (isObject : Bool) : (opener isObject).toNat < 0x80 := by
  cases isObject <;> decide

theorem toNat_closer_lt (isObject : Bool) : (closer isObject).toNat < 0x80 := by
  cases isObject <;> decide

variable {maxDepth : Nat}

theorem skipBlanks_reaches (offset : Nat) (bs : Bytes) :
    Place.Reaches ⟨offset, bs⟩ (skipBlanks offset bs) := by
  obtain ⟨b, hbs, hoffset⟩ := exists_blanks_of_skipBlanks (rfl : skipBlanks offset bs = _)
  exact ⟨b.bytes, hbs, hoffset, .of_ascii b.toNat_lt _⟩

theorem readValue_reaches {outer : List Frame} {offset : Nat} {bs : Bytes} {next : State}
    {place : Place} (h : readValue maxDepth outer ⟨offset, bs⟩ = .ok (next, place)) :
    Place.Reaches ⟨offset, bs⟩ place := by
  rcases readValue_ok h with ⟨x, left, rfl, hnext⟩ | ⟨isObject, rest, -, rfl, hnext⟩
  · cases hnext
    exact reaches_append offset (cleanCut_lexeme x left)
  · rcases enter_cases isObject outer offset rest with
      ⟨inside, left, rfl, henter⟩ | ⟨inside, left, rfl, henter⟩
    · rw [henter] at hnext
      cases hnext
      refine ⟨opener isObject :: inside.bytes ++ [closer isObject], by simp, ?_,
        .behind _ left (toNat_closer_lt isObject)⟩
      simp only [List.length_append, List.length_cons, List.length_nil]
      omega
    · rw [henter] at hnext
      cases hnext
      have hascii : ∀ c ∈ opener isObject :: inside.bytes, c.toNat < 0x80 :=
        List.forall_mem_cons.mpr ⟨toNat_opener_lt isObject, inside.toNat_lt⟩
      refine ⟨opener isObject :: inside.bytes, rfl, ?_, .of_ascii hascii left⟩
      simp only [List.length_cons]
      omega

/-- The place behind a name and its blanks. -/
theorem quoted_reaches (offset : Nat) (q : Quoted) (after : Blanks) (rest : Bytes) :
    Place.Reaches ⟨offset, q.text ++ (after.bytes ++ rest)⟩
      ⟨offset + q.text.length + after.bytes.length, rest⟩ :=
  (reaches_append offset (cleanCut_quoted q _)).trans
    (reaches_append _ (.of_ascii after.toNat_lt rest))

theorem readName_reaches {frame : Frame} {outer : List Frame} {offset : Nat} {bs : Bytes}
    {next : State} {place : Place} (h : readName frame outer ⟨offset, bs⟩ = .ok (next, place)) :
    Place.Reaches ⟨offset, bs⟩ place := by
  obtain ⟨q, after, left, rfl, hnext⟩ := readName_ok h
  cases hnext
  have hcolon : CleanCut [colon] left := .behind [] left (by decide)
  exact (quoted_reaches offset q after (colon :: left)).trans (reaches_append _ hcolon)

theorem readSeparator_reaches {frame : Frame} {outer : List Frame} {offset : Nat} {bs : Bytes}
    {next : State} {place : Place}
    (h : readSeparator frame outer ⟨offset, bs⟩ = .ok (next, place)) :
    Place.Reaches ⟨offset, bs⟩ place := by
  obtain ⟨left, ⟨rfl, hnext⟩ | ⟨rfl, hnext⟩⟩ := readSeparator_ok h
  · cases hnext
    exact ⟨[frame.closer], rfl, rfl, .behind [] left (toNat_closer_lt frame.isObject)⟩
  · cases hnext
    have hcomma : CleanCut [comma] left := .behind [] left (by decide)
    exact (reaches_append offset hcomma).trans (skipBlanks_reaches _ _)

theorem eq_of_ofStep {read : Except Stop (State × Place)} {next : State} {place : Place}
    (h : Outcome.ofStep read = .go next place) : read = .ok (next, place) := by
  unfold Outcome.ofStep at h
  split at h
  · cases h
    rfl
  · cases h

theorem eq_of_ofStep_finished {read : Except Stop (State × Place)} {stop : Stop}
    (h : Outcome.ofStep read = .finished (.error stop)) : read = .error stop := by
  unfold Outcome.ofStep at h
  split at h
  · cases h
  · cases h
    rfl

/-- A step leads to a place of the same document. -/
theorem step_reaches {state next : State} {p place : Place}
    (h : step maxDepth state p = .go next place) : p.Reaches place := by
  refine (skipBlanks_reaches p.offset p.rest).trans ?_
  unfold step at h
  cases state with
  | value outer => exact readValue_reaches (eq_of_ofStep h)
  | name frame outer => exact readName_reaches (eq_of_ofStep h)
  | separator frame outer => exact readSeparator_reaches (eq_of_ofStep h)
  | done tokens => cases h

/-! What is refused. -/

/-- A document that ends at `limit` is refused at one of its places, for a cause
that texts are refused for. -/
structure Stop.Within (limit : Nat) (stop : Stop) : Prop where
  offset_le : stop.offset ≤ limit
  ofText : stop.cause.ofText = true

/-- A document that goes on at `p` is refused at a place that is reached from there, for
a cause that texts are refused for. -/
structure Stop.Reached (p : Place) (stop : Stop) : Prop where
  place : ∃ rest, p.Reaches ⟨stop.offset, rest⟩
  ofText : stop.cause.ofText = true

namespace Stop.Reached

variable {p q : Place} {stop : Stop}

theorem start (hoffset : stop.offset = p.offset) (h : stop.cause.ofText = true) :
    stop.Reached p :=
  ⟨⟨p.rest, hoffset ▸ .refl p⟩, h⟩

theorem finish (hoffset : stop.offset = p.limit) (h : stop.cause.ofText = true) :
    stop.Reached p :=
  ⟨⟨[], p.rest, (List.append_nil _).symm, hoffset, .stop p.rest⟩, h⟩

theorem trans (h : p.Reaches q) (hstop : stop.Reached q) : stop.Reached p := by
  obtain ⟨⟨rest, hrest⟩, htext⟩ := hstop
  exact ⟨⟨rest, h.trans hrest⟩, htext⟩

theorem within (h : stop.Reached p) : stop.Within p.limit := by
  obtain ⟨⟨rest, hrest⟩, htext⟩ := h
  refine ⟨?_, htext⟩
  rw [← hrest.limit_eq]
  exact Nat.le_add_right _ _

end Stop.Reached

variable {offset : Nat} {bs : Bytes} {stop : Stop}

/-- A string is refused where it begins, or in front of a control character in it. -/
theorem closeString_stops {opening : Nat} (h : closeString opening offset bs = .error stop) :
    stop.cause.ofText = true ∧ (stop.offset = opening ∨
      ∃ front b back, bs = front ++ b :: back ∧ isControl b = true ∧
        stop.offset = offset + front.length) := by
  fun_induction closeString opening offset bs with
  | case1 =>
      cases h
      exact ⟨rfl, .inl rfl⟩
  | case2 => cases h
  | case3 offset b hq hb =>
      cases h
      exact ⟨rfl, .inl rfl⟩
  | case4 offset b hq hb c rest ih =>
      obtain ⟨htext, hoffset | ⟨front, d, back, rfl, hd, hoffset⟩⟩ := ih h
      · exact ⟨htext, .inl hoffset⟩
      · refine ⟨htext, .inr ⟨b :: c :: front, d, back, rfl, hd, ?_⟩⟩
        rw [hoffset, List.length_cons, List.length_cons]
        omega
  | case5 offset b rest hq hb hc =>
      cases h
      exact ⟨rfl, .inr ⟨[], b, rest, rfl, hc, rfl⟩⟩
  | case6 offset b rest hq hb hc ih =>
      obtain ⟨htext, hoffset | ⟨front, d, back, rfl, hd, hoffset⟩⟩ := ih h
      · exact ⟨htext, .inl hoffset⟩
      · refine ⟨htext, .inr ⟨b :: front, d, back, rfl, hd, ?_⟩⟩
        rw [hoffset, List.length_cons]
        omega

theorem string_reached (h : string offset bs = .error stop) :
    stop.Reached ⟨offset, quote :: bs⟩ := by
  unfold string at h
  split at h
  · cases h
  · next hclose =>
      cases h
      obtain ⟨htext, hoffset | ⟨front, b, back, rfl, hb, hoffset⟩⟩ := closeString_stops hclose
      · exact .start hoffset htext
      · have hascii : b.toNat < 0x80 := by
          simp only [isControl, decide_eq_true_eq, UInt8.lt_iff_toNat_lt, UInt8.reduceToNat] at hb
          omega
        refine ⟨⟨b :: back, quote :: front, rfl, ?_, .ahead ?_⟩, htext⟩
        · simp only [hoffset, List.length_cons]
          omega
        · exact notAhead_cons.mpr (isTail_of_lt hascii)

/-- A word is refused where it begins, or because the document ends in it. -/
theorem word_stops {start : Nat} {expected : Bytes}
    (h : word start offset expected bs = .error stop) :
    stop.cause.ofText = true ∧ (stop.offset = start ∨ stop.offset = offset + bs.length) := by
  fun_induction word start offset expected bs with
  | case1 => cases h
  | case2 =>
      cases h
      exact ⟨rfl, .inr rfl⟩
  | case3 offset w expected b rest hb ih =>
      obtain ⟨htext, hoffset⟩ := ih h
      refine ⟨htext, hoffset.imp id fun hstop => ?_⟩
      rw [hstop, List.length_cons]
      omega
  | case4 =>
      cases h
      exact ⟨rfl, .inl rfl⟩

theorem literal_reached {kind : Kind} {expected : Bytes} {p : Place}
    (h : literal kind expected p = .error stop) : stop.Reached p := by
  unfold literal at h
  split at h
  · cases h
  · next hword =>
      cases h
      obtain ⟨htext, hoffset | hoffset⟩ := word_stops hword
      · exact .start hoffset htext
      · exact .finish hoffset htext

theorem number_reached {p : Place} (h : number p = .error stop) : stop.Reached p := by
  unfold number at h
  split at h
  · cases h
    exact .finish rfl rfl
  · cases h
    exact .start rfl rfl
  · split at h
    · cases h
      exact .start rfl rfl
    · cases h

theorem scalar_reached {b : UInt8} {rest : Bytes}
    (h : scalar b ⟨offset, b :: rest⟩ = .error stop) : stop.Reached ⟨offset, b :: rest⟩ := by
  rcases scalar_cases b with ⟨rfl, hstring⟩ | ⟨w, hword⟩ | hnumber | hnone
  · rw [hstring, List.tail_cons] at h
    exact string_reached h
  · rw [hword] at h
    exact literal_reached h
  · rw [hnumber] at h
    exact number_reached h
  · rw [hnone] at h
    cases h
    exact .start rfl rfl

theorem readValue_reached {outer : List Frame}
    (h : readValue maxDepth outer ⟨offset, bs⟩ = .error stop) : stop.Reached ⟨offset, bs⟩ := by
  unfold readValue at h
  cases bs with
  | nil =>
      cases h
      exact .start rfl rfl
  | cons b rest =>
      simp only at h
      split at h
      · split at h
        · cases h
          exact .start rfl rfl
        · cases h
      · split at h
        · cases h
        · next hscalar =>
            cases h
            exact scalar_reached hscalar

theorem readName_reached {frame : Frame} {outer : List Frame}
    (h : readName frame outer ⟨offset, bs⟩ = .error stop) : stop.Reached ⟨offset, bs⟩ := by
  rcases name_cases offset bs with
    ⟨q, after, rest, rfl, hrest⟩ | ⟨rest, fault, rfl, hstring⟩ | ⟨b, rest, rfl, hb⟩ | rfl
  · refine .trans (quoted_reaches offset q after rest) ?_
    rw [readName_quoted frame outer offset q after hrest rfl] at h
    cases rest with
    | nil =>
        cases h
        exact .start rfl rfl
    | cons c left =>
        simp only at h
        split at h
        · cases h
        · cases h
          exact .start rfl rfl
  · simp only [readName, beq_self_eq_true, if_true, hstring] at h
    cases h
    exact string_reached hstring
  · simp only [readName, hb, Bool.false_eq_true, if_false] at h
    cases h
    exact .start rfl rfl
  · cases h
    exact .start rfl rfl

theorem readSeparator_reached {frame : Frame} {outer : List Frame}
    (h : readSeparator frame outer ⟨offset, bs⟩ = .error stop) : stop.Reached ⟨offset, bs⟩ := by
  unfold readSeparator at h
  cases bs with
  | nil =>
      cases h
      exact .start rfl rfl
  | cons b rest =>
      simp only at h
      split at h
      · split at h
        · cases h
          exact .start rfl rfl
        · cases h
      · split at h
        · cases h
        · cases h
          exact .start rfl rfl

theorem readEnd_reached {tokens : Array Token} (h : readEnd tokens ⟨offset, bs⟩ = .error stop) :
    stop.Reached ⟨offset, bs⟩ := by
  unfold readEnd at h
  split at h
  · cases h
  · cases h
    exact .start rfl rfl

/-! A step, and a whole run. -/

theorem step_reached {state : State} {p : Place}
    (h : step maxDepth state p = .finished (.error stop)) : stop.Reached p := by
  refine .trans (skipBlanks_reaches p.offset p.rest) ?_
  unfold step at h
  cases state with
  | value outer => exact readValue_reached (eq_of_ofStep_finished h)
  | name frame outer => exact readName_reached (eq_of_ofStep_finished h)
  | separator frame outer => exact readSeparator_reached (eq_of_ofStep_finished h)
  | done tokens =>
      simp only [Outcome.finished.injEq] at h
      exact readEnd_reached h

/-- A run that is refused is refused at a place of its document, between characters. -/
theorem run_reached {state : State} {p : Place} (h : run maxDepth state p = .error stop) :
    stop.Reached p := by
  fun_induction run maxDepth state p with
  | case1 state p result hstep =>
      subst h
      exact step_reached hstep
  | case2 state p next place hstep _ ih => exact .trans (step_reaches hstep) (ih h)

/-- A run that is refused is refused within its document. -/
theorem run_within {state : State} {p : Place} (h : run maxDepth state p = .error stop) :
    stop.Within p.limit :=
  (run_reached h).within

end Scan

end FlatJson
