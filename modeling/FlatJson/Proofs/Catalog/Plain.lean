import FlatJson.Shape
import FlatJson.Proofs.Number.Digits
import FlatJson.Proofs.Text.Boundary
import FlatJson.Proofs.Writing

/-!
# Catalog types that are written as strings

The texts of durations, periods, dates, times and zones hold digits, letters and a
few marks: visible characters of one byte, none of which has to be escaped
(`Printed`). So a text may stand between two quotes as it is
(`TextForm.exists_quoted`).
-/

namespace FlatJson

open Ascii Grammar

/-- No byte of a text has to be escaped. -/
def Plain (text : Bytes) : Prop :=
  ∀ b ∈ text, Escape.needed b = false

/-- A visible character of one byte that does not have to be escaped. -/
def Ascii.IsPrinted (b : UInt8) : Prop :=
  IsMark b ∧ Escape.needed b = false

instance (b : UInt8) : Decidable (IsPrinted b) :=
  inferInstanceAs (Decidable (_ ∧ _))

/-- All bytes of a text are printed as they are. -/
def Printed (text : Bytes) : Prop :=
  ∀ b ∈ text, IsPrinted b

theorem Printed.plain {text : Bytes} (h : Printed text) : Plain text :=
  fun b hb => (h b hb).2

@[simp]
theorem printed_nil : Printed [] := fun _ h => by cases h

@[simp]
theorem printed_cons {b : UInt8} {text : Bytes} :
    Printed (b :: text) ↔ IsPrinted b ∧ Printed text :=
  List.forall_mem_cons

@[simp]
theorem printed_append {p q : Bytes} : Printed (p ++ q) ↔ Printed p ∧ Printed q :=
  List.forall_mem_append

theorem Printed.sublist {p q : Bytes} (h : Printed q) (hsub : List.Sublist p q) : Printed p :=
  fun b hb => h b (hsub.subset hb)

/-- A printed text is that of a string, and is written as it is. -/
theorem Printed.exists_string {text : Bytes} (h : Printed text) :
    ∃ s : String, Utf8.ofString s = text ∧ text.flatMap Escape.written = text := by
  obtain ⟨cs, hcs⟩ := Utf8.exists_encode_of_lt fun b hb => (h b hb).1.2.1
  refine ⟨String.ofList cs, ?_, Escape.flatMap_written h.plain⟩
  rw [Utf8.ofString, String.toList_ofList, hcs]

theorem isPrinted_of_toNat {b : UInt8} (hleast : 0x22 < b.toNat) (hmost : b.toNat < 0x80)
    (hne : b.toNat ≠ 0x5C) : IsPrinted b := by
  simp only [IsPrinted, IsMark, Escape.needed, isControl, quote, backslash,
    UInt8.lt_iff_toNat_lt, Bool.or_eq_false_iff, decide_eq_false_iff_not, beq_eq_false_iff_ne,
    ne_eq, ← UInt8.toNat_inj, UInt8.reduceToNat]
  omega

theorem isPrinted_of_isDigit {b : UInt8} (h : isDigit b = true) : IsPrinted b := by
  simp only [isDigit, UInt8.le_iff_toNat_le, Bool.and_eq_true, decide_eq_true_eq,
    UInt8.reduceToNat] at h
  exact isPrinted_of_toNat (by omega) (by omega) (by omega)

theorem isPrinted_of_isLetter {b : UInt8} (h : isLetter b = true) : IsPrinted b := by
  simp only [isLetter, UInt8.le_iff_toNat_le, Bool.or_eq_true, Bool.and_eq_true,
    decide_eq_true_eq, UInt8.reduceToNat] at h
  exact isPrinted_of_toNat (by omega) (by omega) (by omega)

@[simp]
theorem printed_digits (n : Nat) : Printed (digits n) :=
  fun b hb => isPrinted_of_isDigit ((isDigits_digits n).2 b hb)

@[simp]
theorem printed_padded (width n : Nat) : Printed (padded width n) := by
  refine printed_append.mpr ⟨fun b hb => ?_, printed_digits n⟩
  rw [List.eq_of_mem_replicate hb]
  decide

@[simp]
theorem printed_integer (n : Int) : Printed (integer n) := by
  unfold integer
  split
  · exact printed_cons.mpr ⟨by decide, printed_digits _⟩
  · exact printed_digits _

namespace Duration

theorem printed_partText {sign : Bytes} (hsign : Printed sign) (n : Nat) (unit : UInt8)
    (hunit : IsPrinted unit) : Printed (partText sign n unit) := by
  unfold partText
  split
  · exact printed_nil
  · simp [hsign, hunit]

theorem printed_fractionText (nanos : Nat) : Printed (fractionText nanos) := by
  unfold fractionText
  split
  · exact printed_nil
  · have hsub : List.Sublist ((padded 9 nanos).reverse.dropWhile (· == zero)).reverse
        (padded 9 nanos) :=
      List.reverse_sublist.mp (by
        rw [List.reverse_reverse]
        exact List.dropWhile_sublist _)
    exact printed_cons.mpr ⟨by decide, (printed_padded 9 nanos).sublist hsub⟩

theorem printed_text (d : Duration) : Printed d.text := by
  have hsign : Printed (if d.nanoseconds < 0 then [minus] else []) := by
    split <;> simp +decide
  unfold text
  simp only
  generalize (if d.nanoseconds < 0 then [minus] else []) = sign at hsign
  split
  · simp +decide
  · have hhours := printed_partText hsign (d.nanoseconds.natAbs / perSecond / 3600) 0x48
      (by decide)
    have hminutes := printed_partText hsign (d.nanoseconds.natAbs / perSecond % 3600 / 60)
      0x4D (by decide)
    have hseconds := printed_fractionText (d.nanoseconds.natAbs % perSecond)
    split <;> simp +decide [hsign, hhours, hminutes, hseconds]

end Duration

namespace Period

theorem printed_partText (n : Int) (unit : UInt8) (hunit : IsPrinted unit) :
    Printed (partText n unit) := by
  unfold partText
  split
  · exact printed_nil
  · simp [hunit]

theorem printed_text (p : Period) : Printed p.text := by
  have hyears := printed_partText p.years.val 0x59 (by decide)
  have hmonths := printed_partText p.months.val 0x4D (by decide)
  have hdays := printed_partText p.days.val 0x44 (by decide)
  unfold text
  split
  · simp +decide
  · simp +decide [hyears, hmonths, hdays]

end Period

theorem YearMonth.printed_text (m : YearMonth) : Printed m.text := by
  have hyear : Printed (yearText m.year.val) := by
    unfold yearText
    split <;> simp +decide
  simp +decide [text, hyear]

theorem ZoneId.printed_name (z : ZoneId) : Printed z.name := by
  have hvalid := z.valid
  rw [isName, Bool.and_eq_true, List.all_eq_true] at hvalid
  intro b hb
  have hadmits := hvalid.2 b hb
  simp only [admits, Bool.or_eq_true, List.contains_iff_mem] at hadmits
  rcases hadmits with (hletter | hdigit) | hmark
  · exact isPrinted_of_isLetter hletter
  · exact isPrinted_of_isDigit hdigit
  · have hmarks : Printed marks := by
      simp +decide [marks]
    exact hmarks b hmark

/-! The texts of dates and times hold nothing but digits and a few marks. -/

namespace ClockTime

/-- The bytes that stand between the digits of a date-time. -/
def marks : Bytes :=
  [0x54, 0x5A, plus, minus, colon, dot]

/-- A text of digits and of the marks between them. -/
def DigitsAndMarks (text : Bytes) : Prop :=
  ∀ b ∈ text, isDigit b = true ∨ b ∈ marks

@[simp]
theorem digitsAndMarks_nil : DigitsAndMarks [] := fun _ h => by cases h

@[simp]
theorem digitsAndMarks_cons {b : UInt8} {text : Bytes} :
    DigitsAndMarks (b :: text) ↔ (isDigit b = true ∨ b ∈ marks) ∧ DigitsAndMarks text :=
  List.forall_mem_cons

@[simp]
theorem digitsAndMarks_append {p q : Bytes} :
    DigitsAndMarks (p ++ q) ↔ DigitsAndMarks p ∧ DigitsAndMarks q :=
  List.forall_mem_append

@[simp]
theorem digitsAndMarks_padded (width n : Nat) : DigitsAndMarks (padded width n) :=
  fun b hb => .inl ((isDigits_padded width n).2 b hb)

theorem DigitsAndMarks.printed {text : Bytes} (h : DigitsAndMarks text) : Printed text := by
  have hmarks : Printed marks := by
    simp +decide [marks]
  exact fun b hb => (h b hb).elim isPrinted_of_isDigit (hmarks b)

theorem digitsAndMarks_yearText (year : Int) : DigitsAndMarks (yearText year) := by
  unfold yearText
  split
  · exact digitsAndMarks_padded _ _
  · refine digitsAndMarks_cons.mpr ⟨.inr ?_, digitsAndMarks_padded _ _⟩
    split <;> decide

theorem digitsAndMarks_fractionText (nanos : Nat) : DigitsAndMarks (fractionText nanos) := by
  unfold fractionText
  split
  · exact digitsAndMarks_nil
  · split
    · simp +decide
    · split <;> simp +decide

theorem digitsAndMarks_text (c : ClockTime) : DigitsAndMarks c.text := by
  simp +decide [text, digitsAndMarks_yearText, digitsAndMarks_fractionText]

end ClockTime

namespace OffsetDateTime

open ClockTime

theorem digitsAndMarks_offsetText (offset : Int) : DigitsAndMarks (offsetText offset) := by
  unfold offsetText
  split
  · simp +decide
  · simp only
    split <;> simp +decide

theorem digitsAndMarks_text (t : OffsetDateTime) : DigitsAndMarks t.text :=
  digitsAndMarks_append.mpr ⟨t.clock.digitsAndMarks_text, digitsAndMarks_offsetText t.offset⟩

theorem printed_text (t : OffsetDateTime) : Printed t.text :=
  t.digitsAndMarks_text.printed

/-- No other byte is part of the text of a date-time. -/
theorem notMem_text {b : UInt8} (hdigit : isDigit b = false) (hmark : b ∉ marks)
    (t : OffsetDateTime) : b ∉ t.text := by
  intro hb
  rcases t.digitsAndMarks_text b hb with h | h
  · rw [hdigit] at h
    cases h
  · exact hmark h

end OffsetDateTime

theorem ZonedDateTime.printed_text (t : ZonedDateTime) : Printed t.text := by
  refine printed_append.mpr ⟨t.dateTime.printed_text, ?_⟩
  cases t.zone with
  | none => exact printed_nil
  | some zone => simp +decide [zone.printed_name]

namespace TextForm

variable {α : Type} {form : TextForm α} {x : α}

/-- A text is written between two quotes, as it is. -/
theorem writes_text (form : TextForm α) (x : α) :
    (form.quoted.emit x).Writes (quote :: (form.text x ++ [quote])) :=
  ((Emission.writes_raw [quote]).append (Emission.writes_raw (form.text x))).append
    (Emission.writes_raw [quote])

/-- A plain text is the inside of a string. -/
theorem exists_quoted (h : Plain (form.text x)) :
    ∃ q : Quoted, Emission.Writes (form.quoted.emit x) q.text := by
  have hinside : Inside (form.text x) := by
    rw [← List.append_nil (form.text x)]
    exact (Escape.inside_append fun b hb => Escape.needed_eq_false_iff.mp (h b hb)).mpr .nil
  exact ⟨⟨form.text x, hinside⟩, form.writes_text x⟩

end TextForm

end FlatJson
