import FlatJson.Catalog.YearMonth
import FlatJson.Proofs.Catalog.Signed
import FlatJson.Proofs.Catalog.Strings

/-!
# Year-months as they are spelled

A text is parsed as a year-month if it is an amount of four digits or more, a dash and two
digits (`YearMonth.Spelling`), and the amount is a year of 32 bits and the two digits are
one of the twelve months (`YearMonth.Spelling.Fits`). The text of a year-month is one of
those (`YearMonth.exists_spelling_text`), the same for all that spell the month.
-/

namespace FlatJson

open Ascii Grammar

namespace YearMonth

/-- A text that spells a year-month: a year, and behind a dash a month. -/
structure Spelling where
  year : Amount
  month : Bytes
  long : 4 ≤ year.digits.length
  digits : ∀ b ∈ month, isDigit b = true
  two : month.length = 2

namespace Spelling

/-- What a spelling derives. The dash is the byte of a minus. -/
def text (s : Spelling) : Bytes :=
  s.year.text ++ minus :: s.month

/-- A spelling spells a year-month. -/
def Spells (s : Spelling) (m : YearMonth) : Prop :=
  m.year.val = s.year.value ∧ m.month = decimal s.month

/-- There is such a year, and there is such a month. -/
def Fits (s : Spelling) : Prop :=
  Within 32 s.year.value ∧ 1 ≤ decimal s.month ∧ decimal s.month ≤ 12

instance (s : Spelling) : Decidable s.Fits :=
  inferInstanceAs (Decidable (_ ∧ _))

theorem fits_iff {s : Spelling} : s.Fits ↔ ∃ m, s.Spells m := by
  constructor
  · rintro ⟨hyear, hmonth⟩
    obtain ⟨year, hvalue⟩ := IntType.exists_member_iff.mpr hyear
    exact ⟨⟨year, _, hmonth⟩, hvalue, rfl⟩
  · rintro ⟨m, hyear, hmonth⟩
    exact ⟨IntType.exists_member_iff.mp ⟨m.year, hyear⟩, hmonth ▸ m.isMonth⟩

end Spelling

theorem eq_iff {m n : YearMonth} : m = n ↔ m.year.val = n.year.val ∧ m.month = n.month := by
  obtain ⟨year, month, _⟩ := m
  obtain ⟨year', month', _⟩ := n
  rw [YearMonth.mk.injEq]
  exact and_congr_left' Subtype.ext_iff

theorem ofParts?_eq_some_iff {year : ℤ} {month : ℕ} {m : YearMonth} :
    ofParts? year month = some m ↔ m.year.val = year ∧ m.month = month := by
  simp only [ofParts?, bind, Option.bind_eq_some_iff, IntType.ofInt?_eq_some_iff]
  constructor
  · rintro ⟨y, rfl, h⟩
    split at h
    · cases h
      exact ⟨rfl, rfl⟩
    · cases h
  · rintro ⟨rfl, rfl⟩
    exact ⟨m.year, rfl, dif_pos m.isMonth⟩

theorem year?_eq_some_iff {text : Bytes} {n : ℤ} :
    year? text = some n ↔ ∃ a : Amount, a.text = text ∧ 4 ≤ a.digits.length ∧ a.value = n := by
  constructor
  · intro h
    unfold year? at h
    split at h
    · next year hscan =>
        obtain ⟨a, rfl, rfl, -⟩ := Amount.exists_of_scan? hscan
        split at h
        · next hlong =>
            cases h
            exact ⟨a, (List.append_nil _).symm, hlong, a.value_signed.symm⟩
        · cases h
    · cases h
  · rintro ⟨a, rfl, hlong, rfl⟩
    have hscan : Signed.scan? a.text = some (a.signed, []) := by
      simpa using a.scan?_text (notAhead_nil isDigit)
    rw [year?, hscan]
    exact (if_pos hlong).trans (congrArg some a.value_signed)

/-- The text is taken apart from its end, where the month is. -/
theorem ofText?_append (year : Bytes) (a b : UInt8) :
    ofText? (year ++ [minus, a, b]) = if isDigit a && isDigit b then
      (year? year).bind fun y => ofParts? y (numeral [a, b]) else none := by
  have hreverse : (year ++ [minus, a, b]).reverse = b :: a :: minus :: year.reverse := by
    simp
  rw [ofText?, hreverse]
  simp

/-- A spelling is parsed as what it spells. -/
theorem Spelling.ofText?_text_eq_some_iff (s : Spelling) {m : YearMonth} :
    ofText? s.text = some m ↔ s.Spells m := by
  obtain ⟨a, b, hab⟩ := List.length_eq_two.mp s.two
  have hdigits : (isDigit a && isDigit b) = true := by
    have hall := s.digits
    rw [hab] at hall
    simpa using hall
  have hyear : year? s.year.text = some s.year.value :=
    year?_eq_some_iff.mpr ⟨s.year, rfl, s.long, rfl⟩
  rw [Spells, hab, ← numeral_eq_decimal, ← ofParts?_eq_some_iff, text, hab, ofText?_append,
    if_pos hdigits, hyear, Option.bind_some]

/-- What is parsed as a year-month is spelled as one. -/
theorem exists_spelling {text : Bytes} {m : YearMonth} (h : ofText? text = some m) :
    ∃ s : Spelling, s.text = text := by
  unfold ofText? at h
  split at h
  · next b a dash year hreverse =>
      split at h
      · next hbytes =>
          simp only [Bool.and_eq_true, beq_iff_eq] at hbytes
          obtain ⟨⟨rfl, ha⟩, hb⟩ := hbytes
          obtain ⟨_, hyear, -⟩ := Option.bind_eq_some_iff.mp h
          obtain ⟨y, hy, hlong, -⟩ := year?_eq_some_iff.mp hyear
          refine ⟨⟨y, [a, b], hlong, by simp [ha, hb], rfl⟩, ?_⟩
          rw [Spelling.text, hy, ← List.reverse_reverse text, hreverse]
          simp
      · cases h
  · cases h

/-- The text of a year-month spells it, with no more digits than it takes. -/
theorem exists_spelling_text (m : YearMonth) : ∃ s : Spelling, s.text = m.text ∧ s.Spells m := by
  let year : Amount := ⟨.ofInt m.year.val, padded 4 m.year.val.natAbs, isDigits_padded _ _⟩
  have hlong : 4 ≤ year.digits.length := by
    show 4 ≤ (padded 4 _).length
    rw [length_padded]
    exact le_max_left _ _
  have htwo : (padded 2 m.month).length = 2 := by
    have hmonth : m.month < 10 ^ 2 := m.isMonth.2.trans_lt (by decide)
    rw [length_padded, max_eq_left (length_digits_le (by decide) hmonth)]
  have hyear : m.year.val = year.value := by
    rw [Amount.value, ← numeral_eq_decimal, numeral_padded, Sign.factor_ofInt_mul]
  refine ⟨⟨year, padded 2 m.month, hlong, (isDigits_padded _ _).2, htwo⟩, ?_, hyear, ?_⟩
  · rw [Spelling.text, Amount.text, Sign.text_ofInt]
    rfl
  · rw [← numeral_eq_decimal, numeral_padded]

theorem ofText?_text (m : YearMonth) : ofText? m.text = some m := by
  obtain ⟨s, hs, hspells⟩ := m.exists_spelling_text
  rw [← hs]
  exact s.ofText?_text_eq_some_iff.mpr hspells

/-- No two year-months are displayed alike. -/
theorem display_injective : Function.Injective form.display := by
  have hparse (m : YearMonth) : form.parse? (form.display m) = some m :=
    (TextForm.parse?_display m.printed_text).trans m.ofText?_text
  intro m n hdisplay
  have hsame := congrArg form.parse? hdisplay
  rwa [hparse, hparse, Option.some_inj] at hsame

/-- Every year-month is parsed from its text, and read from the string that is written of
it. A text is accepted if it spells a year of 32 bits and one of the twelve months, and
then as what it spells, so that texts are displayed alike if they spell one month of one
year, and only then. -/
theorem text_canonical :
    (∀ m : YearMonth, form.RoundTrips m) ∧
    (∀ text, (ofText? text).isSome = true ↔ ∃ s : Spelling, s.text = text ∧ s.Fits) ∧
    (∀ (s : Spelling) (m : YearMonth), ofText? s.text = some m →
      m.year.val = s.year.value ∧ m.month = decimal s.month) ∧
    ∀ (s t : Spelling) (m n : YearMonth), ofText? s.text = some m → ofText? t.text = some n →
      (form.display m = form.display n ↔
        s.year.value = t.year.value ∧ decimal s.month = decimal t.month) := by
  refine ⟨fun m => TextForm.roundTrips_of_parse m.printed_text m.ofText?_text, fun text => ?_,
    fun s m hs => s.ofText?_text_eq_some_iff.mp hs, fun s t m n hs ht => ?_⟩
  · rw [Option.isSome_iff_exists]
    constructor
    · rintro ⟨m, hm⟩
      obtain ⟨s, rfl⟩ := exists_spelling hm
      exact ⟨s, rfl, Spelling.fits_iff.mpr ⟨m, s.ofText?_text_eq_some_iff.mp hm⟩⟩
    · rintro ⟨s, rfl, hfits⟩
      obtain ⟨m, hm⟩ := Spelling.fits_iff.mp hfits
      exact ⟨m, s.ofText?_text_eq_some_iff.mpr hm⟩
  · obtain ⟨hyear, hmonth⟩ := s.ofText?_text_eq_some_iff.mp hs
    obtain ⟨hyear', hmonth'⟩ := t.ofText?_text_eq_some_iff.mp ht
    rw [display_injective.eq_iff, eq_iff, hyear, hyear', hmonth, hmonth']

/-- The texts `+00987-05` and `0987-05`. -/
theorem text_canonical_zeros :
    ∃ m n : YearMonth, ofText? [0x2B, 0x30, 0x30, 0x39, 0x38, 0x37, 0x2D, 0x30, 0x35] = some m ∧
      ofText? [0x30, 0x39, 0x38, 0x37, 0x2D, 0x30, 0x35] = some n ∧ m.year.val = 987 ∧
      m.month = 5 ∧ form.display m = form.display n := by
  let s : Spelling := ⟨⟨.plus, [0x30, 0x30, 0x39, 0x38, 0x37], by decide⟩, [0x30, 0x35],
    by decide, List.all_eq_true.mp rfl, rfl⟩
  let t : Spelling := ⟨⟨.absent, [0x30, 0x39, 0x38, 0x37], by decide⟩, [0x30, 0x35],
    by decide, List.all_eq_true.mp rfl, rfl⟩
  obtain ⟨m, hm⟩ := Option.isSome_iff_exists.mp
    ((text_canonical.2.1 s.text).mpr ⟨s, rfl, by decide⟩)
  obtain ⟨n, hn⟩ := Option.isSome_iff_exists.mp
    ((text_canonical.2.1 t.text).mpr ⟨t, rfl, by decide⟩)
  obtain ⟨hyear, hmonth⟩ := text_canonical.2.2.1 s m hm
  exact ⟨m, n, hm, hn, hyear.trans (by decide), hmonth.trans (by decide),
    (text_canonical.2.2.2 s t m n hm hn).mpr (by decide)⟩

end YearMonth

end FlatJson
