import Mathlib.Data.Nat.Digits.Defs
import FlatJson.Proofs.Number.Digits
import FlatJson.Proofs.Phases

/-!
# Integers in a text

A text is read as a member of an integer type if the type admits it as that integer
(`IntType.Admits`): it has digits, as many as there may be, and a minus in front of them
at most where the type has a sign. Every other text is refused, and what it is refused
for is the first that applies of these: it begins as a hexadecimal number does, it is no
number literal, it has the mark of a fraction or of an exponent, it is too large for the
type (`Scalar.parseInteger_exact`).
-/

namespace FlatJson

open Ascii Grammar

/-- The number of a run of digits, where each digit counts ten times as much as it would
one place further on. -/
def Ascii.decimal (ds : Bytes) : ℕ :=
  Nat.ofDigits 10 (ds.reverse.map digitValue)

theorem Ascii.numeral_eq_decimal (ds : Bytes) : numeral ds = decimal ds := by
  induction ds using List.reverseRecOn with
  | nil => rfl
  | append_singleton ds b ih =>
      rw [numeral_append_singleton, ih, decimal, decimal, List.reverse_append,
        List.reverse_singleton, List.singleton_append, List.map_cons, Nat.ofDigits_cons,
        Nat.add_comm]

/-- A run of digits denotes less than the power of ten with as many zeros. -/
theorem Ascii.decimal_lt {ds : Bytes} (h : ∀ b ∈ ds, isDigit b = true) :
    decimal ds < 10 ^ ds.length := by
  have hdigits : ∀ n ∈ ds.reverse.map digitValue, n < 10 := by
    intro n hn
    obtain ⟨b, hb, rfl⟩ := List.mem_map.mp hn
    have hdigit := h b (List.mem_reverse.mp hb)
    simp only [isDigit, UInt8.le_iff_toNat_le, Bool.and_eq_true, decide_eq_true_eq,
      UInt8.reduceToNat] at hdigit
    rw [digitValue]
    omega
  simpa [decimal] using Nat.ofDigits_lt_base_pow_length (by decide) hdigits

namespace Literal

/-- A text is a number literal, from its first byte to its last. -/
def IsNumber (text : Bytes) : Prop :=
  ∃ l : Literal, l.WellFormed ∧ text = l.text

theorem ofText?_eq_some_iff {text : Bytes} {l : Literal} :
    ofText? text = some l ↔ l.WellFormed ∧ text = l.text := by
  constructor
  · intro h
    unfold ofText? at h
    split at h
    · next hscan =>
        cases h
        obtain ⟨hwell, htext, -⟩ := scan_eq_ok_iff.mp hscan
        exact ⟨hwell, htext.trans (List.append_nil _)⟩
    · cases h
  · rintro ⟨hwell, rfl⟩
    exact ofText?_numeral ⟨l, hwell⟩

theorem ofText?_eq_none_iff {text : Bytes} : ofText? text = none ↔ ¬IsNumber text := by
  rw [Option.eq_none_iff_forall_ne_some, IsNumber, not_exists]
  exact forall_congr' fun l => not_congr ofText?_eq_some_iff

/-- A text begins as a hexadecimal number does, perhaps behind a minus. -/
def BeginsHexadecimal (text : Bytes) : Prop :=
  ∃ negative c rest, text = signText negative ++ zero :: c :: rest ∧ (c = 0x78 ∨ c = 0x58)

theorem looksHexadecimal_iff {text : Bytes} :
    looksHexadecimal text = true ↔ BeginsHexadecimal text := by
  constructor
  · intro h
    rcases hminus : scanMinus text with ⟨negative, rest⟩
    unfold looksHexadecimal at h
    rw [hminus] at h
    split at h
    · next b c left hrest =>
        simp only [Bool.and_eq_true, Bool.or_eq_true, beq_iff_eq] at h
        obtain ⟨rfl, hc⟩ := h
        exact ⟨negative, c, left, (scanMinus_eq hminus).trans (congrArg _ hrest), hc⟩
    · cases h
  · rintro ⟨negative, c, rest, rfl, hc⟩
    have hminus : NotAhead (· == minus) (zero :: c :: rest) := notAhead_cons.mpr (by decide)
    unfold looksHexadecimal
    rw [scanMinus_append fun _ => hminus]
    simpa using hc

/-- No number literal begins in this way. -/
theorem IsNumber.not_beginsHexadecimal {text : Bytes} (h : IsNumber text) :
    ¬BeginsHexadecimal text := by
  obtain ⟨l, hwell, rfl⟩ := h
  have hlooks := Scan.looksHexadecimal_append ⟨l, hwell⟩ Scan.delimited_nil
  rw [List.append_nil] at hlooks
  rw [← looksHexadecimal_iff, hlooks]
  exact Bool.false_ne_true

end Literal

open Literal

theorem IntType.ofInt?_eq_some_iff {t : IntType} {k : ℤ} {n : t.Member} :
    t.ofInt? k = some n ↔ n.val = k := by
  unfold ofInt?
  constructor
  · intro h
    split at h
    · cases h
      rfl
    · cases h
  · rintro rfl
    exact dif_pos n.property

/-- An integer type admits a text as an integer: the text has digits and, at most where
the type has a sign, a minus in front of them, and they denote the integer. -/
def IntType.Admits (t : IntType) (text : Bytes) (n : ℤ) : Prop :=
  ∃ negative ds, IsDigits ds ∧ text = signText negative ++ ds ∧
    (negative = true → t.isUnsigned = false) ∧
    n = if negative then -(decimal ds : ℤ) else decimal ds

namespace Literal

variable {t : IntType} {l : Literal}

/-- A literal without fraction and exponent is a sign and digits. -/
theorem text_of_isInteger (h : l.isInteger = true) :
    l.text = signText l.negative ++ l.whole := by
  simp only [isInteger, Bool.and_eq_true, Option.isNone_iff_eq_none] at h
  rw [text_eq, h.1, h.2]
  exact congrArg _ (List.append_nil _)

theorem member?_eq_some_iff {n : t.Member} :
    l.member? t = some n ↔
      (l.negative = true → t.isUnsigned = false) ∧ n.val = l.integer := by
  rw [member?]
  by_cases hsign : l.negative = true → t.isUnsigned = false
  · have hadmits : (t.isUnsigned && l.negative) = false := by
      cases hnegative : l.negative with
      | false => exact Bool.and_false _
      | true => rw [hsign hnegative]; rfl
    rw [if_neg (Bool.eq_false_iff.mp hadmits), IntType.ofInt?_eq_some_iff, and_iff_right hsign]
  · have hrefuses : (t.isUnsigned && l.negative) = true := by
      rw [Classical.not_imp, Bool.not_eq_false] at hsign
      rw [hsign.1, hsign.2, Bool.and_self]
    rw [if_pos hrefuses]
    exact iff_of_false (by rintro ⟨⟩) fun h => hsign h.1

/-- What denotes a member of a type is a text that the type admits as that member. -/
theorem admits_of_member? (hwell : l.WellFormed) (hinteger : l.isInteger = true) {n : t.Member}
    (h : l.member? t = some n) : t.Admits l.text n.val := by
  obtain ⟨hsign, hvalue⟩ := member?_eq_some_iff.mp h
  refine ⟨l.negative, l.whole, hwell.whole, text_of_isInteger hinteger, hsign, ?_⟩
  rw [hvalue, integer, numeral_eq_decimal]

/-- What a type admits is the text of a literal, and if the integer is a member of the
type, the literal denotes it. -/
theorem exists_of_admits {text : Bytes} {n : ℤ} (h : t.Admits text n) :
    ∃ l : Literal, l.WellFormed ∧ text = l.text ∧ l.isInteger = true ∧
      ∀ m : t.Member, m.val = n → l.member? t = some m := by
  obtain ⟨negative, ds, hds, rfl, hsign, rfl⟩ := h
  refine ⟨⟨negative, ds, none, none⟩, ⟨hds, by simp, by simp, by simp, by simp⟩, ?_, rfl, ?_⟩
  · exact (text_of_isInteger (l := ⟨negative, ds, none, none⟩) rfl).symm
  · intro m hm
    refine member?_eq_some_iff.mpr ⟨hsign, ?_⟩
    rw [hm, integer, numeral_eq_decimal]

end Literal

namespace Scalar

variable {t : IntType} {text : Bytes} {offset : ℕ}

theorem literal_of_beginsHexadecimal (h : BeginsHexadecimal text) :
    literal text offset = .error (.of .hexadecimal text offset) := by
  rw [literal, if_pos (looksHexadecimal_iff.mpr h)]

theorem literal_of_not_isNumber (hhex : ¬BeginsHexadecimal text) (h : ¬IsNumber text) :
    literal text offset = .error (.of .invalidNumber text offset) := by
  rw [literal, if_neg fun hlooks => hhex (looksHexadecimal_iff.mp hlooks),
    ofText?_eq_none_iff.mpr h]

/-- A text is refused as an integer for what it is refused for as a number. -/
theorem parseInteger_of_literal_error {fault : ReadFault} (h : literal text offset = .error fault) :
    parseInteger t text offset = .error fault := by
  rw [parseInteger, h]
  rfl

theorem parseInteger_of_admits {n : t.Member} (h : t.Admits text n.val) :
    parseInteger t text offset = .ok n := by
  obtain ⟨l, hwell, rfl, hinteger, hdenotes⟩ := exists_of_admits h
  have hparse := parseInteger_numeral t ⟨l, hwell⟩ offset
  rw [hinteger, hdenotes n rfl] at hparse
  exact hparse

/-- What can come of reading a text as an integer, and of which texts. -/
inductive IntegerOutcome (t : IntType) (text : Bytes) (offset : ℕ) :
    Except ReadFault t.Member → Prop
  | hexadecimal : BeginsHexadecimal text →
      IntegerOutcome t text offset (.error (.of .hexadecimal text offset))
  | invalid : ¬BeginsHexadecimal text → ¬IsNumber text →
      IntegerOutcome t text offset (.error (.of .invalidNumber text offset))
  | marked : IsNumber text → HasMark text →
      IntegerOutcome t text offset (.error (.of .expectedInteger text offset))
  | excessive : IsNumber text → ¬HasMark text → (∀ n : t.Member, ¬t.Admits text n.val) →
      IntegerOutcome t text offset (.error (.of .integerOutOfRange text offset))
  | member {n : t.Member} : IsNumber text → ¬HasMark text → t.Admits text n.val →
      IntegerOutcome t text offset (.ok n)

/-- A number literal is read as an integer, or refused for its mark or its size. -/
theorem integerOutcome_of_isNumber (t : IntType) (offset : ℕ) (h : IsNumber text) :
    IntegerOutcome t text offset (parseInteger t text offset) := by
  obtain ⟨l, hwell, rfl⟩ := h
  have hmark := hasMark_iff hwell
  have hparse := parseInteger_numeral t ⟨l, hwell⟩ offset
  cases hinteger : l.isInteger with
  | false =>
      rw [hinteger] at hparse hmark
      rw [hparse]
      exact .marked ⟨l, hwell, rfl⟩ (hmark.mpr rfl)
  | true =>
      rw [hinteger] at hparse hmark
      have hplain : ¬HasMark l.text := fun h => by cases hmark.mp h
      cases hmember : l.member? t with
      | some n =>
          rw [hmember] at hparse
          rw [hparse]
          exact .member ⟨l, hwell, rfl⟩ hplain (admits_of_member? hwell hinteger hmember)
      | none =>
          rw [hmember] at hparse
          have hnone (n : t.Member) : ¬t.Admits l.text n.val := fun hadmits => by
            rw [parseInteger_of_admits hadmits] at hparse
            cases hparse
          rw [hparse]
          exact .excessive ⟨l, hwell, rfl⟩ hplain hnone

theorem integerOutcome (t : IntType) (text : Bytes) (offset : ℕ) :
    IntegerOutcome t text offset (parseInteger t text offset) := by
  by_cases hhex : BeginsHexadecimal text
  · rw [parseInteger_of_literal_error (literal_of_beginsHexadecimal hhex)]
    exact .hexadecimal hhex
  by_cases hnumber : IsNumber text
  · exact integerOutcome_of_isNumber t offset hnumber
  · rw [parseInteger_of_literal_error (literal_of_not_isNumber hhex hnumber)]
    exact .invalid hhex hnumber

theorem parseInteger_eq_ok_iff {n : t.Member} :
    parseInteger t text offset = .ok n ↔ t.Admits text n.val := by
  refine ⟨fun h => ?_, parseInteger_of_admits⟩
  have houtcome := integerOutcome t text offset
  rw [h] at houtcome
  cases houtcome with
  | member _ _ hadmits => exact hadmits

/-- A text is read as a member of an integer type exactly if the type admits it as that
member. If it does not, the text is refused as a hexadecimal number if it begins as one,
as an invalid number if it is no number literal, as no integer if it has a mark, and
otherwise for its size. -/
theorem parseInteger_exact (t : IntType) (text : Bytes) (offset : ℕ) :
    (∀ n : t.Member, parseInteger t text offset = .ok n ↔ t.Admits text n.val) ∧
    (parseInteger t text offset = .error (.of .hexadecimal text offset) ↔
      BeginsHexadecimal text) ∧
    (parseInteger t text offset = .error (.of .invalidNumber text offset) ↔
      ¬BeginsHexadecimal text ∧ ¬IsNumber text) ∧
    (parseInteger t text offset = .error (.of .expectedInteger text offset) ↔
      ¬BeginsHexadecimal text ∧ IsNumber text ∧ HasMark text) ∧
    (parseInteger t text offset = .error (.of .integerOutOfRange text offset) ↔
      ¬BeginsHexadecimal text ∧ IsNumber text ∧ ¬HasMark text ∧
        ∀ n : t.Member, ¬t.Admits text n.val) := by
  refine ⟨fun n => parseInteger_eq_ok_iff, ?_⟩
  have houtcome := integerOutcome t text offset
  -- No text meets the conditions of two outcomes.
  generalize parseInteger t text offset = outcome at houtcome
  cases houtcome with
  | hexadecimal hhex => simp [ReadFault.of, hhex]
  | invalid hhex hnumber => simp [ReadFault.of, hhex, hnumber]
  | marked hnumber hmark =>
      simp [ReadFault.of, hnumber.not_beginsHexadecimal, hnumber, hmark]
  | excessive hnumber hmark hnone =>
      simp [ReadFault.of, hnumber.not_beginsHexadecimal, hnumber, hmark, hnone]
  | @member n hnumber hmark hadmits =>
      simpa [hnumber.not_beginsHexadecimal, hnumber, hmark] using ⟨n, hadmits⟩

end Scalar

end FlatJson
