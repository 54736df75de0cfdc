import FlatJson.Catalog.Signed
import FlatJson.Proofs.Number.Integer

/-!
# Amounts and their units

What durations and periods are spelled with: a heading, and amounts behind it, each with
the letter of its unit. An amount is a run of digits with a sign in front of it, if it has
one, and where a unit may stand in a text, the amount of that unit is taken off the text if
it is there and 64 bits hold it (`Component.take?_append_eq_some_iff`). Where it is not
there, what is there instead is left for a later unit (`Component.Absent`).
-/

namespace FlatJson

open Ascii

/-- The integers that a number of bits hold, one of which is for the sign. -/
def Within (bits : ℕ) (n : ℤ) : Prop :=
  -2 ^ (bits - 1) ≤ n ∧ n < 2 ^ (bits - 1)

instance (bits : ℕ) (n : ℤ) : Decidable (Within bits n) :=
  inferInstanceAs (Decidable (_ ∧ _))

theorem Within.mono {m n : ℕ} (hmn : m ≤ n) {k : ℤ} (h : Within m k) : Within n k := by
  have hpow : (2 : ℤ) ^ (m - 1) ≤ 2 ^ (n - 1) :=
    pow_le_pow_right₀ (by decide) (Nat.sub_le_sub_right hmn 1)
  exact ⟨(neg_le_neg hpow).trans h.1, h.2.trans_le hpow⟩

theorem IntType.signed_range {bits : ℕ} {n : ℤ} :
    (signed bits).least ≤ n ∧ n ≤ (signed bits).most ↔ Within bits n := by
  rw [least, most, Int.le_sub_one_iff]
  simp [Within]

theorem IntType.exists_member_iff {bits : ℕ} {n : ℤ} :
    (∃ k : (signed bits).Member, k.val = n) ↔ Within bits n := by
  constructor
  · rintro ⟨k, rfl⟩
    exact signed_range.mp k.property
  · intro h
    exact ⟨⟨n, signed_range.mpr h⟩, rfl⟩

theorem within64?_eq_some_iff {n m : ℤ} : within64? n = some m ↔ Within 64 n ∧ m = n := by
  rw [within64?]
  cases hmember : IntType.int64.ofInt? n with
  | some k =>
      have hk := IntType.ofInt?_eq_some_iff.mp hmember
      rw [and_iff_right (IntType.exists_member_iff.mp ⟨k, hk⟩), ← hk, eq_comm (a := m)]
      exact Option.some_inj
  | none =>
      refine iff_of_false (by rintro ⟨⟩) fun hfits => ?_
      obtain ⟨k, hk⟩ := IntType.exists_member_iff.mpr hfits.1
      rw [IntType.ofInt?_eq_some_iff.mpr hk] at hmember
      cases hmember

instance (ds : Bytes) : Decidable (IsDigits ds) :=
  decidable_of_iff (ds ≠ [] ∧ ds.all isDigit = true) (and_congr_right' List.all_eq_true)

/-! Signs. -/

namespace Grammar

/-- A sign in front of a number, or none. -/
inductive Sign
  | absent
  | plus
  | minus
  deriving DecidableEq

namespace Sign

def byte? : Sign → Option UInt8
  | absent => none
  | plus => some Ascii.plus
  | minus => some Ascii.minus

/-- What a sign derives. -/
def text (s : Sign) : Bytes :=
  s.byte?.toList

/-- What the sign makes of one. -/
def factor : Sign → ℤ
  | absent | plus => 1
  | minus => -1

theorem factor_eq (s : Sign) : s.factor = 1 ∨ s.factor = -1 := by
  cases s <;> simp [factor]

/-- The sign that an integer is written with. -/
def ofInt (n : ℤ) : Sign :=
  if n < 0 then minus else absent

theorem factor_ofInt_mul (n : ℤ) : (ofInt n).factor * n.natAbs = n := by
  unfold ofInt
  split
  · rw [factor, neg_one_mul]
    omega
  · rw [factor, one_mul]
    omega

theorem text_ofInt (n : ℤ) : (ofInt n).text = if n < 0 then [Ascii.minus] else [] := by
  unfold ofInt
  split <;> rfl

/-- A sign counts as negative if it is a minus. -/
theorem byte?_beq_minus (s : Sign) : (s.byte? == some Ascii.minus) = decide (s = minus) := by
  cases s <;> rfl

theorem byte?_isSign (s : Sign) : ∀ b ∈ s.byte?, b = Ascii.plus ∨ b = Ascii.minus := by
  cases s <;> simp [byte?]

theorem scanSign_text (s : Sign) {rest : Bytes}
    (hrest : NotAhead (fun b => b == Ascii.plus || b == Ascii.minus) rest) :
    Literal.scanSign (s.text ++ rest) = (s.byte?, rest) :=
  Literal.scanSign_append s.byte?_isSign fun _ => hrest

theorem exists_of_scanSign {bs rest : Bytes} {sign : Option UInt8}
    (h : Literal.scanSign bs = (sign, rest)) :
    ∃ s : Sign, sign = s.byte? ∧ bs = s.text ++ rest := by
  obtain ⟨rfl, hsign⟩ := Literal.scanSign_eq h
  cases sign with
  | none => exact ⟨absent, rfl, rfl⟩
  | some b =>
      rcases hsign b rfl with rfl | rfl
      · exact ⟨plus, rfl, rfl⟩
      · exact ⟨minus, rfl, rfl⟩

end Sign

/-! Amounts. -/

/-- Digits, perhaps with a sign in front of them. -/
structure Amount where
  sign : Sign
  digits : Bytes
  isDigits : IsDigits digits

namespace Amount

/-- What an amount derives. -/
def text (a : Amount) : Bytes :=
  a.sign.text ++ a.digits

/-- The integer that an amount denotes. -/
def value (a : Amount) : ℤ :=
  a.sign.factor * decimal a.digits

/-- The amount as it is scanned. -/
def signed (a : Amount) : Signed :=
  ⟨a.sign.byte?, a.digits⟩

theorem isNegative_signed (a : Amount) : a.signed.isNegative = decide (a.sign = .minus) :=
  a.sign.byte?_beq_minus

theorem value_signed (a : Amount) : a.signed.value = a.value := by
  rw [Signed.value, isNegative_signed, value, ← numeral_eq_decimal]
  cases a.sign <;> simp [Sign.factor, signed]

/-- Zero, as one digit. -/
def zero : Amount :=
  ⟨.absent, [Ascii.zero], isDigits_zero⟩

/-- The amount of a number, with a sign of its own. -/
def ofNat (sign : Sign) (n : ℕ) : Amount :=
  ⟨sign, Ascii.digits n, isDigits_digits n⟩

theorem value_ofNat (sign : Sign) (n : ℕ) : (ofNat sign n).value = sign.factor * n := by
  rw [value, ofNat, ← numeral_eq_decimal, numeral_digits]

/-- With the sign of an integer, that is the integer as it is written. -/
theorem text_ofNat_ofInt (n : ℤ) : (ofNat (.ofInt n) n.natAbs).text = integer n := by
  rw [text, ofNat, Sign.text_ofInt, integer]
  split <;> rfl

theorem scan?_text (a : Amount) {rest : Bytes} (hrest : NotAhead isDigit rest) :
    Signed.scan? (a.text ++ rest) = some (a.signed, rest) := by
  have hsign : Literal.scanSign (a.text ++ rest) = (a.sign.byte?, a.digits ++ rest) := by
    rw [text, List.append_assoc]
    exact a.sign.scanSign_text (Literal.notAhead_sign_of_isDigits a.isDigits)
  obtain ⟨d, ds, hds, -⟩ := a.isDigits.exists_cons
  simp only [Signed.scan?, hsign, signed]
  rw [List.takeWhile_append_of_pos a.isDigits.2, List.dropWhile_append_of_pos a.isDigits.2,
    takeWhile_of_notAhead hrest, dropWhile_of_notAhead hrest, List.append_nil, hds]

theorem exists_of_scan? {text rest : Bytes} {x : Signed} (h : Signed.scan? text = some (x, rest)) :
    ∃ a : Amount, x = a.signed ∧ text = a.text ++ rest ∧ NotAhead isDigit rest := by
  unfold Signed.scan? at h
  rcases hscan : Literal.scanSign text with ⟨sign, unsigned⟩
  obtain ⟨s, rfl, rfl⟩ := Sign.exists_of_scanSign hscan
  simp only [hscan] at h
  split at h
  · cases h
  · next hne =>
      cases h
      refine ⟨⟨s, unsigned.takeWhile isDigit, hne, fun b hb => List.mem_takeWhile_imp hb⟩, rfl,
        ?_, notAhead_dropWhile isDigit unsigned⟩
      rw [Amount.text, List.append_assoc, List.takeWhile_append_dropWhile]

/-- A text without a digit behind the sign at its front does not begin with an amount. -/
theorem scan?_eq_none {text : Bytes}
    (h : NotAhead (fun b => isDigit b || b == Ascii.plus || b == Ascii.minus) text) :
    Signed.scan? text = none := by
  cases hscan : Signed.scan? text with
  | none => rfl
  | some found =>
      obtain ⟨a, -, rfl, -⟩ := exists_of_scan? hscan
      obtain ⟨d, ds, hds, hd⟩ := a.isDigits.exists_cons
      cases hsign : a.sign <;>
        simp [Amount.text, hsign, hds, hd, Sign.text, Sign.byte?, notAhead_cons] at h

end Amount

/-- The integer that an amount denotes, or zero in place of an amount. -/
def valueOf (x : Option Amount) : ℤ :=
  x.elim 0 Amount.value

/-- An amount with the letter of its unit, or nothing. -/
def componentText (unit : UInt8) (x : Option Amount) : Bytes :=
  x.elim [] fun a => a.text ++ [unit]

@[simp]
theorem valueOf_none : valueOf none = 0 :=
  rfl

@[simp]
theorem componentText_none (unit : UInt8) : componentText unit none = [] :=
  rfl

theorem valueOf_eq_getD (x : Option Amount) : valueOf x = (x.map Amount.value).getD 0 := by
  cases x <;> rfl

/-- The amount of a number, or nothing in place of zero. -/
def amountOf (sign : Sign) (n : ℕ) : Option Amount :=
  if n = 0 then none else some (.ofNat sign n)

theorem valueOf_amountOf (sign : Sign) (n : ℕ) : valueOf (amountOf sign n) = sign.factor * n := by
  unfold amountOf
  split
  · next hn => simp [valueOf, hn]
  · exact Amount.value_ofNat sign n

theorem isSome_amountOf {sign : Sign} {n : ℕ} : (amountOf sign n).isSome = true ↔ n ≠ 0 := by
  unfold amountOf
  split <;> simp [*]

end Grammar

open Grammar

/-! Components. -/

namespace Component

variable {unit : UInt8} {text rest : Bytes}

/-- 64 bits hold the amount, if it is there. -/
def Fits (x : Option Amount) : Prop :=
  Within 64 (valueOf x)

instance (x : Option Amount) : Decidable (Fits x) :=
  inferInstanceAs (Decidable (Within 64 _))

theorem fits_none : Fits none := by
  decide

/-- At the front of a text there is no amount of a unit. -/
def Absent (unit : UInt8) (text : Bytes) : Prop :=
  scan unit text = .absent

theorem absent_of_scan? (h : Signed.scan? text = none) : Absent unit text := by
  rw [Absent, scan, h]

theorem absent_nil : Absent unit [] :=
  absent_of_scan? rfl

theorem absent_cons {b : UInt8} (h : (isDigit b || b == plus || b == minus) = false) :
    Absent unit (b :: rest) :=
  absent_of_scan? (Amount.scan?_eq_none (notAhead_cons.mpr h))

/-- What follows the amount is not the letter of the unit. -/
theorem absent_amount (a : Amount) {b : UInt8} (hb : isDigit b = false) (hne : b ≠ unit) :
    Absent unit (a.text ++ b :: rest) := by
  rw [Absent, scan, a.scan?_text (notAhead_cons.mpr hb)]
  exact if_neg fun h => hne (beq_iff_eq.mp h)

/-- Amounts of other units make no difference. -/
theorem Absent.component (h : Absent unit rest) {other : UInt8} (hother : isDigit other = false)
    (hne : other ≠ unit) (x : Option Amount) : Absent unit (componentText other x ++ rest) := by
  cases x with
  | none => exact h
  | some a =>
      rw [componentText, Option.elim_some, List.append_assoc, List.singleton_append]
      exact absent_amount a hother hne

theorem take?_append (hunit : isDigit unit = false) (x : Option Amount) (h : Absent unit rest) :
    take? unit (componentText unit x ++ rest) =
      if Fits x then some (x.map Amount.value, rest) else none := by
  cases x with
  | none =>
      have hscan : scan unit (componentText unit none ++ rest) = .absent := h
      rw [take?, hscan, if_pos fits_none]
      rfl
  | some a =>
      have htext : componentText unit (some a) ++ rest = a.text ++ unit :: rest := by
        rw [componentText, Option.elim_some, List.append_assoc, List.singleton_append]
      have hfound := a.scan?_text (notAhead_cons.mpr hunit : NotAhead isDigit (unit :: rest))
      rw [htext]
      by_cases hfits : Fits (some a)
      · have hsome : within64? a.value = some a.value := within64?_eq_some_iff.mpr ⟨hfits, rfl⟩
        have hscan : scan unit (a.text ++ unit :: rest) = .present a.value rest := by
          simp [scan, hfound, a.value_signed, hsome]
        rw [take?, hscan, if_pos hfits]
        rfl
      · have hnone : within64? a.value = none := Option.eq_none_iff_forall_ne_some.mpr
          fun n hn => hfits (within64?_eq_some_iff.mp hn).1
        have hscan : scan unit (a.text ++ unit :: rest) = .excessive := by
          simp [scan, hfound, a.value_signed, hnone]
        rw [take?, hscan, if_neg hfits]

/-- What comes of a text with an amount of a unit at its front comes of the text behind it. -/
theorem take?_bind_eq_some_iff {β : Type} (hunit : isDigit unit = false) {x : Option Amount}
    (h : Absent unit rest) {next : Option ℤ × Bytes → Option β} {y : β} :
    (take? unit (componentText unit x ++ rest) >>= next) = some y ↔
      Fits x ∧ next (x.map Amount.value, rest) = some y := by
  rw [take?_append hunit x h]
  by_cases hfits : Fits x
  · rw [if_pos hfits, and_iff_right hfits]
    rfl
  · rw [if_neg hfits]
    exact iff_of_false (by rintro ⟨⟩) fun hboth => hfits hboth.1

/-- What is taken off the front of a text is an amount of the unit, or nothing. -/
theorem exists_of_take? {v : Option ℤ} (h : take? unit text = some (v, rest)) :
    ∃ x : Option Amount, text = componentText unit x ++ rest ∧ v = x.map Amount.value := by
  unfold take? at h
  split at h
  · cases h
    exact ⟨none, rfl, rfl⟩
  · next n left hscan =>
      cases h
      unfold scan at hscan
      split at hscan
      · cases hscan
      · next hfound =>
          obtain ⟨a, rfl, rfl, -⟩ := Amount.exists_of_scan? hfound
          split at hscan
          · cases hscan
          · split at hscan
            · next hletter =>
                split at hscan
                · next hwithin =>
                    cases hscan
                    obtain rfl := beq_iff_eq.mp hletter
                    obtain ⟨-, rfl⟩ := within64?_eq_some_iff.mp hwithin
                    refine ⟨some a, ?_, congrArg some a.value_signed⟩
                    simp [componentText]
                · cases hscan
            · cases hscan
  · cases h

end Component

/-! Headings. -/

theorem takeLetter?_eq_some_iff {upper lower : UInt8} {text rest : Bytes} :
    takeLetter? upper lower text = some rest ↔ ∃ b, (b = upper ∨ b = lower) ∧ text = b :: rest := by
  cases text with
  | nil => simp [takeLetter?]
  | cons b text =>
      rw [takeLetter?]
      constructor
      · intro h
        split at h
        · next hb =>
            cases h
            exact ⟨b, by simpa using hb, rfl⟩
        · cases h
      · rintro ⟨c, hc, ⟨⟩⟩
        exact if_pos (by simpa using hc)

namespace Grammar

/-- What durations and periods begin with: a sign, and their letter in either case. -/
structure Heading where
  sign : Sign
  letter : UInt8
  isLetter : letter = 0x50 ∨ letter = 0x70

namespace Heading

/-- What a heading derives. -/
def text (h : Heading) : Bytes :=
  h.sign.text ++ [h.letter]

/-- The heading without a sign. -/
def plain : Heading :=
  ⟨.absent, 0x50, .inl rfl⟩

theorem takeOuterSign_text (h : Heading) (rest : Bytes) :
    takeOuterSign (h.text ++ rest) = (decide (h.sign = .minus), h.letter :: rest) := by
  have hletter : NotAhead (fun b => b == plus || b == minus) (h.letter :: rest) := by
    rw [notAhead_cons]
    rcases h.isLetter with hletter | hletter <;> rw [hletter] <;> decide
  rw [takeOuterSign, text, List.append_assoc, List.singleton_append, h.sign.scanSign_text hletter,
    ← h.sign.byte?_beq_minus]

theorem takeLetter?_letter (h : Heading) (rest : Bytes) :
    takeLetter? 0x50 0x70 (h.letter :: rest) = some rest :=
  takeLetter?_eq_some_iff.mpr ⟨h.letter, h.isLetter, rfl⟩

theorem exists_of_take {text rest : Bytes}
    (h : takeLetter? 0x50 0x70 (takeOuterSign text).2 = some rest) :
    ∃ g : Heading, text = g.text ++ rest := by
  obtain ⟨b, hb, hrest⟩ := takeLetter?_eq_some_iff.mp h
  obtain ⟨s, -, htext⟩ := @Sign.exists_of_scanSign text _ _ rfl
  have hunsigned : (Literal.scanSign text).2 = b :: rest := hrest
  refine ⟨⟨s, b, hb⟩, ?_⟩
  rw [Heading.text, List.append_assoc, List.singleton_append, ← hunsigned]
  exact htext

end Heading

end Grammar

end FlatJson
