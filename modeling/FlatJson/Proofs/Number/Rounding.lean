import Mathlib.Algebra.Order.Floor.Semifield
import Mathlib.Data.Int.Log
import Mathlib.Data.Rat.Floor
import Mathlib.Tactic.Linarith
import Mathlib.Tactic.Positivity
import Mathlib.Tactic.Ring
import FlatJson.Number.Decimal

/-!
# Rounding as a function of the number

`Format.round` works on ratios of naturals and `Decimal.magnitude` on a
coefficient and a power of ten. Both depend on the rational number alone that
they are given in this form: they are `Format.roundTo` of it. The two guards of
`Decimal.magnitude` agree with that, since what is past the exponents of the
format is rounded to infinity and to zero.

A number of the format is rounded to itself.
-/

namespace FlatJson

namespace Ratio

variable {base num den : ℕ}

theorem dividePower_fst_pos (hbase : 0 < base) (hnum : 0 < num) (e : ℤ) :
    0 < (dividePower base num den e).1 := by
  unfold dividePower
  split
  · exact hnum
  · exact Nat.mul_pos hnum (Nat.pow_pos hbase)

theorem dividePower_snd_pos (hbase : 0 < base) (hden : 0 < den) (e : ℤ) :
    0 < (dividePower base num den e).2 := by
  unfold dividePower
  split
  · exact Nat.mul_pos hden (Nat.pow_pos hbase)
  · exact hden

theorem dividePower_eq (base num den : ℕ) (e : ℤ) :
    ((dividePower base num den e).1 : ℚ) / (dividePower base num den e).2 =
      num / den / (base : ℚ) ^ e := by
  unfold dividePower
  simp only [Nat.pow_eq]
  split
  · next he =>
      have hpow : (base : ℚ) ^ e = (base ^ e.toNat : ℕ) := by
        rw [Nat.cast_pow, ← zpow_natCast, Int.toNat_of_nonneg he]
      rw [hpow, div_div, ← Nat.cast_mul]
  · next he =>
      have hpow : (base : ℚ) ^ e = ((base ^ (-e).toNat : ℕ) : ℚ)⁻¹ := by
        rw [Nat.cast_pow, ← zpow_natCast, Int.toNat_of_nonneg (by omega), zpow_neg, inv_inv]
      rw [hpow, div_inv_eq_mul, div_mul_eq_mul_div, ← Nat.cast_mul]

end Ratio

namespace Format

open Ratio

/-- The integer nearest to a rational number, a tie going to the even one. -/
def nearestTo (q : ℚ) : ℕ :=
  let k := ⌊q⌋₊
  if 2 * (q - k) < 1 then k
  else if 1 < 2 * (q - k) then k + 1
  else if k % 2 = 0 then k
  else k + 1

/-- The magnitude nearest to a rational number above zero. -/
def roundTo (f : Format) (q : ℚ) : ℕ :=
  let e := max (Int.log 2 q - (f.precision - 1 : ℕ)) f.minExponent
  min ((e - f.minExponent).toNat * f.unit + nearestTo (q / 2 ^ e)) f.infinity

theorem unit_eq (f : Format) : f.unit = 2 ^ (f.precision - 1) := rfl

theorem two_zpow_pos (e : ℤ) : (0 : ℚ) < 2 ^ e :=
  zpow_pos two_pos e

theorem nearest_eq (num : ℕ) {den : ℕ} (hden : 0 < den) :
    nearest num den = nearestTo (num / den) := by
  have hpos : (0 : ℚ) < den := Nat.cast_pos.mpr hden
  have hfloor : ⌊(num : ℚ) / den⌋₊ = num / den := Nat.floor_div_eq_div num den
  have hrest : (num : ℚ) / den - (num / den : ℕ) = (num % den : ℕ) / den := by
    have hsplit : (num : ℚ) = den * (num / den : ℕ) + (num % den : ℕ) :=
      mod_cast (Nat.div_add_mod num den).symm
    rw [eq_div_iff hpos.ne', sub_mul, div_mul_cancel₀ _ hpos.ne']
    linarith
  have hbelow : 2 * ((num % den : ℕ) / den : ℚ) < 1 ↔ 2 * (num % den) < den := by
    rw [← mul_div_assoc, div_lt_one hpos]
    exact_mod_cast Iff.rfl
  have habove : 1 < 2 * ((num % den : ℕ) / den : ℚ) ↔ den < 2 * (num % den) := by
    rw [← mul_div_assoc, one_lt_div hpos]
    exact_mod_cast Iff.rfl
  simp only [nearest, nearestTo, hfloor, hrest, hbelow, habove]

theorem log_eq_iff {q : ℚ} (hq : 0 < q) {e : ℤ} :
    Int.log 2 q = e ↔ (2 : ℚ) ^ e ≤ q ∧ q < 2 ^ (e + 1) := by
  have hle : (2 : ℚ) ^ e ≤ q ↔ e ≤ Int.log 2 q := Int.zpow_le_iff_le_log Nat.one_lt_two hq
  have hlt : q < (2 : ℚ) ^ (e + 1) ↔ Int.log 2 q < e + 1 :=
    Int.lt_zpow_iff_log_lt Nat.one_lt_two hq
  rw [hle, hlt]
  omega

theorem floorLog2_eq {num den : ℕ} (hnum : 0 < num) (hden : 0 < den) :
    floorLog2 num den = Int.log 2 ((num : ℚ) / den) := by
  have hden' : (0 : ℚ) < den := Nat.cast_pos.mpr hden
  have hq : (0 : ℚ) < num / den := div_pos (Nat.cast_pos.mpr hnum) hden'
  have hnumLow : (2 : ℚ) ^ (Nat.log2 num : ℤ) ≤ num := by
    rw [zpow_natCast]
    exact_mod_cast Nat.log2_self_le hnum.ne'
  have hnumHigh : (num : ℚ) < 2 ^ ((Nat.log2 num : ℤ) + 1) := by
    have hlt : num < 2 ^ (Nat.log2 num + 1) := Nat.lt_log2_self
    rw [← Int.natCast_succ, zpow_natCast]
    exact_mod_cast hlt
  have hdenLow : (2 : ℚ) ^ (Nat.log2 den : ℤ) ≤ den := by
    rw [zpow_natCast]
    exact_mod_cast Nat.log2_self_le hden.ne'
  have hdenHigh : (den : ℚ) < 2 ^ ((Nat.log2 den : ℤ) + 1) := by
    have hlt : den < 2 ^ (Nat.log2 den + 1) := Nat.lt_log2_self
    rw [← Int.natCast_succ, zpow_natCast]
    exact_mod_cast hlt
  -- The quotient lies within a factor of two of `2 ^ (a - b)`, so that one comparison
  -- settles its logarithm.
  unfold floorLog2
  generalize (Nat.log2 num : ℤ) = a at *
  generalize (Nat.log2 den : ℤ) = b at *
  have htest : (dividePower 2 num den (a - b)).2 ≤ (dividePower 2 num den (a - b)).1 ↔
      (2 : ℚ) ^ (a - b) ≤ num / den := by
    have hpos : (0 : ℚ) < (dividePower 2 num den (a - b)).2 :=
      Nat.cast_pos.mpr (dividePower_snd_pos two_pos hden _)
    have hratio := dividePower_eq 2 num den (a - b)
    rw [Nat.cast_ofNat] at hratio
    rw [← one_le_div₀ (two_zpow_pos _), ← hratio, one_le_div₀ hpos, Nat.cast_le]
  have hhigh : (num : ℚ) / den < 2 ^ (a - b + 1) := by
    rw [div_lt_iff₀ hden']
    calc (num : ℚ) < 2 ^ (a + 1) := hnumHigh
      _ = 2 ^ (a - b + 1) * 2 ^ b := by rw [← zpow_add₀ two_ne_zero]; congr 1; ring
      _ ≤ 2 ^ (a - b + 1) * den := mul_le_mul_of_nonneg_left hdenLow (two_zpow_pos _).le
  have hlow : (2 : ℚ) ^ (a - b - 1) ≤ num / den := by
    rw [le_div_iff₀ hden']
    calc (2 : ℚ) ^ (a - b - 1) * den ≤ 2 ^ (a - b - 1) * 2 ^ (b + 1) :=
          mul_le_mul_of_nonneg_left hdenHigh.le (two_zpow_pos _).le
      _ = 2 ^ a := by rw [← zpow_add₀ two_ne_zero]; congr 1; ring
      _ ≤ num := hnumLow
  dsimp only
  symm
  split
  · next h => exact (log_eq_iff hq).mpr ⟨htest.mp h, hhigh⟩
  · next h =>
      rw [htest, not_le] at h
      exact (log_eq_iff hq).mpr ⟨hlow, by rwa [sub_add_cancel]⟩

/-- Rounding a ratio is rounding the number that it stands for. -/
theorem round_eq (f : Format) {num den : ℕ} (hnum : 0 < num) (hden : 0 < den) :
    f.round num den = f.roundTo (num / den) := by
  simp only [round, roundTo, floorLog2_eq hnum hden,
    nearest_eq _ (dividePower_snd_pos two_pos hden _), dividePower_eq, Nat.cast_ofNat]

theorem nearestTo_natCast (n : ℕ) : nearestTo (n : ℚ) = n := by
  simp [nearestTo]

theorem le_nearestTo {n : ℕ} {q : ℚ} (h : (n : ℚ) ≤ q) : n ≤ nearestTo q := by
  have hfloor : n ≤ ⌊q⌋₊ := Nat.le_floor h
  unfold nearestTo
  dsimp only
  split
  · exact hfloor
  · split
    · omega
    · split <;> omega

theorem nearestTo_of_lt_half {q : ℚ} (h : 2 * q < 1) : nearestTo q = 0 := by
  have hfloor : ⌊q⌋₊ = 0 := Nat.floor_eq_zero.mpr (by linarith)
  simp [nearestTo, hfloor, h]

/-- A format with one bit at least for each of its two parts. -/
structure Proper (f : Format) : Prop where
  precision_pos : 0 < f.precision
  exponentBits_pos : 0 < f.exponentBits

theorem binary64_proper : binary64.Proper := ⟨by decide, by decide⟩

theorem binary32_proper : binary32.Proper := ⟨by decide, by decide⟩

variable {f : Format}

theorem Proper.minExponent_eq (hf : f.Proper) :
    f.minExponent = 1 - f.bias - (f.precision - 1 : ℕ) := by
  have := hf.precision_pos
  unfold minExponent
  omega

theorem Proper.infinity_eq (hf : f.Proper) : f.infinity = (2 * f.bias + 1) * f.unit := by
  have hbits : 2 ^ f.exponentBits = 2 * 2 ^ (f.exponentBits - 1) := by
    rw [← pow_succ', Nat.sub_add_cancel hf.exponentBits_pos]
  have hpos : 0 < 2 ^ (f.exponentBits - 1) := Nat.pow_pos two_pos
  unfold infinity bias
  rw [Nat.pow_eq, Nat.pow_eq]
  congr 1
  omega

/-- A number past the exponents of a format is rounded to infinity. -/
theorem roundTo_of_le (hf : f.Proper) {q : ℚ} (hq : (2 : ℚ) ^ (f.bias + 1 : ℤ) ≤ q) :
    f.roundTo q = f.infinity := by
  have hpos : 0 < q := (two_zpow_pos _).trans_le hq
  have hlog : (f.bias : ℤ) + 1 ≤ Int.log 2 q := (Int.zpow_le_iff_le_log Nat.one_lt_two hpos).mp hq
  have hmax : max (Int.log 2 q - (f.precision - 1 : ℕ)) f.minExponent =
      Int.log 2 q - (f.precision - 1 : ℕ) := by
    rw [hf.minExponent_eq]
    omega
  have hunit : (f.unit : ℚ) ≤ q / 2 ^ (Int.log 2 q - (f.precision - 1 : ℕ)) := by
    rw [le_div_iff₀ (two_zpow_pos _), unit_eq, Nat.cast_pow, Nat.cast_ofNat, ← zpow_natCast,
      ← zpow_add₀ two_ne_zero, add_sub_cancel]
    exact Int.zpow_log_le_self Nat.one_lt_two hpos
  have hexponent : 2 * f.bias ≤
      (Int.log 2 q - (f.precision - 1 : ℕ) - f.minExponent).toNat := by
    rw [hf.minExponent_eq]
    omega
  unfold roundTo
  dsimp only
  rw [hmax, min_eq_right]
  calc f.infinity = 2 * f.bias * f.unit + f.unit := by rw [hf.infinity_eq, add_mul, one_mul]
    _ ≤ _ := Nat.add_le_add (Nat.mul_le_mul_right _ hexponent) (le_nearestTo hunit)

/-- A number below half of the smallest one is rounded to zero. -/
theorem roundTo_of_lt {q : ℚ} (hpos : 0 < q) (hq : q < (2 : ℚ) ^ (f.minExponent - 1)) :
    f.roundTo q = 0 := by
  have hlog : Int.log 2 q < f.minExponent - 1 :=
    (Int.lt_zpow_iff_log_lt Nat.one_lt_two hpos).mp hq
  have hmax : max (Int.log 2 q - (f.precision - 1 : ℕ)) f.minExponent = f.minExponent := by
    omega
  have hhalf : 2 * (q / 2 ^ f.minExponent) < 1 := by
    rw [← mul_div_assoc, div_lt_one (two_zpow_pos _)]
    calc 2 * q < 2 * 2 ^ (f.minExponent - 1) := by linarith
      _ = 2 ^ f.minExponent := by rw [← zpow_one_add₀ two_ne_zero, add_sub_cancel]
  unfold roundTo
  dsimp only
  rw [hmax, sub_self, Int.toNat_zero, Nat.zero_mul, nearestTo_of_lt_half hhalf, Nat.zero_add,
    Nat.zero_min]

end Format

namespace Decimal

open Format Ratio

theorem lt_pow_digitBound (c : ℕ) : c < 10 ^ digitBound c := by
  calc c < 2 ^ (Nat.log2 c + 1) := Nat.lt_log2_self
    _ ≤ 2 ^ (3 * digitBound c) := by
      apply Nat.pow_le_pow_right two_pos
      unfold digitBound
      omega
    _ = (2 ^ 3) ^ digitBound c := pow_mul ..
    _ ≤ 10 ^ digitBound c := Nat.pow_le_pow_left (by decide) _

theorem ten_zpow_pos (e : ℤ) : (0 : ℚ) < 10 ^ e :=
  zpow_pos (by norm_num) e

variable {f : Format}

/-- The powers of ten past the exponents of the format are past its numbers. -/
theorem roundTo_of_ten_le (hf : f.Proper) {q : ℚ} (hq : (10 : ℚ) ^ (f.bias + 1 : ℤ) ≤ q) :
    f.roundTo q = f.infinity := by
  refine roundTo_of_le hf (le_trans ?_ hq)
  exact_mod_cast pow_le_pow_left₀ (by norm_num) (by norm_num : (2 : ℚ) ≤ 10) (f.bias + 1)

theorem roundTo_of_lt_ten {q : ℚ} (hpos : 0 < q)
    (hq : q < (10 : ℚ) ^ (-(f.bias + f.precision + 1 : ℕ) : ℤ)) : f.roundTo q = 0 := by
  refine roundTo_of_lt hpos ?_
  calc q < 10 ^ (-(f.bias + f.precision + 1 : ℕ) : ℤ) := hq
    _ ≤ 2 ^ (-(f.bias + f.precision + 1 : ℕ) : ℤ) := by
      rw [zpow_neg, zpow_neg, zpow_natCast, zpow_natCast]
      exact inv_anti₀ (by positivity) (pow_le_pow_left₀ (by norm_num) (by norm_num) _)
    _ ≤ 2 ^ (f.minExponent - 1) := by
      refine zpow_le_zpow_right₀ (by norm_num) ?_
      unfold minExponent
      push_cast
      omega

/-- A decimal above zero is rounded as the number that it stands for. -/
theorem magnitude_eq (hf : f.Proper) {c : ℕ} (hc : 0 < c) (e : ℤ) :
    magnitude f c e = f.roundTo (c * 10 ^ e) := by
  have hone : (1 : ℚ) ≤ c := Nat.one_le_cast.mpr hc
  have hpos : (0 : ℚ) < c * 10 ^ e := mul_pos (by linarith) (ten_zpow_pos e)
  unfold magnitude
  rw [if_neg hc.ne']
  split
  · next hlarge =>
      refine (roundTo_of_ten_le hf ?_).symm
      calc (10 : ℚ) ^ (f.bias + 1 : ℤ) ≤ 10 ^ e := zpow_le_zpow_right₀ (by norm_num) (by omega)
        _ ≤ c * 10 ^ e := le_mul_of_one_le_left (ten_zpow_pos e).le hone
  · split
    · next hsmall =>
        refine (roundTo_of_lt_ten hpos ?_).symm
        have hdigits : (c : ℚ) < 10 ^ (digitBound c : ℤ) := by
          rw [zpow_natCast]
          exact_mod_cast lt_pow_digitBound c
        calc (c : ℚ) * 10 ^ e < 10 ^ (digitBound c : ℤ) * 10 ^ e :=
              mul_lt_mul_of_pos_right hdigits (ten_zpow_pos e)
          _ = 10 ^ (digitBound c + e : ℤ) := (zpow_add₀ (by norm_num) _ _).symm
          _ ≤ 10 ^ (-(f.bias + f.precision + 1 : ℕ) : ℤ) :=
              zpow_le_zpow_right₀ (by norm_num) (by push_cast at hsmall ⊢; omega)
    · dsimp only
      rw [round_eq f (dividePower_fst_pos (by decide) hc _)
        (dividePower_snd_pos (by decide) Nat.one_pos _), dividePower_eq, Nat.cast_one, div_one,
        Nat.cast_ofNat, zpow_neg, div_inv_eq_mul]

end Decimal

namespace Binary

open Format

variable {f : Format}

/-- The number that a finite pattern stands for, without its sign. -/
def value (x : Binary f) : ℚ :=
  x.significand * 2 ^ x.exponent

theorem significand_pos {x : Binary f} (hx : x.magnitude ≠ 0) : 0 < x.significand := by
  unfold significand
  split
  · exact Nat.pos_of_ne_zero hx
  · exact Nat.add_pos_right _ f.unit_pos

theorem value_pos {x : Binary f} (hx : x.magnitude ≠ 0) : 0 < x.value :=
  mul_pos (Nat.cast_pos.mpr (significand_pos hx)) (two_zpow_pos _)

/-- A magnitude is the exponent of its last place and its significand. -/
theorem place_add_significand (x : Binary f) :
    (x.exponent - f.minExponent).toNat * f.unit + x.significand = x.magnitude := by
  unfold exponent significand
  split
  · rw [sub_self, Int.toNat_zero, Nat.zero_mul, Nat.zero_add]
  · next hlarge =>
      have hquotient : 1 ≤ x.magnitude / f.unit :=
        (Nat.le_div_iff_mul_le f.unit_pos).mpr (by omega)
      have hplace : (f.minExponent + (x.magnitude / f.unit : ℕ) - 1 - f.minExponent).toNat =
          x.magnitude / f.unit - 1 := by omega
      have hdivide := Nat.div_add_mod' x.magnitude f.unit
      rw [hplace, Nat.sub_mul, Nat.one_mul]
      have hle : f.unit ≤ x.magnitude / f.unit * f.unit := Nat.le_mul_of_pos_left _ hquotient
      omega

/-- A number is rounded at its own last place. -/
theorem max_log_value {x : Binary f} (hx : x.magnitude ≠ 0) :
    max (Int.log 2 x.value - (f.precision - 1 : ℕ)) f.minExponent = x.exponent := by
  have hpos := value_pos hx
  have hunit : (f.unit : ℚ) = 2 ^ ((f.precision - 1 : ℕ) : ℤ) := by
    rw [unit_eq, Nat.cast_pow, Nat.cast_ofNat, zpow_natCast]
  by_cases hsmall : x.magnitude < f.unit
  · have hexponent : x.exponent = f.minExponent := if_pos hsmall
    have hsignificand : x.significand = x.magnitude := if_pos hsmall
    have hlt : x.value < 2 ^ ((f.precision - 1 : ℕ) + f.minExponent : ℤ) := by
      rw [value, hexponent, hsignificand, zpow_add₀ two_ne_zero, ← hunit]
      exact mul_lt_mul_of_pos_right (Nat.cast_lt.mpr hsmall) (two_zpow_pos _)
    have hlog := (Int.lt_zpow_iff_log_lt Nat.one_lt_two hpos).mp hlt
    omega
  · have hquotient : 1 ≤ x.magnitude / f.unit :=
      (Nat.le_div_iff_mul_le f.unit_pos).mpr (by omega)
    have hexponent : x.exponent = f.minExponent + (x.magnitude / f.unit : ℕ) - 1 :=
      if_neg hsmall
    have hsignificand : x.significand = x.magnitude % f.unit + f.unit := if_neg hsmall
    have hrest := Nat.mod_lt x.magnitude f.unit_pos
    have hlog : Int.log 2 x.value = (f.precision - 1 : ℕ) + x.exponent := by
      refine (log_eq_iff hpos).mpr ⟨?_, ?_⟩
      · rw [value, zpow_add₀ two_ne_zero, ← hunit]
        refine mul_le_mul_of_nonneg_right ?_ (two_zpow_pos _).le
        exact_mod_cast (by omega : f.unit ≤ x.significand)
      · rw [value, add_right_comm, zpow_add₀ two_ne_zero, zpow_add_one₀ two_ne_zero, ← hunit]
        refine mul_lt_mul_of_pos_right ?_ (two_zpow_pos _)
        exact_mod_cast (by omega : x.significand < f.unit * 2)
    omega

/-- A number of the format is rounded to itself. -/
theorem roundTo_value {x : Binary f} (hx : x.magnitude ≠ 0)
    (hfinite : x.magnitude < f.infinity) : f.roundTo x.value = x.magnitude := by
  have hexact : x.value / 2 ^ x.exponent = x.significand :=
    mul_div_cancel_right₀ _ (two_zpow_pos _).ne'
  unfold roundTo
  dsimp only
  rw [max_log_value hx, hexact, nearestTo_natCast, place_add_significand, min_eq_left hfinite.le]

end Binary

end FlatJson
