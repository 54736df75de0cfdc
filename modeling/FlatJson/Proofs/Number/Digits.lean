import Mathlib.Data.List.Induction
import Mathlib.Tactic.Ring
import FlatJson.Number.Literal
import FlatJson.Proofs.Grammar

/-!
# Decimal digits

The digits of a number are digits, denote it and are no more than it needs. The
digits of an exponent are counted in the same way, as long as the number is far
enough below the cap.
-/

namespace FlatJson

namespace Ascii

theorem toNat_digit {n : ℕ} (h : n < 10) : (digit n).toNat = 0x30 + n := by
  apply UInt8.toNat_ofNat_of_lt'
  change 0x30 + n < 256
  omega

theorem isDigit_digit {n : ℕ} (h : n < 10) : isDigit (digit n) = true := by
  simp only [isDigit, UInt8.le_iff_toNat_le, UInt8.reduceToNat, toNat_digit h, Bool.and_eq_true,
    decide_eq_true_eq]
  omega

theorem digitValue_digit {n : ℕ} (h : n < 10) : digitValue (digit n) = n := by
  rw [digitValue, toNat_digit h, Nat.add_sub_cancel_left]

theorem digitsOnto_append (n : ℕ) (tail : Bytes) : digitsOnto n tail = digits n ++ tail := by
  induction n using Nat.strongRecOn generalizing tail with
  | ind n ih =>
      unfold digits
      rw [digitsOnto, digitsOnto.eq_def n []]
      by_cases h : n < 10
      · rw [if_pos h, if_pos h, List.singleton_append]
      · have hlt : n / 10 < n := by omega
        rw [if_neg h, if_neg h, ih _ hlt, ih _ hlt [_], List.append_assoc, List.singleton_append]

/-- The last digit of a number stands behind the digits of the rest. -/
theorem digits_of_ge {n : ℕ} (h : 10 ≤ n) : digits n = digits (n / 10) ++ [digit (n % 10)] := by
  rw [digits, digitsOnto, if_neg (by omega), digitsOnto_append]

theorem digits_of_lt {n : ℕ} (h : n < 10) : digits n = [digit n] := by
  rw [digits, digitsOnto, if_pos h]

/-- Induction on a number, by one digit more at a time. -/
@[elab_as_elim]
theorem tenths_induction {P : ℕ → Prop} (n : ℕ) (small : ∀ n < 10, P n)
    (large : ∀ n ≥ 10, P (n / 10) → P n) : P n := by
  induction n using Nat.strongRecOn with
  | ind n ih =>
      by_cases h : n < 10
      · exact small n h
      · exact large n (by omega) (ih _ (by omega))

theorem isDigits_digits (n : ℕ) : IsDigits (digits n) := by
  induction n using tenths_induction with
  | small n h =>
      rw [digits_of_lt h]
      refine ⟨List.cons_ne_nil _ _, ?_⟩
      intro b hb
      rw [List.mem_singleton.mp hb]
      exact isDigit_digit h
  | large n h ih =>
      rw [digits_of_ge h]
      refine ⟨by simp, ?_⟩
      intro b hb
      rcases List.mem_append.mp hb with hb | hb
      · exact ih.2 b hb
      · rw [List.mem_singleton.mp hb]
        exact isDigit_digit (Nat.mod_lt _ (by decide))

theorem numeral_append_singleton (ds : Bytes) (b : UInt8) :
    numeral (ds ++ [b]) = 10 * numeral ds + digitValue b := by
  rw [numeral, List.foldl_append]
  rfl

theorem numeral_append (ds es : Bytes) :
    numeral (ds ++ es) = numeral ds * 10 ^ es.length + numeral es := by
  induction es using List.reverseRecOn with
  | nil => rw [List.append_nil, List.length_nil, pow_zero, Nat.mul_one]; rfl
  | append_singleton es b ih =>
      rw [← List.append_assoc, numeral_append_singleton, numeral_append_singleton, ih,
        List.length_append, List.length_singleton, pow_succ]
      ring

theorem numeral_replicate_zero (n : ℕ) : numeral (List.replicate n zero) = 0 := by
  induction n with
  | zero => rfl
  | succ n ih => rw [List.replicate_succ', numeral_append_singleton, ih]; rfl

/-- The digits of a number denote it. -/
theorem numeral_digits (n : ℕ) : numeral (digits n) = n := by
  induction n using tenths_induction with
  | small n h =>
      rw [digits_of_lt h, ← List.nil_append [digit n], numeral_append_singleton,
        digitValue_digit h]
      exact Nat.zero_add n
  | large n h ih =>
      rw [digits_of_ge h, numeral_append_singleton, ih,
        digitValue_digit (Nat.mod_lt _ (by decide))]
      omega

/-- A number has as many digits as it needs. -/
theorem length_digits (n : ℕ) (hn : 0 < n) :
    10 ^ ((digits n).length - 1) ≤ n ∧ n < 10 ^ (digits n).length := by
  induction n using tenths_induction with
  | small n h =>
      rw [digits_of_lt h]
      exact ⟨hn, h⟩
  | large n h ih =>
      obtain ⟨hlow, hhigh⟩ := ih (by omega)
      have hpos := List.length_pos_iff.mpr (isDigits_digits (n / 10)).1
      obtain ⟨k, hk⟩ := Nat.exists_eq_add_of_le' hpos
      rw [digits_of_ge h, List.length_append, List.length_singleton, Nat.add_sub_cancel]
      rw [hk, Nat.add_sub_cancel] at hlow
      rw [hk, pow_succ] at hhigh
      rw [hk, pow_succ, pow_succ]
      omega

/-- A number below a power of ten has no more digits than the power has zeros. -/
theorem length_digits_le {width n : ℕ} (hwidth : 0 < width) (h : n < 10 ^ width) :
    (digits n).length ≤ width := by
  rcases Nat.eq_zero_or_pos n with rfl | hn
  · rw [digits_of_lt (by decide)]
    exact hwidth
  · have hlow := (length_digits n hn).1.trans_lt h
    have hlength := (Nat.pow_lt_pow_iff_right (by decide)).mp hlow
    omega

theorem isDigits_padded (width n : ℕ) : IsDigits (padded width n) := by
  refine ⟨List.append_ne_nil_of_right_ne_nil _ (isDigits_digits n).1, fun b hb => ?_⟩
  rcases List.mem_append.mp hb with hb | hb
  · rw [List.eq_of_mem_replicate hb]
    rfl
  · exact (isDigits_digits n).2 b hb

/-- Zeros in front make no difference to the number. -/
theorem numeral_padded (width n : ℕ) : numeral (padded width n) = n := by
  rw [padded, numeral_append, numeral_replicate_zero, numeral_digits, Nat.zero_mul, Nat.zero_add]

theorem length_padded (width n : ℕ) :
    (padded width n).length = max width (digits n).length := by
  rw [padded, List.length_append, List.length_replicate]
  omega

end Ascii

namespace Exponent

open Ascii

theorem size_append_singleton (ds : Bytes) (b : UInt8) :
    size (ds ++ [b]) = if size ds < cap then 10 * size ds + digitValue b else size ds := by
  rw [size, List.foldl_append]
  rfl

/-- The digits of a number that is not too far beyond the cap count as that
number. -/
theorem size_digits (n : ℕ) (hn : n < 10 * cap) : size (Ascii.digits n) = n := by
  induction n using tenths_induction with
  | small n h =>
      rw [digits_of_lt h, ← List.nil_append [digit n], size_append_singleton, digitValue_digit h]
      exact Nat.zero_add n
  | large n h ih =>
      have hcap : n / 10 < cap := by omega
      rw [digits_of_ge h, size_append_singleton, ih (by omega), if_pos hcap,
        digitValue_digit (Nat.mod_lt _ (by decide))]
      omega

end Exponent

end FlatJson
