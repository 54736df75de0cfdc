import Mathlib.Tactic.FieldSimp
import FlatJson.Number.Shortest
import FlatJson.Proofs.Number.Digits
import FlatJson.Proofs.Number.Rounding

/-!
# Numerals read back

The text of a finite number is a number literal, and the literal is rounded to
that number again, with its sign and to the last bit.

The digits that are written stand for a number that is rounded to the one that
was asked for (`Digits.roundTo_shortest`): those of the search were tried, and
all digits of a number are the number itself. Every layout of some digits is the
text of a literal that denotes them (`Digits.exists_literal`).
-/

namespace FlatJson

open Ascii

/-- The number that a decimal stands for, without its sign. -/
def Decimal.value (d : Decimal) : ℚ :=
  d.coefficient * 10 ^ d.exponent

namespace Digits

/-- The number that some digits stand for. -/
def value (d : Digits) : ℚ :=
  d.coefficient * 10 ^ d.exponent

/-- Zeros at the end of the coefficient may go into the exponent. -/
theorem trimmed_spec {c : ℕ} (hc : 0 < c) (e : ℤ) :
    0 < (trimmed c e).coefficient ∧ (trimmed c e).value = c * 10 ^ e := by
  fun_induction trimmed c e with
  | case1 => exact absurd hc (Nat.lt_irrefl 0)
  | case2 c e hne hmod ih =>
      obtain ⟨hpos, hvalue⟩ := ih (by omega)
      refine ⟨hpos, ?_⟩
      have hc10 : (c : ℚ) = (c / 10 : ℕ) * 10 := by
        exact_mod_cast (by omega : c = c / 10 * 10)
      rw [hvalue, hc10, zpow_add_one₀ (by norm_num)]
      ring
  | case3 c e => exact ⟨hc, rfl⟩

variable {f : Format}

/-- What is found on a grid reads back. -/
theorem onGrid?_spec {m num den : ℕ} (hm : m ≠ 0) {e : ℤ} {d : Digits}
    (h : onGrid? f m num den e = some d) :
    ∃ c, 0 < c ∧ Decimal.magnitude f c e = m ∧ d = trimmed c e := by
  have hpos {c : ℕ} (hc : Decimal.magnitude f c e = m) : 0 < c := by
    rcases Nat.eq_zero_or_pos c with rfl | hc'
    · exact absurd hc.symm hm
    · exact hc'
  unfold onGrid? at h
  dsimp only at h
  split at h
  · next hits =>
      rw [Bool.and_eq_true, beq_iff_eq] at hits
      cases h
      exact ⟨_, hpos hits.1, hits.1, rfl⟩
  · split at h
    · next hits =>
        rw [beq_iff_eq] at hits
        cases h
        exact ⟨_, hpos hits, hits, rfl⟩
    · cases h

theorem search_spec {m num den : ℕ} (hm : m ≠ 0) {lead : ℤ} {used tries : ℕ} {d : Digits}
    (h : search f m num den lead used tries = some d) :
    ∃ c e, 0 < c ∧ Decimal.magnitude f c e = m ∧ d = trimmed c e := by
  induction tries generalizing used with
  | zero => cases h
  | succ tries ih =>
      rw [search] at h
      cases hgrid : onGrid? f m num den (lead - used) with
      | some ds =>
          rw [hgrid] at h
          cases h
          obtain ⟨c, hc⟩ := onGrid?_spec hm hgrid
          exact ⟨c, _, hc⟩
      | none =>
          rw [hgrid] at h
          exact ih h

theorem full_spec {significand : ℕ} (hs : 0 < significand) (e : ℤ) :
    0 < (full significand e).coefficient ∧ (full significand e).value = significand * 2 ^ e := by
  unfold full
  simp only [Nat.pow_eq]
  split
  · next he =>
      obtain ⟨hpos, hvalue⟩ :=
        trimmed_spec (Nat.mul_pos hs (Nat.pow_pos (by decide) : 0 < 2 ^ e.toNat)) 0
      refine ⟨hpos, ?_⟩
      have hpow : (2 : ℚ) ^ e = 2 ^ e.toNat := by
        rw [← zpow_natCast, Int.toNat_of_nonneg he]
      rw [hvalue, hpow, zpow_zero, mul_one]
      push_cast
      rfl
  · next he =>
      obtain ⟨hpos, hvalue⟩ :=
        trimmed_spec (Nat.mul_pos hs (Nat.pow_pos (by decide) : 0 < 5 ^ (-e).toNat)) e
      refine ⟨hpos, ?_⟩
      have hfive : ((5 ^ (-e).toNat : ℕ) : ℚ) = 5 ^ (-e) := by
        rw [Nat.cast_pow, ← zpow_natCast, Int.toNat_of_nonneg (by omega)]
        norm_num
      have hten : (5 : ℚ) ^ (-e) * 10 ^ e = 2 ^ e := by
        rw [show (10 : ℚ) = 5 * 2 by norm_num, mul_zpow, ← mul_assoc, ← zpow_add₀ (by norm_num),
          neg_add_cancel, zpow_zero, one_mul]
      rw [hvalue, Nat.cast_mul, hfive, mul_assoc, hten]

/-- The shortest numeral of a number is rounded to that number. -/
theorem shortest_spec (hf : f.Proper) {x : Binary f} (hx : x.magnitude ≠ 0)
    (hfinite : x.magnitude < f.infinity) :
    0 < (shortest x).coefficient ∧ f.roundTo (shortest x).value = x.magnitude := by
  unfold shortest
  rw [if_neg hx]
  dsimp only
  cases hsearch : search f x.magnitude x.ratio.1 x.ratio.2
      (floorLog10 x.ratio.1 x.ratio.2) 0 (enough f) with
  | some d =>
      obtain ⟨c, e, hc, hmagnitude, rfl⟩ := search_spec hx hsearch
      obtain ⟨hpos, hvalue⟩ := trimmed_spec hc e
      refine ⟨hpos, ?_⟩
      rw [Option.getD_some, hvalue, ← Decimal.magnitude_eq hf hc, hmagnitude]
  | none =>
      obtain ⟨hpos, hvalue⟩ := full_spec (Binary.significand_pos hx) x.exponent
      refine ⟨hpos, ?_⟩
      rw [Option.getD_none, hvalue]
      exact Binary.roundTo_value hx hfinite

/-! The layouts of a run of digits. -/

theorem numeral_zero : numeral [zero] = 0 := rfl

theorem isDigits_append_zeros {ds : Bytes} (hds : IsDigits ds) (n : ℕ) :
    IsDigits (ds ++ List.replicate n zero) := by
  refine ⟨List.append_ne_nil_of_left_ne_nil hds.1 _, ?_⟩
  intro b hb
  rcases List.mem_append.mp hb with hb | hb
  · exact hds.2 b hb
  · rw [List.eq_of_mem_replicate hb]
    rfl

theorem isDigits_zeros_append {ds : Bytes} (hds : IsDigits ds) (n : ℕ) :
    IsDigits (List.replicate n zero ++ ds) := by
  refine ⟨List.append_ne_nil_of_right_ne_nil _ hds.1, ?_⟩
  intro b hb
  rcases List.mem_append.mp hb with hb | hb
  · rw [List.eq_of_mem_replicate hb]
    rfl
  · exact hds.2 b hb

theorem isDigits_take {ds : Bytes} (hds : IsDigits ds) {n : ℕ} (hpos : 0 < n) :
    IsDigits (ds.take n) := by
  refine ⟨?_, fun b hb => hds.2 b (List.mem_of_mem_take hb)⟩
  have hlength := List.length_pos_iff.mpr hds.1
  apply List.ne_nil_of_length_pos
  rw [List.length_take]
  omega

theorem isDigits_drop {ds : Bytes} (hds : IsDigits ds) {n : ℕ} (hlt : n < ds.length) :
    IsDigits (ds.drop n) := by
  refine ⟨?_, fun b hb => hds.2 b (List.mem_of_mem_drop hb)⟩
  apply List.ne_nil_of_length_pos
  rw [List.length_drop]
  omega

/-- Digits around a point are a literal. -/
theorem wellFormed_point (negative : Bool) {whole fraction : Bytes} (hwhole : IsDigits whole)
    (hfraction : IsDigits fraction) :
    Literal.WellFormed ⟨negative, whole, some fraction, none⟩ where
  whole := hwhole
  fraction := by simpa using hfraction
  mark := by simp
  sign := by simp
  digits := by simp

/-- Without an exponent, the digits stand around a point. -/
theorem positional_spec {ds : Bytes} (hds : IsDigits ds) (point : ℤ) :
    ∃ whole fraction, IsDigits whole ∧ IsDigits fraction ∧
      positional ds point = whole ++ dot :: fraction ∧
      (numeral (whole ++ fraction) : ℚ) * 10 ^ (-(fraction.length : ℤ)) =
        numeral ds * 10 ^ (point - ds.length) := by
  have hten : (10 : ℚ) ≠ 0 := by norm_num
  unfold positional
  split
  · next hpoint =>
      refine ⟨[zero], List.replicate (-point).toNat zero ++ ds, isDigits_zero,
        isDigits_zeros_append hds _, rfl, ?_⟩
      have hexponent : -((List.replicate (-point).toNat zero ++ ds).length : ℤ) =
          point - ds.length := by
        rw [List.length_append, List.length_replicate]
        omega
      rw [hexponent, numeral_append, numeral_append, numeral_replicate_zero, numeral_zero,
        Nat.zero_mul, Nat.zero_mul, Nat.zero_add, Nat.zero_add]
  · next hpoint =>
      dsimp only
      split
      · next hle =>
          refine ⟨ds ++ List.replicate (point.toNat - ds.length) zero, [zero],
            isDigits_append_zeros hds _, isDigits_zero, rfl, ?_⟩
          obtain ⟨k, hk⟩ := Nat.exists_eq_add_of_le hle
          have hexponent : point - ds.length = (k : ℤ) := by omega
          rw [hexponent, hk, Nat.add_sub_cancel_left, numeral_append, numeral_append,
            numeral_replicate_zero, List.length_replicate, zpow_natCast]
          rw [numeral_zero, List.length_singleton, zpow_neg, pow_one, Nat.cast_one, zpow_one]
          push_cast
          field_simp
          ring
      · next hlt =>
          refine ⟨ds.take point.toNat, ds.drop point.toNat, isDigits_take hds (by omega),
            isDigits_drop hds (by omega), rfl, ?_⟩
          rw [List.take_append_drop, List.length_drop]
          congr 2
          omega

/-- The exponent of a numeral. -/
theorem integer_spec {lead : ℤ} (hlead : lead.natAbs < 10 * Exponent.cap) :
    ∃ e : Exponent, e.mark = 0x65 ∧ (∀ s ∈ e.sign, s = plus ∨ s = minus) ∧
      IsDigits e.digits ∧ e.text = 0x65 :: integer lead ∧ e.value = lead := by
  by_cases hneg : lead < 0
  · refine ⟨⟨0x65, some minus, digits lead.natAbs⟩, rfl, ?_, isDigits_digits _, ?_, ?_⟩
    · simp
    · rw [integer, if_pos hneg]
      rfl
    · rw [Exponent.value, if_pos rfl, Exponent.size_digits _ hlead]
      omega
  · refine ⟨⟨0x65, none, digits lead.natAbs⟩, rfl, ?_, isDigits_digits _, ?_, ?_⟩
    · simp
    · rw [integer, if_neg hneg]
      rfl
    · rw [Exponent.value, if_neg (by simp), Exponent.size_digits _ hlead]
      omega

/-- With an exponent, a point stands behind the first digit if others follow. -/
theorem scientific_spec {ds : Bytes} (hds : IsDigits ds) (lead : ℤ) :
    ∃ (whole : Bytes) (fraction : Option Bytes), IsDigits whole ∧
      (∀ es ∈ fraction, IsDigits es) ∧
      scientific ds lead =
        whole ++ (fraction.elim [] fun es => dot :: es) ++ 0x65 :: integer lead ∧
      whole ++ fraction.getD [] = ds ∧ ((fraction.getD []).length : ℤ) = ds.length - 1 := by
  obtain ⟨hne, hdigits⟩ := hds
  cases ds with
  | nil => exact absurd rfl hne
  | cons d rest =>
      have hd : IsDigits [d] := ⟨List.cons_ne_nil _ _, fun b hb => hdigits b (by simp_all)⟩
      cases rest with
      | nil => exact ⟨[d], none, hd, by simp, rfl, rfl, by simp⟩
      | cons e es =>
          have hrest : IsDigits (e :: es) :=
            ⟨List.cons_ne_nil _ _, fun b hb => hdigits b (List.mem_cons_of_mem _ hb)⟩
          exact ⟨[d], some (e :: es), hd, by simpa using hrest, rfl, rfl, by simp⟩

theorem text_eq_or (style : NumeralStyle) {d : Digits} (hd : 0 < d.coefficient) :
    d.text style =
        positional (digits d.coefficient) ((digits d.coefficient).length + d.exponent) ∨
      d.text style =
        scientific (digits d.coefficient) ((digits d.coefficient).length + d.exponent - 1) := by
  unfold text
  rw [if_neg hd.ne']
  dsimp only
  split
  · exact .inl rfl
  · exact .inr rfl

/-- The text of some digits, with a minus or without, is a literal that denotes
them. -/
theorem exists_literal (negative : Bool) (style : NumeralStyle) {d : Digits}
    (hd : 0 < d.coefficient)
    (hlead : ((digits d.coefficient).length + d.exponent - 1).natAbs < 10 * Exponent.cap) :
    ∃ l : Literal, l.WellFormed ∧ l.negative = negative ∧
      l.text = (if negative then [minus] else []) ++ d.text style ∧
      l.decimal.value = d.value := by
  have hds := isDigits_digits d.coefficient
  have hvalue : d.value = numeral (digits d.coefficient) *
      10 ^ ((digits d.coefficient).length + d.exponent - (digits d.coefficient).length : ℤ) := by
    rw [numeral_digits, add_sub_cancel_left, value]
  rcases text_eq_or style hd with hlayout | hlayout
  · obtain ⟨whole, fraction, hwhole, hfraction, htext, hnumeral⟩ :=
      positional_spec hds ((digits d.coefficient).length + d.exponent)
    refine ⟨⟨negative, whole, some fraction, none⟩, wellFormed_point _ hwhole hfraction, rfl,
      ?_, ?_⟩
    · simp [Literal.text, hlayout, htext]
    · rw [hvalue, ← hnumeral]
      simp [Decimal.value, Literal.decimal]
  · obtain ⟨whole, fraction, hwhole, hfraction, htext, hparts, hlength⟩ :=
      scientific_spec hds ((digits d.coefficient).length + d.exponent - 1)
    obtain ⟨e, hmark, hsign, hdigits, hexponent, hlead⟩ := integer_spec hlead
    have hwell : Literal.WellFormed ⟨negative, whole, fraction, some e⟩ :=
      ⟨hwhole, hfraction, by simp [hmark, isExponentMark], by simpa using hsign,
        by simpa using hdigits⟩
    refine ⟨_, hwell, rfl, ?_, ?_⟩
    · simp [Literal.text, hlayout, htext, hexponent]
    · rw [hvalue]
      simp only [Decimal.value, Literal.decimal, Option.elim_some, hparts, hlead, hlength]
      congr 2
      ring

/-- The first digit of a number of the format stands for a power of ten that is
not far beyond its exponents. -/
theorem natAbs_lead_le (hf : f.Proper) {d : Digits} (hd : 0 < d.coefficient)
    (hzero : f.roundTo d.value ≠ 0) (hinfinity : f.roundTo d.value ≠ f.infinity) :
    ((digits d.coefficient).length + d.exponent - 1).natAbs ≤ f.bias + f.precision + 1 := by
  obtain ⟨hlow, hhigh⟩ := length_digits d.coefficient hd
  have hlength := List.length_pos_iff.mpr (isDigits_digits d.coefficient).1
  have hten : (10 : ℚ) ≠ 0 := by norm_num
  have hpos : 0 < d.value := mul_pos (Nat.cast_pos.mpr hd) (Decimal.ten_zpow_pos _)
  have hleast : (10 : ℚ) ^ ((digits d.coefficient).length + d.exponent - 1 : ℤ) ≤ d.value := by
    have hsplit : ((digits d.coefficient).length + d.exponent - 1 : ℤ) =
        ((digits d.coefficient).length - 1 : ℕ) + d.exponent := by omega
    rw [hsplit, zpow_add₀ hten, zpow_natCast, value]
    exact mul_le_mul_of_nonneg_right (by exact_mod_cast hlow) (Decimal.ten_zpow_pos _).le
  have hmost : d.value < (10 : ℚ) ^ ((digits d.coefficient).length + d.exponent : ℤ) := by
    rw [zpow_add₀ hten, zpow_natCast, value]
    exact mul_lt_mul_of_pos_right (by exact_mod_cast hhigh) (Decimal.ten_zpow_pos _)
  have habove : ¬(f.bias : ℤ) + 1 ≤ (digits d.coefficient).length + d.exponent - 1 := by
    intro h
    exact hinfinity (Decimal.roundTo_of_ten_le hf
      ((zpow_le_zpow_right₀ (by norm_num) h).trans hleast))
  have hbelow : ¬((digits d.coefficient).length + d.exponent : ℤ) ≤
      -(f.bias + f.precision + 1 : ℕ) := by
    intro h
    exact hzero (Decimal.roundTo_of_lt_ten hpos
      (hmost.trans_le (zpow_le_zpow_right₀ (by norm_num) h)))
  omega

end Digits

namespace Binary

open Grammar

variable {f : Format}

theorem toBinary_eq {l : Literal} {x : Binary f} (hnegative : l.negative = x.negative)
    (hmagnitude : Decimal.magnitude f l.decimal.coefficient l.decimal.exponent = x.magnitude) :
    l.toBinary f = x := by
  obtain ⟨negative, magnitude, small⟩ := x
  simp only [Literal.toBinary, Decimal.toBinary, mk.injEq]
  exact ⟨hnegative, hmagnitude⟩

/-- The text of a finite number is a number literal that is rounded to that
number. -/
theorem exists_numeral (hf : f.Proper) (hsmall : f.bias + f.precision + 1 < 10 * Exponent.cap)
    {x : Binary f} (hfinite : x.isFinite = true) :
    ∃ n : Numeral, n.literal.text = x.text ∧ n.literal.toBinary f = x := by
  have hlt : x.magnitude < f.infinity := of_decide_eq_true hfinite
  by_cases hx : x.magnitude = 0
  · refine ⟨⟨_, Digits.wellFormed_point x.negative isDigits_zero isDigits_zero⟩, ?_,
      toBinary_eq rfl ?_⟩
    · simp [Literal.text, text, Digits.shortest, hx, Digits.text]
    · exact hx.symm
  · obtain ⟨hpos, hround⟩ := Digits.shortest_spec hf hx hlt
    have hlead := Digits.natAbs_lead_le hf hpos (by rwa [hround]) (by rw [hround]; exact hlt.ne)
    obtain ⟨l, hwell, hnegative, htext, hvalue⟩ :=
      Digits.exists_literal x.negative .standard hpos (hlead.trans_lt hsmall)
    refine ⟨⟨l, hwell⟩, htext, toBinary_eq hnegative ?_⟩
    have hcoefficient : 0 < l.decimal.coefficient := by
      apply Nat.pos_of_ne_zero
      intro h
      have hdigits : 0 < (Digits.shortest x).value :=
        mul_pos (Nat.cast_pos.mpr hpos) (Decimal.ten_zpow_pos _)
      rw [← hvalue, Decimal.value, h, Nat.cast_zero, zero_mul] at hdigits
      exact hdigits.false
    rw [Decimal.magnitude_eq hf hcoefficient, ← hround, ← hvalue]
    rfl

end Binary

end FlatJson
