import Mathlib.Data.Nat.Digits.Defs
import FlatJson.Codec
import FlatJson.Proofs.Number.Scan
import FlatJson.Proofs.Number.Digits

/-!
# Integers are written as their decimal text

What is put into a store stands there in front of what it held, and takes the places right in
front of it (`NumeralStore.Gains`). There is room for the digits of a number if there are no more
of them than places left, so that a store that nothing has been put into takes every number of
128 bits and a minus besides. The numeral of an integer is its decimal text, whether it is put
together in a store or not (`Emission.integer_eq`).
-/

namespace FlatJson

open Ascii Literal

/-- The decimal text of a number: its digits in base ten from the first to the last, and one zero
for zero. -/
def Ascii.canonical (n : ℕ) : Bytes :=
  if n = 0 then [zero] else ((Nat.digits 10 n).map digit).reverse

theorem Ascii.digits_eq_canonical (n : ℕ) : digits n = canonical n := by
  induction n using tenths_induction with
  | small n h =>
      rw [digits_of_lt h, canonical]
      split
      · next hn =>
          rw [hn]
          rfl
      · next hn =>
          rw [Nat.digits_of_lt 10 n hn h]
          rfl
  | large n h ih =>
      have hn : n ≠ 0 := by omega
      have htenth : n / 10 ≠ 0 := by omega
      rw [canonical, if_neg htenth] at ih
      have hpos : 0 < n := by omega
      rw [digits_of_ge h, ih, canonical, if_neg hn, Nat.digits_def' (by decide) hpos,
        List.map_cons, List.reverse_cons]

namespace NumeralStore

variable {s t u : NumeralStore} {bs cs : Bytes} {b : UInt8} {n : ℕ} {negative : Bool}

/-- A store holds some bytes more than before, in front of the others. -/
structure Gains (s : NumeralStore) (bs : Bytes) (t : NumeralStore) : Prop where
  start : t.start + bs.length = s.start
  text : t.text = bs ++ s.text

theorem Gains.trans (h : s.Gains bs t) (h' : t.Gains cs u) : s.Gains (cs ++ bs) u := by
  refine ⟨?_, ?_⟩
  · rw [List.length_append, ← h.start, ← h'.start, Nat.add_assoc]
  · rw [h'.text, h.text, List.append_assoc]

theorem text_blank : blank.text = [] := rfl

theorem gains_of_put? (h : s.put? b = some t) : s.Gains [b] t := by
  obtain ⟨bytes, start, hstart⟩ := s
  cases start with
  | zero => cases h
  | succ place =>
      cases h
      refine ⟨rfl, ?_⟩
      have hplace : place < (bytes.toList.set place b).length := by
        rw [List.length_set, Vector.length_toList]
        exact hstart
      rw [text, text, Vector.toList_set, List.drop_eq_getElem_cons hplace, List.getElem_set_self,
        List.drop_set_of_lt (Nat.lt_succ_self place)]
      rfl

theorem exists_put? (h : 0 < s.start) (b : UInt8) : ∃ t, s.put? b = some t := by
  obtain ⟨bytes, start, hstart⟩ := s
  cases start with
  | zero => cases h
  | succ place => exact ⟨_, rfl⟩

/-- A number of one digit is that digit. -/
theorem putDigits?_of_lt (h : n < 10) : s.putDigits? n = s.put? (digit n) := by
  rw [putDigits?, Nat.mod_eq_of_lt h]
  cases s.put? (digit n) with
  | none => rfl
  | some t => exact if_pos (Nat.div_eq_of_lt h)

/-- The last digit of a number is put in before the others. -/
theorem putDigits?_of_ge (h : 10 ≤ n) :
    s.putDigits? n = (s.put? (digit (n % 10))).bind fun t => t.putDigits? (n / 10) := by
  rw [putDigits?]
  cases s.put? (digit (n % 10)) with
  | none => rfl
  | some t => exact if_neg (by omega)

theorem gains_of_putDigits? (h : s.putDigits? n = some t) : s.Gains (digits n) t := by
  induction n using tenths_induction generalizing s with
  | small n hn =>
      rw [putDigits?_of_lt hn] at h
      rw [digits_of_lt hn]
      exact gains_of_put? h
  | large n hn ih =>
      rw [putDigits?_of_ge hn, Option.bind_eq_some_iff] at h
      obtain ⟨u, hput, hrest⟩ := h
      rw [digits_of_ge hn]
      exact (gains_of_put? hput).trans (ih hrest)

/-- There is room for the digits of a number if there are as many places left. -/
theorem exists_putDigits? (h : (digits n).length ≤ s.start) : ∃ t, s.putDigits? n = some t := by
  induction n using tenths_induction generalizing s with
  | small n hn =>
      rw [digits_of_lt hn] at h
      rw [putDigits?_of_lt hn]
      exact exists_put? h _
  | large n hn ih =>
      rw [digits_of_ge hn, List.length_append, List.length_singleton] at h
      obtain ⟨t, ht⟩ := exists_put? (s := s) (by omega) (digit (n % 10))
      have hstart : t.start + 1 = s.start := (gains_of_put? ht).start
      obtain ⟨u, hu⟩ := ih (s := t) (by omega)
      exact ⟨u, by rw [putDigits?_of_ge hn, ht]; exact hu⟩

/-- The store of a numeral holds its sign and its digits. -/
theorem gains_of_ofMagnitude? (h : ofMagnitude? n negative = some t) :
    blank.Gains (signText negative ++ digits n) t := by
  unfold ofMagnitude? at h
  split at h
  · cases h
  · next s hs =>
      have hdigits := gains_of_putDigits? hs
      cases negative with
      | true => exact hdigits.trans (gains_of_put? h)
      | false =>
          cases h
          exact hdigits

/-- A store that nothing has been put into has room for every number of 128 bits, and for a sign
in front of it. -/
theorem exists_ofMagnitude? (h : n < 2 ^ 128) (negative : Bool) :
    ∃ s t, blank.putDigits? n = some s ∧ 0 < s.start ∧ ofMagnitude? n negative = some t := by
  have hlength : (digits n).length ≤ 39 := length_digits_le (by decide) (h.trans (by decide))
  obtain ⟨s, hs⟩ := exists_putDigits? (s := blank) (hlength.trans (by decide))
  have hstart : s.start + (digits n).length = 40 := (gains_of_putDigits? hs).start
  have hroom : 0 < s.start := by omega
  obtain ⟨t, ht⟩ := exists_put? hroom minus
  cases negative with
  | true => exact ⟨s, t, hs, hroom, by rw [ofMagnitude?, hs]; exact ht⟩
  | false => exact ⟨s, s, hs, hroom, by rw [ofMagnitude?, hs]; rfl⟩

theorem text_ofMagnitude? (h : ofMagnitude? n negative = some t) :
    t.text = signText negative ++ canonical n := by
  rw [(gains_of_ofMagnitude? h).text, text_blank, List.append_nil, digits_eq_canonical]

/-- A numeral has a digit at least, which stands in the store. -/
theorem start_lt_of_ofMagnitude? (h : ofMagnitude? n negative = some t) : t.start < capacity := by
  have hstart : t.start + (signText negative ++ digits n).length = capacity :=
    (gains_of_ofMagnitude? h).start
  have hdigits := List.length_pos_iff.mpr (isDigits_digits n).1
  rw [List.length_append] at hstart
  omega

end NumeralStore

namespace IntType

/-- The number of bits of the members of a type. -/
def bits : IntType → ℕ
  | signed bits => bits
  | unsigned bits => bits

theorem natAbs_lt {t : IntType} {width : ℕ} (hpos : 0 < width) (hbits : t.bits ≤ width)
    (n : t.Member) : n.val.natAbs < 2 ^ width := by
  obtain ⟨n, hleast, hmost⟩ := n
  cases t with
  | signed bits =>
      have hhalf : 2 ^ (bits - 1) ≤ 2 ^ (width - 1) :=
        Nat.pow_le_pow_right (by decide) (Nat.sub_le_sub_right hbits 1)
      have hwhole : 2 ^ width = 2 * 2 ^ (width - 1) := by
        rw [← pow_succ', Nat.sub_add_cancel hpos]
      change -((2 ^ (bits - 1) : ℕ) : ℤ) ≤ n at hleast
      change n ≤ ((2 ^ (bits - 1) : ℕ) : ℤ) - 1 at hmost
      have := Nat.two_pow_pos (width - 1)
      show n.natAbs < 2 ^ width
      omega
  | unsigned bits =>
      have hpow : 2 ^ bits ≤ 2 ^ width := Nat.pow_le_pow_right (by decide) hbits
      change 0 ≤ n at hleast
      change n ≤ ((2 ^ bits : ℕ) : ℤ) - 1 at hmost
      show n.natAbs < 2 ^ width
      omega

end IntType

namespace Emission

/-- A magnitude is written as its sign and its decimal text, whether there is room for them in a
store or not. -/
theorem magnitude_eq (n : ℕ) (negative : Bool) :
    magnitude n negative = raw (signText negative ++ canonical n) := by
  unfold magnitude
  split
  · next t h => rw [NumeralStore.text_ofMagnitude? h]
  · rw [digits_eq_canonical]
    rfl

theorem integer_eq (n : ℤ) : Emission.integer n = raw (Ascii.integer n) := by
  rw [Emission.integer, magnitude_eq, ← digits_eq_canonical, Ascii.integer]
  by_cases h : n < 0 <;> simp [signText, h]

/-- Numbers of 128 bits fit into a store. When all their digits have been put in there is still
room for a minus, and what the store then holds is the decimal text of the number, with the minus
in front if it is asked for, which is written with one write. So every member of an integer type
of 128 bits at most is written as its decimal text. -/
theorem integer_canonical :
    (∀ (n : ℕ) (negative : Bool), n < 2 ^ 128 →
      ∃ s t, NumeralStore.blank.putDigits? n = some s ∧ 0 < s.start ∧
        NumeralStore.ofMagnitude? n negative = some t ∧ t.start < 40 ∧
        t.text = signText negative ++ canonical n ∧ magnitude n negative = [.bytes t.text]) ∧
    ∀ type : IntType, type.bits ≤ 128 → ∀ n : type.Member, n.val.natAbs < 2 ^ 128 ∧
      (Codec.integer type).emit n =
        [.bytes (signText (decide (n.val < 0)) ++ canonical n.val.natAbs)] := by
  refine ⟨fun n negative hn => ?_, fun type hbits n => ?_⟩
  · obtain ⟨s, t, hs, hroom, ht⟩ := NumeralStore.exists_ofMagnitude? hn negative
    have htext := NumeralStore.text_ofMagnitude? ht
    refine ⟨s, t, hs, hroom, ht, NumeralStore.start_lt_of_ofMagnitude? ht, htext, ?_⟩
    rw [htext, magnitude_eq]
    rfl
  · exact ⟨type.natAbs_lt (by decide) hbits n, magnitude_eq _ _⟩

/-- The largest number of 128 bits with a minus in front, which takes all of a store, and the
least integer of 128 bits. -/
theorem integer_canonical_extremes :
    (∃ t, NumeralStore.ofMagnitude? (2 ^ 128 - 1) true = some t ∧ t.start < 40 ∧
      t.text = Utf8.ofString "-340282366920938463463374607431768211455") ∧
    (Codec.integer (.signed 128)).emit ⟨-(2 ^ 127), by decide, by decide⟩ =
      [.bytes (Utf8.ofString "-170141183460469231731687303715884105728")] := by
  constructor
  · obtain ⟨-, t, -, -, ht, hstart, htext, -⟩ :=
      integer_canonical.1 (2 ^ 128 - 1) true (by decide)
    exact ⟨t, ht, hstart, htext.trans (by decide)⟩
  · exact (integer_canonical.2 (.signed 128) (by decide) _).2.trans (by decide)

end Emission

end FlatJson
