import Mathlib.Computability.RegularExpressions
import FlatJson.Proofs.Number.Integer

/-!
# The pattern of number literals

The number literals are a regular language: `-?[0-9]+(\.[0-9]+)?([eE][+-]?[0-9]+)?` matches
them and no other text (`Pattern.mem_number_iff`). The pattern is put together from the front,
so that the literals without an exponent have a pattern of their own, and so have those of them
that have no fraction either. Each part of the pattern matches what the same part of a literal
is written as.
-/

namespace FlatJson

open Ascii Literal

namespace Pattern

/-- Any one of some bytes. -/
def oneOf (bs : Bytes) : RegularExpression UInt8 :=
  (bs.map .char).sum

/-- A pattern, or nothing. -/
def optional (p : RegularExpression UInt8) : RegularExpression UInt8 :=
  1 + p

/-- A pattern, once or more often. -/
def repeated (p : RegularExpression UInt8) : RegularExpression UInt8 :=
  p * p.star

/-- `[0-9]+` -/
def digits : RegularExpression UInt8 :=
  repeated (oneOf [0x30, 0x31, 0x32, 0x33, 0x34, 0x35, 0x36, 0x37, 0x38, 0x39])

/-- `-?[0-9]+` -/
def integral : RegularExpression UInt8 :=
  optional (.char minus) * digits

/-- `-?[0-9]+(\.[0-9]+)?` -/
def mantissa : RegularExpression UInt8 :=
  integral * optional (.char dot * digits)

/-- `-?[0-9]+(\.[0-9]+)?([eE][+-]?[0-9]+)?` -/
def number : RegularExpression UInt8 :=
  mantissa * optional (oneOf [0x65, 0x45] * (optional (oneOf [plus, minus]) * digits))

variable {p q : RegularExpression UInt8} {text : Bytes}

theorem mem_comp : text ∈ (p * q).matches' ↔
    ∃ front ∈ p.matches', ∃ back ∈ q.matches', text = front ++ back := by
  rw [RegularExpression.matches'_mul, Language.mem_mul]
  simp only [eq_comm]

theorem mem_optional : text ∈ (optional p).matches' ↔ text = [] ∨ text ∈ p.matches' := by
  rw [optional, RegularExpression.matches'_add, RegularExpression.matches'_epsilon,
    Language.mem_add, Language.mem_one]

theorem mem_char {b : UInt8} : text ∈ (RegularExpression.char b).matches' ↔ text = [b] :=
  Iff.rfl

theorem mem_oneOf {bs : Bytes} : text ∈ (oneOf bs).matches' ↔ ∃ b ∈ bs, text = [b] := by
  induction bs with
  | nil => exact iff_of_false (Language.notMem_zero text) (by simp)
  | cons b bs ih =>
      have hcons : oneOf (b :: bs) = .char b + oneOf bs := rfl
      rw [hcons, RegularExpression.matches'_add, Language.mem_add, mem_char, ih,
        List.exists_mem_cons_iff]

theorem mem_star_oneOf {bs : Bytes} :
    text ∈ (oneOf bs).star.matches' ↔ ∀ b ∈ text, b ∈ bs := by
  rw [RegularExpression.matches'_star, Language.mem_kstar]
  constructor
  · rintro ⟨parts, rfl, hparts⟩ b hb
    obtain ⟨part, hpart, hb⟩ := List.mem_flatten.mp hb
    obtain ⟨c, hc, rfl⟩ := mem_oneOf.mp (hparts part hpart)
    rwa [List.mem_singleton.mp hb]
  · intro h
    refine ⟨text.map fun b => [b], (List.flatMap_singleton' text).symm, fun part hpart => ?_⟩
    obtain ⟨b, hb, rfl⟩ := List.mem_map.mp hpart
    exact mem_oneOf.mpr ⟨b, h b hb, rfl⟩

theorem mem_repeated_oneOf {bs : Bytes} :
    text ∈ (repeated (oneOf bs)).matches' ↔ text ≠ [] ∧ ∀ b ∈ text, b ∈ bs := by
  rw [repeated, mem_comp]
  constructor
  · rintro ⟨front, hfront, back, hback, rfl⟩
    obtain ⟨b, hb, rfl⟩ := mem_oneOf.mp hfront
    exact ⟨List.cons_ne_nil b back, List.forall_mem_cons.mpr ⟨hb, mem_star_oneOf.mp hback⟩⟩
  · rintro ⟨hne, hall⟩
    obtain ⟨b, rest, rfl⟩ := List.exists_cons_of_ne_nil hne
    obtain ⟨hb, hrest⟩ := List.forall_mem_cons.mp hall
    exact ⟨[b], mem_oneOf.mpr ⟨b, hb, rfl⟩, rest, mem_star_oneOf.mpr hrest, rfl⟩

theorem isDigit_iff_mem {b : UInt8} : isDigit b = true ↔
    b ∈ ([0x30, 0x31, 0x32, 0x33, 0x34, 0x35, 0x36, 0x37, 0x38, 0x39] : Bytes) := by
  simp only [isDigit, Bool.and_eq_true, decide_eq_true_eq, UInt8.le_iff_toNat_le, List.mem_cons,
    List.not_mem_nil, or_false, ← UInt8.toNat_inj, UInt8.reduceToNat]
  omega

theorem mem_digits_iff : text ∈ digits.matches' ↔ IsDigits text := by
  rw [digits, mem_repeated_oneOf, IsDigits]
  simp only [isDigit_iff_mem]

theorem mem_minus_iff :
    text ∈ (optional (.char minus)).matches' ↔ ∃ negative, text = signText negative := by
  rw [mem_optional, mem_char, Bool.exists_bool]
  rfl

theorem mem_fraction_iff : text ∈ (optional (.char dot * digits)).matches' ↔
    ∃ fraction : Option Bytes, (∀ ds ∈ fraction, IsDigits ds) ∧ text = fractionText fraction := by
  rw [mem_optional, mem_comp]
  constructor
  · rintro (rfl | ⟨front, rfl, ds, hds, rfl⟩)
    · exact ⟨none, by simp, rfl⟩
    · exact ⟨some ds, by simpa using mem_digits_iff.mp hds, rfl⟩
  · rintro ⟨fraction, hfraction, rfl⟩
    cases fraction with
    | none => exact .inl rfl
    | some ds => exact .inr ⟨[dot], rfl, ds, mem_digits_iff.mpr (hfraction ds rfl), rfl⟩

theorem mem_mark_iff :
    text ∈ (oneOf [0x65, 0x45]).matches' ↔ ∃ mark, isExponentMark mark = true ∧ text = [mark] := by
  simp [mem_oneOf, isExponentMark, or_and_right, exists_or]

theorem mem_sign_iff : text ∈ (optional (oneOf [plus, minus])).matches' ↔
    ∃ sign : Option UInt8, (∀ s ∈ sign, s = plus ∨ s = minus) ∧ text = sign.toList := by
  rw [mem_optional, mem_oneOf, Option.exists]
  simp

theorem mem_exponent_iff :
    text ∈ (optional (oneOf [0x65, 0x45] *
        (optional (oneOf [plus, minus]) * digits))).matches' ↔
      ∃ exponent : Option Exponent,
        (∀ e ∈ exponent, isExponentMark e.mark = true ∧ (∀ s ∈ e.sign, s = plus ∨ s = minus) ∧
          IsDigits e.digits) ∧ text = exponentText exponent := by
  rw [mem_optional, mem_comp]
  constructor
  · rintro (rfl | ⟨front, hfront, back, hback, rfl⟩)
    · exact ⟨none, by simp, rfl⟩
    · obtain ⟨mark, hmark, rfl⟩ := mem_mark_iff.mp hfront
      obtain ⟨front, hfront, ds, hds, rfl⟩ := mem_comp.mp hback
      obtain ⟨sign, hsign, rfl⟩ := mem_sign_iff.mp hfront
      refine ⟨some ⟨mark, sign, ds⟩, ?_, rfl⟩
      rintro e ⟨⟩
      exact ⟨hmark, hsign, mem_digits_iff.mp hds⟩
  · rintro ⟨exponent, hexponent, rfl⟩
    cases exponent with
    | none => exact .inl rfl
    | some e =>
        obtain ⟨hmark, hsign, hds⟩ := hexponent e rfl
        exact .inr ⟨[e.mark], mem_mark_iff.mpr ⟨e.mark, hmark, rfl⟩, _,
          mem_comp.mpr ⟨_, mem_sign_iff.mpr ⟨e.sign, hsign, rfl⟩, e.digits,
            mem_digits_iff.mpr hds, rfl⟩, rfl⟩

/-- The pattern of the whole part matches the literals without fraction and exponent. -/
theorem mem_integral_iff : text ∈ integral.matches' ↔
    ∃ l : Literal, l.WellFormed ∧ l.fraction = none ∧ l.exponent = none ∧ text = l.text := by
  rw [integral, mem_comp]
  constructor
  · rintro ⟨front, hfront, ds, hds, rfl⟩
    obtain ⟨negative, rfl⟩ := mem_minus_iff.mp hfront
    refine ⟨⟨negative, ds, none, none⟩,
      ⟨mem_digits_iff.mp hds, by simp, by simp, by simp, by simp⟩, rfl, rfl, ?_⟩
    rw [text_of_isInteger rfl]
  · rintro ⟨l, hwell, hfraction, hexponent, rfl⟩
    refine ⟨_, mem_minus_iff.mpr ⟨l.negative, rfl⟩, _, mem_digits_iff.mpr hwell.whole, ?_⟩
    rw [text_of_isInteger (by simp [isInteger, hfraction, hexponent])]

/-- The pattern of the mantissa matches the literals without exponent. -/
theorem mem_mantissa_iff : text ∈ mantissa.matches' ↔
    ∃ l : Literal, l.WellFormed ∧ l.exponent = none ∧ text = l.text := by
  rw [mantissa, mem_comp]
  constructor
  · rintro ⟨front, hfront, back, hback, rfl⟩
    obtain ⟨⟨negative, ds, _, _⟩, hwell, rfl, rfl, rfl⟩ := mem_integral_iff.mp hfront
    obtain ⟨fraction, hfraction, rfl⟩ := mem_fraction_iff.mp hback
    refine ⟨⟨negative, ds, fraction, none⟩,
      ⟨hwell.whole, hfraction, by simp, by simp, by simp⟩, rfl, ?_⟩
    simp [text_eq, fractionText, exponentText]
  · rintro ⟨⟨negative, ds, fraction, _⟩, hwell, rfl, rfl⟩
    refine ⟨_, mem_integral_iff.mpr ⟨⟨negative, ds, none, none⟩,
      ⟨hwell.whole, by simp, by simp, by simp, by simp⟩, rfl, rfl, rfl⟩, _,
      mem_fraction_iff.mpr ⟨fraction, hwell.fraction, rfl⟩, ?_⟩
    simp [text_eq, fractionText, exponentText]

/-- The pattern of number literals matches the number literals. -/
theorem mem_number_iff : text ∈ number.matches' ↔ IsNumber text := by
  rw [number, mem_comp]
  constructor
  · rintro ⟨front, hfront, back, hback, rfl⟩
    obtain ⟨⟨negative, ds, fraction, _⟩, hwell, rfl, rfl⟩ := mem_mantissa_iff.mp hfront
    obtain ⟨exponent, hexponent, rfl⟩ := mem_exponent_iff.mp hback
    refine ⟨⟨negative, ds, fraction, exponent⟩, ⟨hwell.whole, hwell.fraction,
      fun e he => (hexponent e he).1, fun e he => (hexponent e he).2.1,
      fun e he => (hexponent e he).2.2⟩, ?_⟩
    simp [text_eq, exponentText]
  · rintro ⟨⟨negative, ds, fraction, exponent⟩, hwell, rfl⟩
    refine ⟨_, mem_mantissa_iff.mpr ⟨⟨negative, ds, fraction, none⟩,
      ⟨hwell.whole, hwell.fraction, by simp, by simp, by simp⟩, rfl, rfl⟩, _,
      mem_exponent_iff.mpr ⟨exponent,
        fun e he => ⟨hwell.mark e he, hwell.sign e he, hwell.digits e he⟩, rfl⟩, ?_⟩
    simp [text_eq, exponentText]

end Pattern

end FlatJson
