/-!
# Binary floating-point numbers

A format has a number of significant bits and a number of exponent bits. A number
of the format is a sign and a magnitude, where the magnitude is the bit pattern
without the sign: magnitudes are ordered as the numbers are, the finite ones come
first, then infinity, then those that stand for no number.

`Format.round` takes a ratio of two naturals to the magnitude nearest to it, a
tie going to the even one. Reading a numeral is rounding the ratio that it
denotes; no arithmetic on floating-point numbers is needed for it.
-/

namespace FlatJson

/-- Divides a ratio by a power of a base. -/
def Ratio.dividePower (base num den : Nat) (e : Int) : Nat × Nat :=
  if 0 ≤ e then (num, den * Nat.pow base e.toNat) else (num * Nat.pow base (-e).toNat, den)

/-- The shape of a binary floating-point number: how many bits its significand
has, the leading one included, and how many its exponent. -/
structure Format where
  precision : Nat
  exponentBits : Nat
  deriving DecidableEq, Repr

namespace Format

def binary64 : Format := ⟨53, 11⟩

def binary32 : Format := ⟨24, 8⟩

/-- The number of magnitudes that share an exponent. -/
def unit (f : Format) : Nat := Nat.pow 2 (f.precision - 1)

/-- The magnitude of infinity. -/
def infinity (f : Format) : Nat := (Nat.pow 2 f.exponentBits - 1) * f.unit

/-- The number of magnitudes, which is also the weight of the sign bit. -/
def signBit (f : Format) : Nat := Nat.pow 2 f.exponentBits * f.unit

/-- The largest exponent of a finite number. -/
def bias (f : Format) : Nat := Nat.pow 2 (f.exponentBits - 1) - 1

/-- The exponent of the last place of the smallest numbers. -/
def minExponent (f : Format) : Int := 2 - f.bias - f.precision

theorem unit_pos (f : Format) : 0 < f.unit := Nat.pow_pos (by decide)

theorem signBit_pos (f : Format) : 0 < f.signBit :=
  Nat.mul_pos (Nat.pow_pos (by decide)) f.unit_pos

theorem infinity_lt_signBit (f : Format) : f.infinity < f.signBit :=
  Nat.mul_lt_mul_of_pos_right
    (Nat.sub_lt (Nat.pow_pos (by decide)) (by decide)) f.unit_pos

/-- The exponent of the largest power of two that is at most a ratio. -/
def floorLog2 (num den : Nat) : Int :=
  let e : Int := (Nat.log2 num : Int) - Nat.log2 den
  let (n, d) := Ratio.dividePower 2 num den e
  if d ≤ n then e else e - 1

/-- The integer nearest to a ratio, a tie going to the even one. -/
def nearest (num den : Nat) : Nat :=
  let q := num / den
  let r := num % den
  if 2 * r < den then q
  else if den < 2 * r then q + 1
  else if q % 2 = 0 then q
  else q + 1

/-- The magnitude nearest to a ratio above zero. -/
def round (f : Format) (num den : Nat) : Nat :=
  let e := max (floorLog2 num den - (f.precision - 1 : Nat)) f.minExponent
  let (n, d) := Ratio.dividePower 2 num den e
  min ((e - f.minExponent).toNat * f.unit + nearest n d) f.infinity

theorem round_le_infinity (f : Format) (num den : Nat) : f.round num den ≤ f.infinity :=
  Nat.min_le_right _ _

end Format

/-- A number of a binary floating-point format. -/
structure Binary (f : Format) where
  negative : Bool
  magnitude : Nat
  small : magnitude < f.signBit
  deriving DecidableEq, Repr

/-- Numbers of 64 bits. -/
abbrev Binary64 := Binary .binary64

/-- Numbers of 32 bits. -/
abbrev Binary32 := Binary .binary32

namespace Binary

variable {f : Format}

/-- The number with a bit pattern. -/
def ofBits (n : Nat) : Binary f :=
  ⟨n / f.signBit % 2 == 1, n % f.signBit, Nat.mod_lt _ f.signBit_pos⟩

/-- The bit pattern of a number. -/
def toBits (x : Binary f) : Nat :=
  (if x.negative then f.signBit else 0) + x.magnitude

/-- The zero without a minus. -/
def zero : Binary f := ⟨false, 0, f.signBit_pos⟩

/-- Neither infinite nor without a value. -/
def isFinite (x : Binary f) : Bool := x.magnitude < f.infinity

/-- A pattern that stands for no number. -/
def isNaN (x : Binary f) : Bool := f.infinity < x.magnitude

/-- Equality of the numbers that two patterns stand for: the two zeros are
equal, and what is no number equals nothing. -/
def same (x y : Binary f) : Bool :=
  !x.isNaN && !y.isNaN && x.magnitude == y.magnitude &&
    (x.negative == y.negative || x.magnitude == 0)

/-- The significand of a finite number, as an integer. -/
def significand (x : Binary f) : Nat :=
  if x.magnitude < f.unit then x.magnitude else x.magnitude % f.unit + f.unit

/-- The exponent of the last place of a finite number. -/
def exponent (x : Binary f) : Int :=
  if x.magnitude < f.unit then f.minExponent
  else f.minExponent + (x.magnitude / f.unit : Nat) - 1

/-- The value of a finite number without its sign, as a ratio. -/
def ratio (x : Binary f) : Nat × Nat :=
  Ratio.dividePower 2 x.significand 1 (-x.exponent)

/-- The name of a number that has no numeral. -/
def nonFiniteName (x : Binary f) : String :=
  if x.isNaN then "NaN" else if x.negative then "-Infinity" else "Infinity"

end Binary

end FlatJson
