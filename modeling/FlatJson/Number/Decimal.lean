import FlatJson.Number.Binary
import FlatJson.Number.Literal

/-!
# Decimals and the floating-point numbers nearest to them

A decimal is a coefficient and a power of ten. A number literal denotes one
exactly, and `Decimal.toBinary` is the floating-point number nearest to it. A
power of ten far beyond the format decides the result on its own, so that a short
literal with a huge exponent costs nothing.
-/

namespace FlatJson

/-- The number `coefficient * 10 ^ exponent`, with a sign. -/
structure Decimal where
  negative : Bool
  coefficient : Nat
  exponent : Int
  deriving DecidableEq, Repr

namespace Decimal

/-- A number of digits that the coefficient does not exceed. -/
def digitBound (coefficient : Nat) : Nat :=
  Nat.log2 coefficient / 3 + 1

/-- The magnitude nearest to `coefficient * 10 ^ exponent`. -/
def magnitude (f : Format) (coefficient : Nat) (exponent : Int) : Nat :=
  if coefficient = 0 then 0
  else if (f.bias : Int) < exponent then f.infinity
  else if digitBound coefficient + exponent < -(f.bias + f.precision : Nat) then 0
  else
    let (num, den) := Ratio.dividePower 10 coefficient 1 (-exponent)
    f.round num den

theorem magnitude_lt_signBit (f : Format) (coefficient : Nat) (exponent : Int) :
    magnitude f coefficient exponent < f.signBit := by
  unfold magnitude
  split
  · exact f.signBit_pos
  · split
    · exact f.infinity_lt_signBit
    · split
      · exact f.signBit_pos
      · exact Nat.lt_of_le_of_lt (f.round_le_infinity _ _) f.infinity_lt_signBit

/-- The floating-point number nearest to a decimal. -/
def toBinary (f : Format) (d : Decimal) : Binary f :=
  ⟨d.negative, magnitude f d.coefficient d.exponent, magnitude_lt_signBit f _ _⟩

end Decimal

namespace Literal

open Ascii

/-- The number that a literal denotes. -/
def decimal (l : Literal) : Decimal :=
  let fraction := l.fraction.getD []
  ⟨l.negative, numeral (l.whole ++ fraction),
    (l.exponent.elim 0 Exponent.value) - fraction.length⟩

/-- The floating-point number nearest to what a literal denotes. -/
def toBinary (f : Format) (l : Literal) : Binary f :=
  l.decimal.toBinary f

end Literal

end FlatJson
