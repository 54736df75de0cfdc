import FlatJson.Number.Decimal

/-!
# The shortest numeral of a floating-point number

Among the decimals that read back as a number, the one with the fewest digits is
written, and of those the one nearest to the number, a tie going up. On each grid
of decimals of some number of digits only the two neighbours of the number need
be tried. Whether one reads back is asked of the reader itself, and if no short
grid has one, the number is written out in full.

How the digits are laid out is fixed by `NumeralStyle`.
-/

namespace FlatJson

/-- A numeral without a sign: `coefficient * 10 ^ exponent`. -/
structure Digits where
  coefficient : Nat
  exponent : Int
  deriving DecidableEq, Repr

namespace Digits

/-- The same number without zeros at the end of the coefficient. -/
def trimmed (coefficient : Nat) (exponent : Int) : Digits :=
  if coefficient = 0 then ⟨0, 0⟩
  else if coefficient % 10 = 0 then trimmed (coefficient / 10) (exponent + 1)
  else ⟨coefficient, exponent⟩
termination_by coefficient
decreasing_by omega

/-- The exponent of the largest power of ten that is at most a ratio. The first
guess, from the power of two, is off by one at most. -/
def floorLog10 (num den : Nat) : Int :=
  let guess := Format.floorLog2 num den * 30103 / 100000
  let reaches (e : Int) : Bool :=
    let (n, d) := Ratio.dividePower 10 num den e
    d ≤ n
  if reaches (guess + 1) then guess + 1
  else if reaches guess then guess
  else guess - 1

/-- The neighbour of a ratio on the grid of step `10 ^ exponent` that reads back
as the magnitude `m`: the nearer one if both do. -/
def onGrid? (f : Format) (m num den : Nat) (exponent : Int) : Option Digits :=
  let (n, d) := Ratio.dividePower 10 num den exponent
  let below := n / d
  let r := n % d
  let hits (c : Nat) : Bool := Decimal.magnitude f c exponent == m
  if hits below && (2 * r < d || !hits (below + 1)) then some (trimmed below exponent)
  else if hits (below + 1) then some (trimmed (below + 1) exponent)
  else none

/-- Tries the grids of `used + 1`, `used + 2`, … digits, `tries` of them. -/
def search (f : Format) (m num den : Nat) (lead : Int) (used : Nat) : Nat → Option Digits
  | 0 => none
  | tries + 1 =>
    match onGrid? f m num den (lead - used) with
    | some ds => some ds
    | none => search f m num den lead (used + 1) tries

/-- The number of digits within which every number of the format has a numeral. -/
def enough (f : Format) : Nat :=
  f.precision * 30103 / 100000 + 2

/-- All the digits of `significand * 2 ^ exponent`. -/
def full (significand : Nat) (exponent : Int) : Digits :=
  if 0 ≤ exponent then trimmed (significand * Nat.pow 2 exponent.toNat) 0
  else trimmed (significand * Nat.pow 5 (-exponent).toNat) exponent

/-- The shortest numeral of a finite number, without its sign. -/
def shortest {f : Format} (x : Binary f) : Digits :=
  if x.magnitude = 0 then ⟨0, 0⟩
  else
    let (num, den) := x.ratio
    let lead := floorLog10 num den
    (search f x.magnitude num den lead 0 (enough f)).getD (full x.significand x.exponent)

end Digits

/-- How numerals are laid out: without an exponent if the first digit stands for
a power of ten from `least` up to `most`, and with one otherwise. -/
structure NumeralStyle where
  least : Int
  most : Int
  deriving DecidableEq, Repr

/-- Numbers from a ten-thousandth up to ten quadrillion have no exponent. -/
def NumeralStyle.standard : NumeralStyle := ⟨-4, 15⟩

namespace Digits

open Ascii

/-- A numeral without an exponent: at least one digit stands on either side of
the point. -/
def positional (ds : Bytes) (point : Int) : Bytes :=
  if point ≤ 0 then zero :: dot :: (List.replicate (-point).toNat zero ++ ds)
  else
    let whole := point.toNat
    if ds.length ≤ whole then ds ++ List.replicate (whole - ds.length) zero ++ [dot, zero]
    else ds.take whole ++ dot :: ds.drop whole

/-- A numeral with one digit before the point and an exponent. -/
def scientific (ds : Bytes) (lead : Int) : Bytes :=
  let mantissa := match ds with
    | [] => []
    | [d] => [d]
    | d :: rest => d :: dot :: rest
  mantissa ++ 0x65 :: integer lead

/-- The text of a numeral. -/
def text (style : NumeralStyle) (d : Digits) : Bytes :=
  if d.coefficient = 0 then [zero, dot, zero]
  else
    let ds := digits d.coefficient
    let point := ds.length + d.exponent
    if style.least ≤ point - 1 ∧ point - 1 ≤ style.most then positional ds point
    else scientific ds (point - 1)

end Digits

/-- The text of a finite number: the shortest numeral that reads back as it. -/
def Binary.text {f : Format} (x : Binary f) : Bytes :=
  (if x.negative then [Ascii.minus] else []) ++ (Digits.shortest x).text .standard

end FlatJson
