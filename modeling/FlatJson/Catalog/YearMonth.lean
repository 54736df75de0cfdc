import FlatJson.Catalog.Signed
import FlatJson.Catalog.TextForm

/-!
# Months of a year

A year-month is a year of 32 bits and one of its twelve months. The year is
written with four digits at least, the month with two.
-/

namespace FlatJson

open Ascii

/-- A month of a year. -/
structure YearMonth where
  year : IntType.int32.Member
  month : Nat
  isMonth : 1 ≤ month ∧ month ≤ 12
  deriving DecidableEq

namespace YearMonth

/-- The year-month of a year and a month. -/
def ofParts? (year : Int) (month : Nat) : Option YearMonth := do
  let year ← IntType.int32.ofInt? year
  if h : 1 ≤ month ∧ month ≤ 12 then some ⟨year, month, h⟩ else none

/-- The year that a text is: a signed run of four digits or more. -/
def year? (text : Bytes) : Option Int :=
  match Signed.scan? text with
  | some (year, []) => if 4 ≤ year.digits.length then some year.value else none
  | _ => none

/-- The year-month that a text is. The last three bytes are the dash and the two
digits of the month. -/
def ofText? (text : Bytes) : Option YearMonth :=
  match text.reverse with
  | b :: a :: dash :: year =>
    if dash == minus && isDigit a && isDigit b then do
      let year ← year? year.reverse
      ofParts? year (numeral [a, b])
    else none
  | _ => none

/-- The text of a year, with four digits at least. -/
def yearText (year : Int) : Bytes :=
  (if year < 0 then [minus] else []) ++ padded 4 year.natAbs

/-- The text of a year-month. -/
def text (m : YearMonth) : Bytes :=
  yearText m.year.val ++ minus :: padded 2 m.month

def form : TextForm YearMonth where
  what := "year-month"
  parse := ofText?
  text := text
  same x y := x.year.val == y.year.val && x.month == y.month

/-- The earlier of two year-months is the smaller one. -/
def order (x y : YearMonth) : Ordering :=
  (compare x.year.val y.year.val).then (compare x.month y.month)

end YearMonth

end FlatJson
