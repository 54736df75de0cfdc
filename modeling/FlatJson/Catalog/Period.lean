import FlatJson.Catalog.Signed
import FlatJson.Catalog.TextForm

/-!
# Periods

A period is a number of years, of months and of days, which are not converted
into each other. Its text may give weeks besides, which are days, and may have a
sign in front that turns the whole round: `-P1Y2M3W4D`.
-/

namespace FlatJson

open Ascii

/-- A number of years, months and days. -/
structure Period where
  years : IntType.int32.Member
  months : IntType.int32.Member
  days : IntType.int32.Member
  deriving DecidableEq

namespace Period

/-- The period of three integers. -/
def ofParts? (years months days : Int) : Option Period := do
  let years ← IntType.int32.ofInt? years
  let months ← IntType.int32.ofInt? months
  let days ← IntType.int32.ofInt? days
  some ⟨years, months, days⟩

/-- What the text of a period says. -/
structure Parts where
  years : Option Int
  months : Option Int
  weeks : Option Int
  days : Option Int
  deriving DecidableEq, Repr

/-- Reads the text behind the sign and the letter that announces a period. -/
def scanParts? (text : Bytes) : Option Parts := do
  let (years, text) ← Component.take? 0x59 text
  let (months, text) ← Component.take? 0x4D text
  let (weeks, text) ← Component.take? 0x57 text
  let (days, text) ← Component.take? 0x44 text
  if text.isEmpty && (years.isSome || months.isSome || weeks.isSome || days.isSome) then
    some ⟨years, months, weeks, days⟩
  else none

/-- The period of the parts, turned round by a minus in front. -/
def Parts.total? (p : Parts) (negative : Bool) : Option Period := do
  let sign : Int := if negative then -1 else 1
  let weekDays ← within64? (p.weeks.getD 0 * 7)
  let days ← within64? (p.days.getD 0 + weekDays)
  let years ← within64? (p.years.getD 0 * sign)
  let months ← within64? (p.months.getD 0 * sign)
  let days ← within64? (days * sign)
  ofParts? years months days

/-- The period that a text is. -/
def ofText? (text : Bytes) : Option Period := do
  let (negative, text) := takeOuterSign text
  let text ← takeLetter? 0x50 0x70 text
  let parts ← scanParts? text
  parts.total? negative

/-- A number that is not zero, with the letter of its unit. -/
def partText (n : Int) (unit : UInt8) : Bytes :=
  if n = 0 then [] else integer n ++ [unit]

/-- The text of a period. -/
def text (p : Period) : Bytes :=
  if p.years.val = 0 ∧ p.months.val = 0 ∧ p.days.val = 0 then [0x50, zero, 0x44]
  else
    0x50 :: (partText p.years.val 0x59 ++ partText p.months.val 0x4D ++
      partText p.days.val 0x44)

def form : TextForm Period where
  what := "period"
  parse := ofText?
  text := text
  same x y := x == y

end Period

end FlatJson
