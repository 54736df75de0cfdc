import FlatJson.Catalog.Instant
import FlatJson.Catalog.ZoneId

/-!
# Date-times with a zone

A zoned date-time is a date-time followed by the name of a zone in brackets, if
it has one.
-/

namespace FlatJson

open Ascii

/-- A date-time and perhaps a zone. -/
structure ZonedDateTime where
  dateTime : OffsetDateTime
  zone : Option ZoneId
  deriving DecidableEq

namespace ZonedDateTime

/-- The text of a zoned date-time. -/
def text (t : ZonedDateTime) : Bytes :=
  t.dateTime.text ++
    t.zone.elim [] fun zone => openBracket :: zone.name ++ [closeBracket]

/-- The text before the first opening bracket and the text between it and a
closing bracket at the very end. -/
def splitZone? (text : Bytes) : Option (Bytes × Bytes) :=
  if text.getLast? == some closeBracket then
    let inner := text.dropLast
    match inner.dropWhile (· != openBracket) with
    | [] => none
    | _ :: zone => some (inner.takeWhile (· != openBracket), zone)
  else none

/-- The zoned date-time that a text is. -/
def ofText? (text : Bytes) : Option ZonedDateTime :=
  match splitZone? text with
  | some (dateTime, zone) => do
    let zone ← ZoneId.ofText? zone
    let dateTime ← OffsetDateTime.ofText? dateTime
    some ⟨dateTime, some zone⟩
  | none => do
    let dateTime ← OffsetDateTime.ofText? text
    some ⟨dateTime, none⟩

def form : TextForm ZonedDateTime where
  what := "zoned date-time"
  parse := ofText?
  text := text
  same x y := OffsetDateTime.form.same x.dateTime y.dateTime && x.zone == y.zone

end ZonedDateTime

end FlatJson
