import FlatJson.Catalog.Calendar
import FlatJson.Catalog.TextForm

/-!
# Instants and date-times

An instant is a number of seconds since 1970 and of nanoseconds beyond them. A
leap second is the second before it with a second's worth of nanoseconds more, so
that it comes after all of that second and before the next. A date-time is an
instant and the offset of the clock that it was read from.

The text of a date-time is `2024-05-06T07:08:09.123+02:00`. It has four digits of
the year, or a sign and more; as many threes of digits of the fraction as are
needed, and a letter in place of an offset of zero. Reading takes any number of
digits of the fraction, and no year of other than four digits.

Behind these types stands the date library `chrono`, which keeps the instants and
writes and reads their texts, and which is not part of this development. The
definitions below follow its documentation, and this much of it is assumed:

* an instant lies between the ends of the library's range, and a leap second follows
  the last second of a minute only (`Instant.isValid`);
* an offset is less than a day either way (`OffsetDateTime.ofParts?`), and date-times
  are compared as instants, whatever their offsets (`OffsetDateTime.form`);
* a text is written with a sign before the year outside of the years 0 to 9999, with
  0, 3, 6 or 9 digits of the fraction, with 60 for a leap second, and with the offset
  rounded to minutes (`ClockTime.text`, `OffsetDateTime.offsetText`);
* a text is read with exactly four digits of the year, with a letter or a blank before
  the time of day, with 60 as a leap second, with the digits of the fraction beyond the
  ninth dropped, and with an offset of hours and minutes or a letter for none
  (`ClockTime.scan?`, `OffsetDateTime.offset?`).
-/

namespace FlatJson

open Ascii

namespace Instant

/-- The number of nanoseconds in a second. -/
def perSecond : Nat := Nat.pow 10 9

/-- The number of seconds in a day. -/
def perDay : Nat := 86400

/-- The first second that is kept. -/
def least : Int := -8334601228800

/-- The last second that is kept. -/
def most : Int := 8210266876799

/-- Whether seconds and nanoseconds make an instant. Only the last second of a
minute can be followed by a leap second. -/
def isValid (seconds : Int) (nanos : Nat) : Bool :=
  least ≤ seconds && seconds ≤ most &&
    (nanos < perSecond || (nanos < 2 * perSecond && seconds % 60 == 59))

end Instant

/-- A point in time. -/
structure Instant where
  seconds : Int
  nanos : Nat
  valid : Instant.isValid seconds nanos = true
  deriving DecidableEq

namespace Instant

/-- The instant of seconds and nanoseconds. -/
def ofParts? (seconds : Int) (nanos : Nat) : Option Instant :=
  if h : isValid seconds nanos then some ⟨seconds, nanos, h⟩ else none

/-- The earlier of two instants is the smaller one. -/
def order (x y : Instant) : Ordering :=
  (compare x.seconds y.seconds).then (compare x.nanos y.nanos)

end Instant

/-- What a clock shows: a date, and the seconds and nanoseconds of the day. -/
structure ClockTime where
  date : Calendar.Date
  hour : Nat
  minute : Nat
  second : Nat
  nanos : Nat
  deriving DecidableEq, Repr

namespace ClockTime

/-- What a clock shows at a number of seconds since 1970 on it. A leap second is
shown as the sixtieth second of its minute. -/
def ofSeconds (seconds : Int) (nanos : Nat) : ClockTime :=
  let ofDay := (seconds % Instant.perDay).toNat
  let leap := Instant.perSecond ≤ nanos
  ⟨Calendar.dateOf (seconds / Instant.perDay), ofDay / 3600, ofDay / 60 % 60,
    ofDay % 60 + (if leap then 1 else 0), if leap then nanos - Instant.perSecond else nanos⟩

/-- The text of a year: four digits, or a sign and at least four. -/
def yearText (year : Int) : Bytes :=
  if 0 ≤ year ∧ year ≤ 9999 then padded 4 year.natAbs
  else (if year < 0 then minus else plus) :: padded 4 year.natAbs

/-- The text of a fraction of a second: the fewest threes of digits. -/
def fractionText (nanos : Nat) : Bytes :=
  if nanos = 0 then []
  else if nanos % 1000000 = 0 then dot :: padded 3 (nanos / 1000000)
  else if nanos % 1000 = 0 then dot :: padded 6 (nanos / 1000)
  else dot :: padded 9 nanos

/-- The text of what a clock shows. -/
def text (c : ClockTime) : Bytes :=
  yearText c.date.year ++ minus :: padded 2 c.date.month ++ minus :: padded 2 c.date.day ++
    0x54 :: padded 2 c.hour ++ colon :: padded 2 c.minute ++ colon :: padded 2 c.second ++
    fractionText c.nanos

/-- A run of `width` digits at the front of a text, as a number. -/
def scanNumber? (width : Nat) (text : Bytes) : Option (Nat × Bytes) :=
  let ds := text.take width
  if ds.length == width && ds.all isDigit then some (numeral ds, text.drop width) else none

/-- Takes one of the bytes given off the front of a text. -/
def scanMark? (marks : Bytes) : Bytes → Option Bytes
  | [] => none
  | b :: rest => if marks.contains b then some rest else none

/-- Takes a fraction off the front of a text, if a point stands there, as
nanoseconds. Digits beyond the ninth count for nothing. -/
def scanFraction? (text : Bytes) : Option (Nat × Bytes) :=
  match scanMark? [dot] text with
  | none => some (0, text)
  | some rest =>
    match rest.takeWhile isDigit with
    | [] => none
    | ds =>
      let kept := ds.take 9
      some (numeral kept * Nat.pow 10 (9 - kept.length), rest.dropWhile isDigit)

/-- Takes a date and a time of day off the front of a text. -/
def scan? (text : Bytes) : Option (ClockTime × Bytes) := do
  let (year, text) ← scanNumber? 4 text
  let text ← scanMark? [minus] text
  let (month, text) ← scanNumber? 2 text
  let text ← scanMark? [minus] text
  let (day, text) ← scanNumber? 2 text
  let text ← scanMark? [0x54, 0x74, 0x20] text
  let (hour, text) ← scanNumber? 2 text
  let text ← scanMark? [colon] text
  let (minute, text) ← scanNumber? 2 text
  let text ← scanMark? [colon] text
  let (second, text) ← scanNumber? 2 text
  let (nanos, text) ← scanFraction? text
  if Calendar.isDate year month day && hour ≤ 23 && minute ≤ 59 && second ≤ 60 then
    some (⟨⟨year, month, day⟩, hour, minute, second, nanos⟩, text)
  else none

/-- The seconds since 1970, and the nanoseconds beyond them, that a clock shows.
The sixtieth second of a minute is a leap second. -/
def toSeconds (c : ClockTime) : Int × Nat :=
  let days := Calendar.dayNumber c.date.year c.date.month c.date.day
  let minutes := days * 1440 + (c.hour * 60 + c.minute : Nat)
  if c.second = 60 then (minutes * 60 + 59, c.nanos + Instant.perSecond)
  else (minutes * 60 + c.second, c.nanos)

end ClockTime

/-- An instant, and the offset in seconds of the clock that shows it. -/
structure OffsetDateTime where
  instant : Instant
  offset : Int
  bounded : offset.natAbs < Instant.perDay
  deriving DecidableEq

namespace OffsetDateTime

/-- The date-time of an instant on a clock. -/
def ofParts? (instant : Instant) (offset : Int) : Option OffsetDateTime :=
  if h : offset.natAbs < Instant.perDay then some ⟨instant, offset, h⟩ else none

/-- What the clock shows. -/
def clock (t : OffsetDateTime) : ClockTime :=
  .ofSeconds (t.instant.seconds + t.offset) t.instant.nanos

/-- The text of an offset, rounded to minutes: a letter for zero. -/
def offsetText (offset : Int) : Bytes :=
  if offset = 0 then [0x5A]
  else
    let minutes := (offset.natAbs + 30) / 60
    (if offset < 0 then minus else plus) ::
      (padded 2 (minutes / 60) ++ colon :: padded 2 (minutes % 60))

/-- The text of a date-time. -/
def text (t : OffsetDateTime) : Bytes :=
  t.clock.text ++ offsetText t.offset

/-- Takes the sign of an offset off the front of a text: whether it is a minus,
for which the mathematical sign may stand as well. -/
def scanSign? : Bytes → Option (Bool × Bytes)
  | 0xE2 :: 0x88 :: 0x92 :: rest => some (true, rest)
  | b :: rest =>
    if b == plus then some (false, rest)
    else if b == minus then some (true, rest)
    else none
  | [] => none

/-- The offset in seconds that a text is, from its first byte to its last. -/
def offset? (text : Bytes) : Option Int :=
  if text == [0x5A] || text == [0x7A] then some 0
  else do
    let (negative, text) ← scanSign? text
    let (hours, text) ← ClockTime.scanNumber? 2 text
    let text ← ClockTime.scanMark? [colon] text
    let (minutes, text) ← ClockTime.scanNumber? 2 text
    if text.isEmpty && minutes ≤ 59 then
      let size : Int := (hours * 60 + minutes) * 60
      some (if negative then -size else size)
    else none

/-- The date-time that a text is. -/
def ofText? (text : Bytes) : Option OffsetDateTime := do
  let (clock, text) ← ClockTime.scan? text
  let offset ← offset? text
  let (seconds, nanos) := clock.toSeconds
  let instant ← Instant.ofParts? (seconds - offset) nanos
  ofParts? instant offset

def form : TextForm OffsetDateTime where
  what := "offset date-time"
  parse := ofText?
  text := text
  same x y := x.instant == y.instant

end OffsetDateTime

namespace Instant

/-- An instant on a clock without offset. -/
def atUtc (t : Instant) : OffsetDateTime := ⟨t, 0, by decide⟩

def form : TextForm Instant where
  what := "instant"
  parse text := (OffsetDateTime.ofText? text).map OffsetDateTime.instant
  text t := t.atUtc.text
  same x y := x == y

end Instant

end FlatJson
