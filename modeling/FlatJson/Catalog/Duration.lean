import FlatJson.Catalog.Signed
import FlatJson.Catalog.TextForm

/-!
# Durations

A duration is a number of nanoseconds. Its text gives days, hours, minutes and
seconds, each with a sign of its own, and a sign in front that turns the whole
round: `-P1DT2H3.5S`. It is written with hours, minutes and seconds only, all of
the sign of the duration.

The number of nanoseconds is kept by the date library `chrono`, of which its
documented range is assumed (`Duration.bound`), and that whole seconds and
nanoseconds beyond them, of which there are less than a second's, make a duration if
their sum is in it (`Duration.ofParts?`). The text is not the library's.
-/

namespace FlatJson

open Ascii

namespace Duration

/-- The number of nanoseconds in a second. -/
def perSecond : Nat := Nat.pow 10 9

/-- The largest number of nanoseconds of a duration: as many milliseconds as 64
bits can count, and no more. -/
def bound : Nat := (Nat.pow 2 63 - 1) * Nat.pow 10 6

end Duration

/-- A length of time, counted in nanoseconds. -/
structure Duration where
  nanoseconds : Int
  bounded : nanoseconds.natAbs ≤ Duration.bound
  deriving DecidableEq

namespace Duration

/-- The duration of a number of nanoseconds. -/
def ofNanoseconds? (n : Int) : Option Duration :=
  if h : n.natAbs ≤ bound then some ⟨n, h⟩ else none

/-- The duration of whole seconds and of the nanoseconds beyond them. -/
def ofParts? (seconds : Int) (nanos : Nat) : Option Duration :=
  if nanos < perSecond then ofNanoseconds? (seconds * perSecond + nanos) else none

/-- The whole seconds of a duration, rounded down. -/
def seconds (d : Duration) : Int := d.nanoseconds / perSecond

/-- The nanoseconds beyond the whole seconds. -/
def nanos (d : Duration) : Nat := (d.nanoseconds % perSecond).toNat

/-- The same length of time the other way round. -/
def negate (d : Duration) : Duration :=
  ⟨-d.nanoseconds, by rw [Int.natAbs_neg]; exact d.bounded⟩

/-- The nanoseconds of the digits of a fraction, of which there are nine at
most. -/
def fraction? (ds : Bytes) : Option Nat :=
  if ds.length ≤ 9 then some (numeral ds * Nat.pow 10 (9 - ds.length)) else none

/-- The seconds in a text: a number, perhaps a fraction, and the unit. -/
structure SecondsPart where
  whole : Signed
  fraction : Bytes
  deriving DecidableEq, Repr

/-- Takes the fraction of the seconds off the front of a text, if a point or a
comma stands there. -/
def scanFraction : Bytes → Bytes × Bytes
  | [] => ([], [])
  | b :: rest =>
    if b == dot || b == comma then (rest.takeWhile isDigit, rest.dropWhile isDigit)
    else ([], b :: rest)

/-- Takes the seconds off the front of a text, if a number stands there. A number
that stands there has to be that of the seconds. -/
def scanSeconds? (text : Bytes) : Option (Option SecondsPart × Bytes) :=
  match Signed.scan? text with
  | none => some (none, text)
  | some (whole, rest) =>
    let (fraction, rest) := scanFraction rest
    match rest with
    | [] => none
    | b :: rest => if b == 0x53 then some (some ⟨whole, fraction⟩, rest) else none

/-- What the text of a duration says. -/
structure Parts where
  days : Option Int
  hours : Option Int
  minutes : Option Int
  seconds : Option SecondsPart
  deriving DecidableEq, Repr

/-- Reads the part of the text after the letter that announces a time of day. -/
def scanTime? (days : Option Int) (text : Bytes) : Option Parts := do
  let (hours, text) ← Component.take? 0x48 text
  let (minutes, text) ← Component.take? 0x4D text
  let (seconds, text) ← scanSeconds? text
  if text.isEmpty && (hours.isSome || minutes.isSome || seconds.isSome) then
    some ⟨days, hours, minutes, seconds⟩
  else none

/-- Reads the text behind the sign and the letter that announces a duration. -/
def scanParts? (text : Bytes) : Option Parts := do
  let (days, text) ← Component.take? 0x44 text
  match takeLetter? 0x54 0x74 text with
  | some time => scanTime? days time
  | none => if text.isEmpty && days.isSome then some ⟨days, none, none, none⟩ else none

/-- Adds an amount of some unit to the seconds so far. -/
def addScaled? (total amount : Int) (scale : Nat) : Option Int := do
  let scaled ← within64? (amount * scale)
  within64? (scaled + total)

/-- The duration of the parts. A fraction has the sign that is written on the
seconds; a negative one borrows a second. -/
def Parts.total? (p : Parts) : Option Duration := do
  let whole ← match p.seconds with
    | none => some 0
    | some s => within64? s.whole.value
  let fraction ← match p.seconds with
    | none => some 0
    | some s => fraction? s.fraction
  let total ← addScaled? 0 (p.days.getD 0) 86400
  let total ← addScaled? total (p.hours.getD 0) 3600
  let total ← addScaled? total (p.minutes.getD 0) 60
  let total ← addScaled? total whole 1
  if (p.seconds.any fun s => s.whole.isNegative) && 0 < fraction then
    let total ← within64? (total - 1)
    ofParts? total (perSecond - fraction)
  else ofParts? total fraction

/-- The duration that a text is. -/
def ofText? (text : Bytes) : Option Duration := do
  let (negative, text) := takeOuterSign text
  let text ← takeLetter? 0x50 0x70 text
  let parts ← scanParts? text
  let d ← parts.total?
  some (if negative then d.negate else d)

/-- A number that is not zero, with a sign and the letter of its unit. -/
def partText (sign : Bytes) (n : Nat) (unit : UInt8) : Bytes :=
  if n = 0 then [] else sign ++ digits n ++ [unit]

/-- The digits of a fraction of a second, without zeros at the end. -/
def fractionText (nanos : Nat) : Bytes :=
  if nanos = 0 then []
  else dot :: ((padded 9 nanos).reverse.dropWhile (· == zero)).reverse

/-- The text of a duration. -/
def text (d : Duration) : Bytes :=
  let size := d.nanoseconds.natAbs
  if size = 0 then [0x50, 0x54, zero, 0x53]
  else
    let sign := if d.nanoseconds < 0 then [minus] else []
    let total := size / perSecond
    let nanos := size % perSecond
    let seconds := total % 60
    [0x50, 0x54] ++ partText sign (total / 3600) 0x48 ++
      partText sign (total % 3600 / 60) 0x4D ++
      (if seconds = 0 ∧ nanos = 0 then []
        else sign ++ digits seconds ++ fractionText nanos ++ [0x53])

def form : TextForm Duration where
  what := "duration"
  parse := ofText?
  text := text
  same x y := x.nanoseconds == y.nanoseconds

/-- The shorter of two durations is the smaller one. -/
def order (x y : Duration) : Ordering := compare x.nanoseconds y.nanoseconds

end Duration

end FlatJson
