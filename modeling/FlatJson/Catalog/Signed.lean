import FlatJson.Number.Integer

/-!
# Signed runs of digits

The texts of durations, periods and year-months are made of runs of digits with
an optional sign, most of them followed by the letter of a unit. Their numbers
are kept within 64 bits at every step, and what leaves them is refused.
-/

namespace FlatJson

open Ascii

/-- A run of digits with the sign in front of it, if there is one. -/
structure Signed where
  sign : Option UInt8
  digits : Bytes
  deriving DecidableEq, Repr

namespace Signed

/-- Takes a signed run of digits off the front of a text. -/
def scan? (text : Bytes) : Option (Signed × Bytes) :=
  let (sign, rest) := Literal.scanSign text
  match rest.takeWhile isDigit with
  | [] => none
  | ds => some (⟨sign, ds⟩, rest.dropWhile isDigit)

/-- Whether the sign is a minus. -/
def isNegative (x : Signed) : Bool := x.sign == some minus

/-- The number that a signed run of digits denotes. -/
def value (x : Signed) : Int :=
  if x.isNegative then -(numeral x.digits : Int) else numeral x.digits

end Signed

/-- The integers of 32 bits. -/
abbrev IntType.int32 : IntType := .signed 32

/-- The integers of 64 bits. -/
abbrev IntType.int64 : IntType := .signed 64

/-- An integer, if 64 bits hold it. -/
def within64? (n : Int) : Option Int :=
  (IntType.int64.ofInt? n).map Subtype.val

/-- What is found where a component may stand. -/
inductive Component
  | absent
  | present (value : Int) (rest : Bytes)
  /-- A number too large to be kept. -/
  | excessive
  deriving DecidableEq, Repr

/-- Takes a number and the letter of its unit off the front of a text. Where the
letter is another one, the number is left for a later component. -/
def Component.scan (unit : UInt8) (text : Bytes) : Component :=
  match Signed.scan? text with
  | none => .absent
  | some (number, rest) =>
    match rest with
    | [] => .absent
    | b :: rest =>
      if b == unit then
        match within64? number.value with
        | some n => .present n rest
        | none => .excessive
      else .absent

/-- The value of a component, if it is not excessive, and the text after it. -/
def Component.take? (unit : UInt8) (text : Bytes) : Option (Option Int × Bytes) :=
  match Component.scan unit text with
  | .absent => some (none, text)
  | .present n rest => some (some n, rest)
  | .excessive => none

/-- Takes the sign of a whole text off its front: whether it is a minus, and what
follows. -/
def takeOuterSign (text : Bytes) : Bool × Bytes :=
  let (sign, rest) := Literal.scanSign text
  (sign == some minus, rest)

/-- Takes one of two letters off the front of a text. -/
def takeLetter? (upper lower : UInt8) : Bytes → Option Bytes
  | [] => none
  | b :: rest => if b == upper || b == lower then some rest else none

end FlatJson
