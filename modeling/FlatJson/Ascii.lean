/-!
# Bytes and their ASCII classes

A document is a list of bytes. Every byte that the grammar names is an ASCII
byte, so the classes used by the readers below are predicates on single bytes,
and a decimal numeral is read and written byte by byte.

`numeral ds` is the number that a run of digits denotes and `digits n` is the
canonical run that denotes `n`: no leading zero, and one digit for zero.
-/

namespace FlatJson

/-- A piece of a document, as it is stored. -/
abbrev Bytes := List UInt8

namespace Ascii

abbrev quote : UInt8 := 0x22
abbrev plus : UInt8 := 0x2B
abbrev comma : UInt8 := 0x2C
abbrev minus : UInt8 := 0x2D
abbrev dot : UInt8 := 0x2E
abbrev zero : UInt8 := 0x30
abbrev colon : UInt8 := 0x3A
abbrev openBracket : UInt8 := 0x5B
abbrev backslash : UInt8 := 0x5C
abbrev closeBracket : UInt8 := 0x5D
abbrev openBrace : UInt8 := 0x7B
abbrev closeBrace : UInt8 := 0x7D

/-- The blanks allowed around every token: space, tab, line feed and carriage
return. -/
def isBlank (b : UInt8) : Bool :=
  b == 0x20 || b == 0x09 || b == 0x0A || b == 0x0D

/-- A decimal digit. -/
def isDigit (b : UInt8) : Bool :=
  0x30 ≤ b && b ≤ 0x39

/-- A letter, of either case. -/
def isLetter (b : UInt8) : Bool :=
  (0x41 ≤ b && b ≤ 0x5A) || (0x61 ≤ b && b ≤ 0x7A)

/-- The bytes that may not stand unescaped inside a string. -/
def isControl (b : UInt8) : Bool :=
  b < 0x20

/-- The mark of an exponent, in either case. -/
def isExponentMark (b : UInt8) : Bool :=
  b == 0x65 || b == 0x45

/-- The value of a hexadecimal digit of either case. -/
def hexValue? (b : UInt8) : Option Nat :=
  if isDigit b then some (b.toNat - 0x30)
  else if 0x41 ≤ b && b ≤ 0x46 then some (b.toNat - 0x41 + 10)
  else if 0x61 ≤ b && b ≤ 0x66 then some (b.toNat - 0x61 + 10)
  else none

/-- The hexadecimal digit, in capitals, of a value below sixteen. -/
def hexDigit (n : Nat) : UInt8 :=
  if n < 10 then UInt8.ofNat (0x30 + n) else UInt8.ofNat (0x41 + (n - 10))

/-- The decimal digit of a value below ten. -/
def digit (n : Nat) : UInt8 :=
  UInt8.ofNat (0x30 + n)

/-- The value of a decimal digit. -/
def digitValue (b : UInt8) : Nat :=
  b.toNat - 0x30

/-- The number that a run of decimal digits denotes. -/
def numeral (ds : Bytes) : Nat :=
  ds.foldl (fun n b => 10 * n + digitValue b) 0

/-- The decimal digits of `n`, written in front of `tail` from the last digit
to the first. -/
def digitsOnto (n : Nat) (tail : Bytes) : Bytes :=
  if n < 10 then digit n :: tail
  else digitsOnto (n / 10) (digit (n % 10) :: tail)
termination_by n
decreasing_by omega

/-- The canonical decimal digits of `n`. -/
def digits (n : Nat) : Bytes :=
  digitsOnto n []

/-- The canonical decimal text of an integer. -/
def integer (n : Int) : Bytes :=
  if n < 0 then minus :: digits n.natAbs else digits n.natAbs

/-- The digits of `n`, with zeros in front up to `width` places. -/
def padded (width n : Nat) : Bytes :=
  List.replicate (width - (digits n).length) zero ++ digits n

end Ascii

end FlatJson
