import FlatJson.Number.Literal

/-!
# Integers of a given width

An integer type is a number of bits, with or without a sign, and its members are
the integers in its range. An unsigned type admits no minus, not even before a
zero.
-/

namespace FlatJson

/-- A type of integers. -/
inductive IntType
  | signed (bits : Nat)
  | unsigned (bits : Nat)
  deriving DecidableEq, Repr

namespace IntType

/-- The smallest member. -/
def least : IntType → Int
  | signed bits => -(Nat.pow 2 (bits - 1) : Nat)
  | unsigned _ => 0

/-- The largest member. -/
def most : IntType → Int
  | signed bits => (Nat.pow 2 (bits - 1) : Nat) - 1
  | unsigned bits => (Nat.pow 2 bits : Nat) - 1

def isUnsigned : IntType → Bool
  | signed _ => false
  | unsigned _ => true

/-- The members of the type. -/
def Member (t : IntType) : Type := { n : Int // t.least ≤ n ∧ n ≤ t.most }

instance (t : IntType) : DecidableEq t.Member :=
  inferInstanceAs (DecidableEq { n : Int // t.least ≤ n ∧ n ≤ t.most })

/-- The member that an integer is, if it is one. -/
def ofInt? (t : IntType) (n : Int) : Option t.Member :=
  if h : t.least ≤ n ∧ n ≤ t.most then some ⟨n, h⟩ else none

end IntType

namespace Literal

open Ascii

/-- The integer that a literal without fraction and exponent denotes. -/
def integer (l : Literal) : Int :=
  if l.negative then -(numeral l.whole : Int) else numeral l.whole

/-- The member of an integer type that a literal without fraction and exponent
denotes. -/
def member? (t : IntType) (l : Literal) : Option t.Member :=
  if t.isUnsigned && l.negative then none else t.ofInt? l.integer

end Literal

end FlatJson
