import FlatJson.Ascii

/-!
# Numerals that are put together from the back

The digits of a number are found from the last to the first. Each is put into a store in front of
the one before it, and a minus in front of them all, so that the numeral is what the store holds
from the byte on that was put in last. A store has forty bytes: the largest number of 128 bits has
thirty-nine digits, and there may be a minus. A full store takes no further byte.
-/

namespace FlatJson

open Ascii

/-- The number of bytes of a store. -/
def NumeralStore.capacity : Nat := 40

/-- Bytes that are filled in from the back. -/
structure NumeralStore where
  bytes : Vector UInt8 NumeralStore.capacity
  /-- The place of the byte that was put in last. -/
  start : Nat
  start_le : start ≤ NumeralStore.capacity
  deriving DecidableEq

namespace NumeralStore

/-- A store that nothing has been put into. -/
def blank : NumeralStore :=
  ⟨Vector.replicate capacity 0, capacity, Nat.le_refl capacity⟩

/-- Puts a byte in front of the others, if there is room for it. -/
def put? (s : NumeralStore) (b : UInt8) : Option NumeralStore :=
  match s with
  | ⟨_, 0, _⟩ => none
  | ⟨bytes, place + 1, h⟩ => some ⟨bytes.set place b h, place, Nat.le_of_succ_le h⟩

/-- Puts the digits of a number in front, the last digit first. -/
def putDigits? (s : NumeralStore) (n : Nat) : Option NumeralStore :=
  match s.put? (digit (n % 10)) with
  | none => none
  | some s => if n / 10 = 0 then some s else s.putDigits? (n / 10)
termination_by n
decreasing_by omega

/-- The store of a numeral: the digits of a number, and a minus if it is asked for. -/
def ofMagnitude? (n : Nat) (negative : Bool) : Option NumeralStore :=
  match blank.putDigits? n with
  | none => none
  | some s => if negative then s.put? minus else some s

/-- What has been put into a store. -/
def text (s : NumeralStore) : Bytes :=
  s.bytes.toList.drop s.start

end NumeralStore

end FlatJson
