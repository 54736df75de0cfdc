/-!
# Tokens

A token is one entry of a tape: what it is, where it stands in the document and
how many children it has. Spans are half open. A string's span is the raw text
between its quotes, a container's span runs from the opening delimiter to just
past the closing one, and every other span is the literal text.
-/

namespace FlatJson

/-- What a token is. The two booleans are kinds of their own. -/
inductive Kind
  | object
  | array
  | string
  | number
  | yes
  | no
  | null
  deriving DecidableEq, Repr, Inhabited

namespace Kind

/-- The word for a kind in messages and reports. -/
def name : Kind → String
  | object => "object"
  | array => "array"
  | string => "string"
  | number => "number"
  | yes => "true"
  | no => "false"
  | null => "null"

/-- Objects and arrays contain other tokens. -/
def isContainer : Kind → Bool
  | object | array => true
  | _ => false

end Kind

/-- One entry of a tape. `count` is the number of elements of an array, the
number of members of an object, and zero for every other kind. -/
structure Token where
  kind : Kind
  start : Nat
  stop : Nat
  count : Nat
  deriving DecidableEq, Repr, Inhabited

namespace Token

/-- The largest count of entries that a tape can speak of. -/
def maxEntries : Nat := Nat.pow 2 64 - 1

/-- A token without children. -/
def scalar (kind : Kind) (start stop : Nat) : Token :=
  ⟨kind, start, stop, 0⟩

/-- The length of the span. -/
def length (t : Token) : Nat :=
  t.stop - t.start

/-- The number of tape entries that this token owns directly: one for an
element, and two, a name and a value, for a member. -/
def ownedEntries (t : Token) : Nat :=
  match t.kind with
  | .object => min (2 * t.count) maxEntries
  | .array => t.count
  | _ => 0

end Token

end FlatJson
