import FlatJson.Scalar
import FlatJson.Tape

/-!
# Walking a tape

A cursor stands between two tokens of a tape. Reading takes the next token
first and looks at it afterwards, so that a cursor moves on even where a token
is not the one that was wanted; only at the end of the tape there is nothing to
take, and the cursor stays. `Decoder` is what is done with a cursor: it leaves
one behind whether it succeeds or not.
-/

namespace FlatJson

/-- A place on a tape: how many tokens lie before it, and which lie after. -/
structure Cursor where
  source : Source
  position : Nat
  rest : List Token
  deriving Repr

/-- Something read with a cursor. -/
abbrev Decoder (α : Type) := EStateM Fault Cursor α

/-- A cursor before the first token of a tape. -/
def Tape.cursor (tape : Tape) (source : Source) : Cursor :=
  ⟨source, 0, tape.tokens⟩

namespace Cursor

/-- The number of tokens of the tape. -/
def size (c : Cursor) : Nat := c.position + c.rest.length

/-- The number of tokens after the cursor. -/
def remaining (c : Cursor) : Nat := c.rest.length

def atEnd (c : Cursor) : Bool := c.rest.isEmpty

/-- The fault of asking for a token where there is none. -/
def exhausted (c : Cursor) : Fault :=
  .bounds ⟨c.position, 1, c.size⟩

/-- The next token, without taking it. -/
def peek (c : Cursor) : Except Fault Token :=
  match c.rest with
  | [] => .error c.exhausted
  | t :: _ => .ok t

/-- Takes tokens until none of `pending` values is left to be passed over, where
a container adds the entries that it owns. -/
def passOver (pending position : Nat) : List Token → Nat × Nat × List Token
  | [] => (pending, position, [])
  | t :: rest =>
    match pending with
    | 0 => (0, position, t :: rest)
    | n + 1 => passOver (n + t.ownedEntries) (position + 1) rest

end Cursor

namespace Decoder

/-- The next token, without taking it. -/
def peek : Decoder Token := do
  match (← get).peek with
  | .ok t => return t
  | .error fault => throw fault

/-- Takes the next token. -/
def next : Decoder Token := do
  let c ← get
  match c.rest with
  | [] => throw c.exhausted
  | t :: rest =>
    set { c with position := c.position + 1, rest := rest }
    return t

/-- Takes the next token and reads it. -/
def scalar {α : Type} (read : Source → Token → Except Fault α) : Decoder α := do
  let t ← next
  match read (← get).source t with
  | .ok x => return x
  | .error fault => throw fault

def bool : Decoder Bool := scalar Scalar.bool

def null : Decoder Unit := scalar Scalar.null

def float (f : Format) : Decoder (Binary f) := scalar (Scalar.float f)

def integer (t : IntType) : Decoder t.Member := scalar (Scalar.integer t)

def string : Decoder String := scalar Scalar.string

/-- The name of a member, which is a string like any other. -/
def key : Decoder String := string

/-- Takes the token of an object; the result is the number of its members. -/
def beginObject : Decoder Nat := scalar (Scalar.children .object)

/-- Takes the token of an array; the result is the number of its elements. -/
def beginArray : Decoder Nat := scalar (Scalar.children .array)

/-- Whether the next value is null. -/
def isNull : Decoder Bool := do
  return (← peek).kind == .null

/-- Passes over one token, whatever it is. -/
def skipElement : Decoder Unit := do
  let _ ← next
  return ()

/-- Passes over one value with all that belongs to it. -/
def skipValue : Decoder Unit := do
  let c ← get
  let (pending, position, rest) := Cursor.passOver 1 c.position c.rest
  let c := { c with position := position, rest := rest }
  set c
  if pending = 0 then return () else throw c.exhausted

/-- Asks that all tokens have been taken. -/
def expectEnd : Decoder Unit := do
  let c ← get
  match c.rest with
  | [] => return ()
  | t :: _ =>
    throw (.read (.of .unconsumed (Utf8.ofString (c.source.tokenText t)) t.start))

/-- Reads `count` values, one after the other, onto those read before, of which
the last comes first. -/
def repeatOnto {α : Type} (read : Decoder α) (acc : List α) : Nat → Decoder (List α)
  | 0 => return acc.reverse
  | count + 1 => do
    let x ← read
    repeatOnto read (x :: acc) count

end Decoder

end FlatJson
