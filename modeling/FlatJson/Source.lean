import FlatJson.Fault

/-!
# The bytes of a document

A token knows only where it stands, so its text is always asked of the document
it stands in. A request that leaves the document is refused as a whole.
-/

namespace FlatJson

/-- The bytes that tokens point into. -/
structure Source where
  data : Array UInt8
  deriving DecidableEq, Repr

namespace Source

/-- The document that a text stores. -/
def ofBytes (bs : Bytes) : Source := ⟨bs.toArray⟩

/-- The number of bytes. -/
def limit (s : Source) : Nat := s.data.size

/-- All the bytes. -/
def toBytes (s : Source) : Bytes := s.data.toList

/-- The `count` bytes at `offset`. -/
def getBytes (s : Source) (offset count : Nat) : Except OutOfBounds Bytes :=
  if offset + count ≤ s.limit then .ok (s.data.extract offset (offset + count)).toList
  else .error ⟨offset, count, s.limit⟩

/-- The text of a token. -/
def textOf (s : Source) (t : Token) : Except OutOfBounds Bytes :=
  s.getBytes t.start t.length

/-- The start of the text of a token, as much of it as a fault may show. A token
that does not lie in the document has none. -/
def startOf (s : Source) (t : Token) : Bytes :=
  match s.getBytes t.start (min t.length (excerptLimit + longestTail)) with
  | .ok text => text
  | .error _ => []

/-- The same as a text. -/
def tokenText (s : Source) (t : Token) : String :=
  Utf8.lossyString (s.startOf t)

/-- The fault of a token that stands where something else was asked for. -/
def mismatch (s : Source) (what : String) (t : Token) : ReadFault :=
  .of (.mismatch what t.kind) (s.startOf t) t.start

end Source

end FlatJson
