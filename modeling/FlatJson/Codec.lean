import FlatJson.Cursor
import FlatJson.Number.Shortest
import FlatJson.Number.Store
import FlatJson.Tape.Tokenize

/-!
# Codecs

A codec reads values of a type off a cursor and writes them piece by piece. A
reader takes the tokens of one value and no others. Codecs of larger types are
put together from those of smaller ones: an optional value is null or a value,
and a list is an array of values.
-/

namespace FlatJson

/-- How values of a type are read and written. -/
structure Codec (α : Type) where
  decode : Decoder α
  emit : α → Emission

namespace Emission

/-- The word for nothing. -/
def null : Emission := raw [0x6E, 0x75, 0x6C, 0x6C]

/-- The word for a truth value. -/
def bool (b : Bool) : Emission :=
  raw (if b then [0x74, 0x72, 0x75, 0x65] else [0x66, 0x61, 0x6C, 0x73, 0x65])

/-- The numeral of a magnitude, with a minus in front if it is asked for. It is put together in a
store, which every number of 128 bits fits into; one that does not fit is written as the list of
its digits. -/
def magnitude (n : Nat) (negative : Bool) : Emission :=
  match NumeralStore.ofMagnitude? n negative with
  | some s => raw s.text
  | none => raw ((if negative then [Ascii.minus] else []) ++ Ascii.digits n)

/-- The numeral of an integer. -/
def integer (n : Int) : Emission := magnitude n.natAbs (decide (n < 0))

/-- The numeral of a floating-point number, if it has one. -/
def float {f : Format} (x : Binary f) : Emission :=
  if x.isFinite then raw x.text else [.nonFinite x.nonFiniteName]

/-- A string with its quotes and escapes. -/
def string (s : String) : Emission := Escape.emit (Utf8.ofString s)

/-- An array of the elements given. -/
def array (elements : List Emission) : Emission :=
  byte Ascii.openBracket ++ (separated elements ++ byte Ascii.closeBracket)

/-- A member: its name, a colon, its value. -/
def member (name : String) (value : Emission) : Emission :=
  string name ++ (byte Ascii.colon ++ value)

/-- An object of the members given. -/
def object (members : List Emission) : Emission :=
  byte Ascii.openBrace ++ (separated members ++ byte Ascii.closeBrace)

end Emission

namespace Codec

def bool : Codec Bool := ⟨Decoder.bool, Emission.bool⟩

def unit : Codec Unit := ⟨Decoder.null, fun _ => Emission.null⟩

def integer (t : IntType) : Codec t.Member :=
  ⟨Decoder.integer t, fun n => Emission.integer n.val⟩

def float (f : Format) : Codec (Binary f) := ⟨Decoder.float f, Emission.float⟩

def string : Codec String := ⟨Decoder.string, Emission.string⟩

/-- Null stands for no value. -/
def option {α : Type} (c : Codec α) : Codec (Option α) where
  decode := do
    if ← Decoder.isNull then
      Decoder.null
      return none
    else
      return some (← c.decode)
  emit
    | none => Emission.null
    | some x => c.emit x

/-- As many values as the array has elements. -/
def list {α : Type} (c : Codec α) : Codec (List α) where
  decode := do
    let count ← Decoder.beginArray
    Decoder.repeatOnto c.decode [] count
  emit xs := Emission.array (xs.map c.emit)

/-- The first element of an array. The others are left where they are. -/
def first {α : Type} (c : Codec α) : Codec α where
  decode := do
    let _ ← Decoder.beginArray
    c.decode
  emit := c.emit

/-- Reads a tape as one value, which has to take all of it. -/
def ofTape {α : Type} (c : Codec α) (tape : Tape) (source : Source) : Except Fault α :=
  let whole : Decoder α := do
    let x ← c.decode
    Decoder.expectEnd
    return x
  match whole.run (tape.cursor source) with
  | .ok x _ => .ok x
  | .error fault _ => .error fault

/-- Reads a document as one value. -/
def ofSource {α : Type} (c : Codec α) (limits : Limits) (source : Source) : Except Fault α :=
  match Tape.ofSource limits source with
  | .error fault => .error (.read fault)
  | .ok tape => c.ofTape tape source

/-- Reads a text as one value. -/
def ofBytes {α : Type} (c : Codec α) (text : Bytes) : Except Fault α :=
  c.ofSource {} (.ofBytes text)

/-- The bytes of a value. -/
def toBytes {α : Type} (c : Codec α) (x : α) : Except Fault Bytes :=
  (c.emit x).toBytes

/-- The text of a value. -/
def toText {α : Type} (c : Codec α) (x : α) : Except Fault String :=
  (c.emit x).toText

end Codec

end FlatJson
