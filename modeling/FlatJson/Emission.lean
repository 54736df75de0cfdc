import FlatJson.Sink

/-!
# What is written, piece by piece

Writing a value is a finite list of pieces, which a sink then takes one after
the other. Each piece goes into the sink as a whole or not at all, and the first
one that does not go ends the writing; what went in before it stays. A number
that has no numeral is a piece that no sink takes.
-/

namespace FlatJson

/-- One write. -/
inductive Piece
  | bytes (bs : Bytes)
  /-- In place of a numeral: the name of a number that has none. -/
  | nonFinite (name : String)
  deriving DecidableEq, Repr

/-- The writes that make up the text of a value. -/
abbrev Emission := List Piece

namespace Sink

/-- Takes one piece. -/
def put (s : Sink) : Piece → Except Fault Unit × Sink
  | .bytes bs =>
    match s.write bs with
    | (.ok (), s) => (.ok (), s)
    | (.error e, s) => (.error (.bounds e), s)
  | .nonFinite name => (.error (.write (.of .nonFinite (Utf8.ofString name) s.offset)), s)

/-- Takes the pieces of an emission up to the first that does not go. -/
def accept (s : Sink) : Emission → Except Fault Unit × Sink
  | [] => (.ok (), s)
  | piece :: rest =>
    match s.put piece with
    | (.ok (), s) => accept s rest
    | (.error fault, s) => (.error fault, s)

end Sink

namespace Emission

/-- One write of some bytes. -/
def raw (bs : Bytes) : Emission := [.bytes bs]

/-- One write of one byte. -/
def byte (b : UInt8) : Emission := [.bytes [b]]

/-- The bytes of an emission, where all of it can be written. -/
def toBytes (e : Emission) : Except Fault Bytes :=
  match Sink.empty.accept e with
  | (.ok (), s) => .ok s.written
  | (.error fault, _) => .error fault

/-- The text of an emission, where all of it can be written and is UTF-8. -/
def toText (e : Emission) : Except Fault String :=
  match e.toBytes with
  | .error fault => .error fault
  | .ok bs =>
    match Utf8.toString? bs with
    | some s => .ok s
    | none =>
      .error (.write (.of .invalidUtf8 (Utf8.ofString (Utf8.lossyString bs))
        (Utf8.soundLength bs)))

/-- The elements of a container, with a comma between any two of them. -/
def separated : List Emission → Emission
  | [] => []
  | [e] => e
  | e :: rest => e ++ (byte Ascii.comma ++ separated rest)

end Emission

end FlatJson
