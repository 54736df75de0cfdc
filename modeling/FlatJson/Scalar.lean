import FlatJson.Number.Decimal
import FlatJson.Number.Integer
import FlatJson.Source
import FlatJson.Text.Escape

/-!
# Reading scalars

A scalar is read off its token and the document that the token points into: the
token has to be of the right kind, its text is then asked of the document, and
the text is read. The text of a number is checked again in full, because a token
may be read against a document other than its own.
-/

namespace FlatJson

namespace Scalar

/-- The literal that a text is, from its first byte to its last. -/
def literal (text : Bytes) (offset : Nat) : Except ReadFault Literal :=
  if Literal.looksHexadecimal text then .error (.of .hexadecimal text offset)
  else
    match Literal.ofText? text with
    | some l => .ok l
    | none => .error (.of .invalidNumber text offset)

/-- The floating-point number nearest to a numeral, which has to be finite. -/
def parseFloat (f : Format) (text : Bytes) (offset : Nat) : Except ReadFault (Binary f) := do
  let l ← literal text offset
  let x := l.toBinary f
  if x.isFinite then .ok x else .error (.of .numberOutOfRange text offset)

/-- The member of an integer type that a numeral denotes. -/
def parseInteger (t : IntType) (text : Bytes) (offset : Nat) : Except ReadFault t.Member := do
  let l ← literal text offset
  if !l.isInteger then .error (.of .expectedInteger text offset)
  else
    match l.member? t with
    | some n => .ok n
    | none => .error (.of .integerOutOfRange text offset)

/-- Asks that a token is of a kind. -/
def expectKind (s : Source) (kind : Kind) (t : Token) : Except Fault Unit :=
  if t.kind = kind then .ok () else .error (.read (s.mismatch kind.name t))

/-- Reads the text of a token of a given kind. -/
def withText {α : Type} (s : Source) (kind : Kind) (t : Token)
    (parse : Bytes → Nat → Except ReadFault α) : Except Fault α :=
  match expectKind s kind t with
  | .error e => .error e
  | .ok () =>
    match s.textOf t with
    | .error e => .error (.bounds e)
    | .ok text =>
      match parse text t.start with
      | .ok x => .ok x
      | .error e => .error (.read e)

def bool (s : Source) (t : Token) : Except Fault Bool :=
  match t.kind with
  | .yes => .ok true
  | .no => .ok false
  | _ => .error (.read (s.mismatch "boolean" t))

def null (s : Source) (t : Token) : Except Fault Unit :=
  match t.kind with
  | .null => .ok ()
  | _ => .error (.read (s.mismatch "null" t))

def float (f : Format) (s : Source) (t : Token) : Except Fault (Binary f) :=
  withText s .number t (parseFloat f)

def integer (type : IntType) (s : Source) (t : Token) : Except Fault type.Member :=
  withText s .number t (parseInteger type)

def string (s : Source) (t : Token) : Except Fault String :=
  withText s .string t Escape.unescape

/-- The number of children of a container of a given kind. -/
def children (kind : Kind) (s : Source) (t : Token) : Except Fault Nat :=
  match expectKind s kind t with
  | .ok () => .ok t.count
  | .error e => .error e

end Scalar

end FlatJson
