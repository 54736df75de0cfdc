import FlatJson.Text.Quoted
import FlatJson.Token
import FlatJson.Utf8

/-!
# Faults

Three things can go wrong. A text may not be what it is read as
(`ReadFault`), a value may have no text (`WriteFault`), and a buffer may be
asked for bytes it does not hold (`OutOfBounds`). The first two say where, and
show an excerpt of what they found; a cause fixes the wording and nothing else
does.
-/

namespace FlatJson

/-- Bytes were asked for that a buffer does not hold. -/
structure OutOfBounds where
  offset : Nat
  requested : Nat
  limit : Nat
  deriving DecidableEq, Repr

namespace OutOfBounds

/-- Asks that `requested` bytes at `offset` lie within `limit`. -/
def check (offset requested limit : Nat) : Except OutOfBounds Unit :=
  if offset + requested ≤ limit then .ok () else .error ⟨offset, requested, limit⟩

def message (f : OutOfBounds) : String :=
  s!"out of bounds: {f.requested} byte(s) at offset {f.offset}, limit {f.limit}"

end OutOfBounds

/-- Why a text cannot be read. -/
inductive ReadCause
  | endOfInput
  | unexpectedCharacter
  | nestingTooDeep
  | trailingComma
  /-- Neither a comma nor the delimiter that closes this kind of container. -/
  | expectedSeparator (container : Kind)
  | expectedKey
  | expectedColon
  | trailingGarbage
  | unterminatedString
  | controlCharacter
  | invalidLiteral
  | invalidNumber
  | hexadecimal
  | numberOutOfRange
  | expectedInteger
  | integerOutOfRange
  | badEscape
  | invalidUtf8
  /-- A token of another kind stands where `what` was asked for. -/
  | mismatch (what : String) (found : Kind)
  | unconsumed
  /-- A text that is none of a catalog type's texts. -/
  | invalid (what : String)
  | missingField (name : String)
  /-- A cause of a caller's own. -/
  | other (message : String)
  deriving DecidableEq, Repr

namespace ReadCause

def message : ReadCause → String
  | endOfInput => "Unexpected end of input"
  | unexpectedCharacter => "Unexpected character"
  | nestingTooDeep => "Maximum nesting depth exceeded"
  | trailingComma => "Trailing comma"
  | expectedSeparator .object => "Expected ',' or '\x7d'"
  | expectedSeparator _ => "Expected ',' or ']'"
  | expectedKey => "Expected object key"
  | expectedColon => "Expected ':'"
  | trailingGarbage => "Trailing garbage"
  | unterminatedString => "Unterminated string"
  | controlCharacter => "Unescaped control character"
  | invalidLiteral => "Invalid literal"
  | invalidNumber => "Invalid number"
  | hexadecimal => "Hexadecimal numbers are not permitted"
  | numberOutOfRange => "Number out of range"
  | expectedInteger => "Expected integer"
  | integerOutOfRange => "Integer out of range"
  | badEscape => "Bad escape"
  | invalidUtf8 => "Invalid UTF-8"
  | mismatch what found => s!"Expected {what}, found {found.name}"
  | unconsumed => "Unconsumed tokens"
  | invalid what => s!"Invalid {what}"
  | missingField name => s!"Missing field '{name}'"
  | other message => message

end ReadCause

/-- Why a value cannot be written. -/
inductive WriteCause
  | nonFinite
  | invalidUtf8
  /-- A cause of a caller's own. -/
  | other (message : String)
  deriving DecidableEq, Repr

namespace WriteCause

def message : WriteCause → String
  | nonFinite => "Non-finite number"
  | invalidUtf8 => "Invalid UTF-8"
  | other message => message

end WriteCause

/-- The most bytes of a text that a fault shows, if no character is cut. -/
def excerptLimit : Nat := 32

/-- The bytes a character can still have after its first. -/
def longestTail : Nat := 3

/-- The start of a text as a fault shows it: its first bytes, with the rest of
a character that would be cut. -/
def excerpt (text : Bytes) : String :=
  Utf8.lossyString
    (text.take excerptLimit ++
      ((text.drop excerptLimit).take longestTail).takeWhile Utf8.isTail)

/-- A text that cannot be read: why, an excerpt of it, and its offset in the
document. -/
structure ReadFault where
  cause : ReadCause
  value : String
  offset : Nat
  deriving DecidableEq, Repr

namespace ReadFault

/-- The fault that shows the start of `text`. -/
def of (cause : ReadCause) (text : Bytes) (offset : Nat) : ReadFault :=
  ⟨cause, excerpt text, offset⟩

def display (f : ReadFault) : String :=
  s!"{f.cause.message} at offset {f.offset}: {Text.quoted f.value}"

end ReadFault

/-- A value that cannot be written: why, its name, and how much had been
written before it. -/
structure WriteFault where
  cause : WriteCause
  value : String
  offset : Nat
  deriving DecidableEq, Repr

namespace WriteFault

/-- The fault that shows the start of `text`. -/
def of (cause : WriteCause) (text : Bytes) (offset : Nat) : WriteFault :=
  ⟨cause, excerpt text, offset⟩

def display (f : WriteFault) : String :=
  s!"{f.cause.message} at offset {f.offset}: {Text.quoted f.value}"

end WriteFault

/-- Everything that reading or writing a document can come to, other than a
result. -/
inductive Fault
  | read (fault : ReadFault)
  | write (fault : WriteFault)
  | bounds (fault : OutOfBounds)
  deriving DecidableEq, Repr

namespace Fault

def display : Fault → String
  | read fault => s!"syntax fault: {fault.display}"
  | write fault => s!"encode fault: {fault.display}"
  | bounds fault => fault.message

/-- The fault of a text, where it is one. -/
def asRead? : Fault → Option ReadFault
  | read fault => some fault
  | _ => none

/-- The fault of a value, where it is one. -/
def asWrite? : Fault → Option WriteFault
  | write fault => some fault
  | _ => none

/-- A member that its object does not have. -/
def missingField (name : String) (object : Token) : Fault :=
  .read (.of (.missingField name) [] object.start)

end Fault

end FlatJson
