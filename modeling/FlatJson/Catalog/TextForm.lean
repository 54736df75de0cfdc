import FlatJson.Codec

/-!
# Types that have a text of their own

A catalog type brings along a text for each of its values and a way to read one
back. Most are written as strings; their texts need no escape, so that the text
stands between the quotes as it is. The numbers among them are written as
numerals.
-/

namespace FlatJson

/-- The texts of the values of a type, and when two values are the same. -/
structure TextForm (α : Type) where
  what : String
  parse : Bytes → Option α
  text : α → Bytes
  same : α → α → Bool

namespace TextForm

variable {α : Type}

/-- The value that a text is the text of. -/
def parse? (form : TextForm α) (s : String) : Option α :=
  form.parse (Utf8.ofString s)

/-- The text of a value. -/
def display (form : TextForm α) (x : α) : String :=
  Utf8.lossyString (form.text x)

/-- Why a text that is none of the type's texts is refused. -/
def refusal (form : TextForm α) : ReadCause := .invalid form.what

/-- The codec of a type whose values are strings. -/
def quoted (form : TextForm α) : Codec α where
  decode := do
    let t ← Decoder.peek
    let s ← Decoder.string
    let text := Utf8.ofString s
    match form.parse text with
    | some x => return x
    | none => throw (.read (.of form.refusal text t.start))
  emit x :=
    Emission.byte Ascii.quote ++ Emission.raw (form.text x) ++ Emission.byte Ascii.quote

/-- Reads the text of a number token. -/
def parseNumeral (form : TextForm α) (text : Bytes) (offset : Nat) : Except ReadFault α := do
  let _ ← Scalar.literal text offset
  match form.parse text with
  | some x => .ok x
  | none => .error (.of form.refusal text offset)

/-- The codec of a type whose values are numerals. -/
def numeral (form : TextForm α) : Codec α where
  decode := Decoder.scalar fun s t => Scalar.withText s .number t form.parseNumeral
  emit x := Emission.raw (form.text x)

end TextForm

end FlatJson
