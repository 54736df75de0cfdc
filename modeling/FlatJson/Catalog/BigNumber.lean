import FlatJson.Catalog.TextForm

/-!
# Numbers kept as text

A big number is a number literal that is kept as it was written, so that none of
its digits is lost. It becomes an integer of a given width or a floating-point
number only when it is asked to.
-/

namespace FlatJson

/-- Whether a text is a number literal. -/
def Literal.isNumberText (text : Bytes) : Bool :=
  (Literal.ofText? text).isSome

/-- Whether a text is a number literal without fraction and exponent. -/
def Literal.isIntegerText (text : Bytes) : Bool :=
  (Literal.ofText? text).any Literal.isInteger

/-- An integer of any size. -/
structure BigInteger where
  text : Bytes
  isIntegerText : Literal.isIntegerText text = true
  deriving DecidableEq

/-- A number of any size and precision. -/
structure BigDecimal where
  text : Bytes
  isNumberText : Literal.isNumberText text = true
  deriving DecidableEq

theorem Literal.isNumberText_of_isIntegerText {text : Bytes}
    (h : Literal.isIntegerText text = true) : Literal.isNumberText text = true := by
  unfold Literal.isIntegerText at h
  unfold Literal.isNumberText
  cases hl : Literal.ofText? text with
  | none => rw [hl] at h; cases h
  | some _ => rfl

namespace BigInteger

/-- The big integer that a text is. -/
def ofText? (text : Bytes) : Option BigInteger :=
  if h : Literal.isIntegerText text then some ⟨text, h⟩ else none

/-- The parts of the number. -/
def literal (x : BigInteger) : Literal :=
  (Literal.ofText? x.text).get (Literal.isNumberText_of_isIntegerText x.isIntegerText)

/-- The member of an integer type that the number is. -/
def member? (x : BigInteger) (t : IntType) : Option t.Member :=
  x.literal.member? t

/-- The text of an integer. -/
def ofInt? (n : Int) : Option BigInteger :=
  ofText? (Ascii.integer n)

def form : TextForm BigInteger where
  what := "big integer"
  parse := ofText?
  text x := x.text
  same x y := x.text == y.text

end BigInteger

namespace BigDecimal

/-- The big decimal that a text is. -/
def ofText? (text : Bytes) : Option BigDecimal :=
  if h : Literal.isNumberText text then some ⟨text, h⟩ else none

/-- A big integer is a big decimal with the same text. -/
def ofBigInteger (x : BigInteger) : BigDecimal :=
  ⟨x.text, Literal.isNumberText_of_isIntegerText x.isIntegerText⟩

/-- The parts of the number. -/
def literal (x : BigDecimal) : Literal :=
  (Literal.ofText? x.text).get x.isNumberText

/-- The floating-point number nearest to the number, which may be infinite. -/
def toBinary (x : BigDecimal) (f : Format) : Binary f :=
  x.literal.toBinary f

def form : TextForm BigDecimal where
  what := "big decimal"
  parse := ofText?
  text x := x.text
  same x y := x.text == y.text

end BigDecimal

end FlatJson
