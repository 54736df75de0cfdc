import FlatJson.Catalog.BigNumber
import FlatJson.Catalog.Signed

/-!
# Years

A year is an integer of 32 bits, written as a numeral.
-/

namespace FlatJson

/-- A year of the proleptic calendar. -/
structure Year where
  value : IntType.int32.Member
  deriving DecidableEq

namespace Year

/-- The year that an integer is. -/
def ofInt? (n : Int) : Option Year :=
  (IntType.int32.ofInt? n).map Year.mk

/-- The year that a text is. -/
def ofText? (text : Bytes) : Option Year :=
  match Literal.ofText? text with
  | some l => if l.isInteger then (l.member? .int32).map Year.mk else none
  | none => none

def form : TextForm Year where
  what := "year"
  parse := ofText?
  text y := Ascii.integer y.value.val
  same x y := x.value.val == y.value.val

/-- The earlier of two years is the smaller one. -/
def order (x y : Year) : Ordering := compare x.value.val y.value.val

def codec : Codec Year where
  decode := do return ⟨← Decoder.integer .int32⟩
  emit y := Emission.integer y.value.val

end Year

end FlatJson
