import FlatJson.Catalog.TextForm

/-!
# Names of time zones

The name of a zone is a word of letters, digits and a few marks. Which words are
zones is not asked.
-/

namespace FlatJson

open Ascii

namespace ZoneId

/-- The marks that the name of a zone may hold besides letters and digits. -/
def marks : Bytes := [0x7E, 0x2F, 0x2E, 0x5F, 0x2B, 0x2D, 0x3A]

/-- Whether a byte may stand in the name of a zone. -/
def admits (b : UInt8) : Bool :=
  isLetter b || isDigit b || marks.contains b

/-- Whether a text is the name of a zone. -/
def isName (text : Bytes) : Bool :=
  !text.isEmpty && text.all admits

end ZoneId

/-- The name of a time zone. -/
structure ZoneId where
  name : Bytes
  valid : ZoneId.isName name = true
  deriving DecidableEq

namespace ZoneId

/-- The zone that a text names. -/
def ofText? (text : Bytes) : Option ZoneId :=
  if h : isName text then some ⟨text, h⟩ else none

/-- The order of two names is that of a dictionary. -/
def orderNames : Bytes → Bytes → Ordering
  | [], [] => .eq
  | [], _ :: _ => .lt
  | _ :: _, [] => .gt
  | a :: p, b :: q => (compare a.toNat b.toNat).then (orderNames p q)

def order (x y : ZoneId) : Ordering := orderNames x.name y.name

def form : TextForm ZoneId where
  what := "zone id"
  parse := ofText?
  text z := z.name
  same x y := x.name == y.name

end ZoneId

end FlatJson
