import FlatJson.Codec

/-!
# Documents put together by hand

A node is a plan for a piece of a document: objects with their fields, arrays
with their elements, and leaves that are written in a way of their own. A field
may turn out to be absent, and then nothing is written for it, no comma either.
A container that is left open lacks its closing delimiter.
-/

namespace FlatJson

mutual

/-- A plan for a value. -/
inductive Node (Leaf : Type)
  | leaf (x : Leaf)
  | object (closed : Bool) (fields : Fields Leaf)
  | array (closed : Bool) (elements : Elements Leaf)

/-- The fields of an object. -/
inductive Fields (Leaf : Type)
  | nil
  | present (name : String) (value : Node Leaf) (rest : Fields Leaf)
  | absent (name : String) (rest : Fields Leaf)

/-- The elements of an array. -/
inductive Elements (Leaf : Type)
  | nil
  | cons (head : Node Leaf) (rest : Elements Leaf)

end

/-- A comma before every child but the first. -/
def Emission.commaUnless (first : Bool) : Emission :=
  if first then [] else Emission.byte Ascii.comma

/-- The closing delimiter of a container that is closed. -/
def Emission.closing (closed : Bool) (delimiter : UInt8) : Emission :=
  if closed then Emission.byte delimiter else []

mutual

/-- The writes of a node. -/
def Node.emit {Leaf : Type} (leaf : Leaf → Emission) : Node Leaf → Emission
  | .leaf x => leaf x
  | .object closed fields =>
    Emission.byte Ascii.openBrace ++ Fields.emit leaf true fields ++
      Emission.closing closed Ascii.closeBrace
  | .array closed elements =>
    Emission.byte Ascii.openBracket ++ Elements.emit leaf true elements ++
      Emission.closing closed Ascii.closeBracket

def Fields.emit {Leaf : Type} (leaf : Leaf → Emission) (first : Bool) : Fields Leaf → Emission
  | .nil => []
  | .present name value rest =>
    Emission.commaUnless first ++ Emission.member name (Node.emit leaf value) ++
      Fields.emit leaf false rest
  | .absent _ rest => Fields.emit leaf first rest

def Elements.emit {Leaf : Type} (leaf : Leaf → Emission) (first : Bool) :
    Elements Leaf → Emission
  | .nil => []
  | .cons head rest =>
    Emission.commaUnless first ++ Node.emit leaf head ++ Elements.emit leaf false rest

end

end FlatJson
