import FlatJson.Shape

/-!
# Records of a service registry

A record of a registry is an object with fields of known names. The members of
the object may come in any order; a member of another name is passed over, and of
several members of one name the last one counts. A field that has to be there is
asked for after all members have been read.
-/

namespace FlatJson

/-- One of the ways to reach a service. -/
structure Interface where
  name : String
  secure : Bool
  deriving DecidableEq, Repr

/-- A service, as a registry lists it. -/
structure ServiceRecord where
  id : (IntType.unsigned 64).Member
  definition : String
  portNumber : (IntType.unsigned 16).Member
  interfaces : List Interface
  version : Option IntType.int32.Member
  sequence : BigInteger
  deriving DecidableEq

namespace Decoder

/-- Reads `count` members, each of which may change what is known so far. -/
def members {σ : Type} (member : σ → String → Decoder σ) (known : σ) : Nat → Decoder σ
  | 0 => return known
  | count + 1 => do
    let name ← key
    let known ← member known name
    members member known count

/-- Reads an object member by member, and makes something of what is known at the end. -/
def record {σ α : Type} (member : σ → String → Decoder σ) (known : σ)
    (make : Token → σ → Decoder α) : Decoder α := do
  let object ← peek
  let count ← beginObject
  let known ← members member known count
  make object known

/-- Passes over the value of a member that nobody asks for. -/
def ignore {σ : Type} (known : σ) : Decoder σ := do
  skipValue
  return known

/-- A field that has to be there. -/
def require {α : Type} (name : String) (object : Token) : Option α → Decoder α
  | some x => return x
  | none => throw (Fault.missingField name object)

end Decoder

namespace Interface

/-- What is known of an interface while its members are read. -/
structure Draft where
  name : Option String := none
  secure : Bool := false

/-- Reads the value of a member. -/
def Draft.member (draft : Draft) (name : String) : Decoder Draft :=
  if name == "name" then do return { draft with name := some (← Decoder.string) }
  else if name == "secure" then do return { draft with secure := ← Decoder.bool }
  else Decoder.ignore draft

/-- Makes an interface of what is known of it. -/
def make (object : Token) (draft : Draft) : Decoder Interface := do
  let name ← Decoder.require "name" object draft.name
  return ⟨name, draft.secure⟩

def decode : Decoder Interface := Decoder.record Draft.member {} make

def emit (x : Interface) : Emission :=
  Emission.object
    [Emission.member "name" (Emission.string x.name),
      Emission.member "secure" (Emission.bool x.secure)]

def codec : Codec Interface := ⟨decode, emit⟩

end Interface

namespace ServiceRecord

/-- What is known of a record while its members are read. -/
structure Draft where
  id : Option (IntType.unsigned 64).Member := none
  definition : Option String := none
  portNumber : Option (IntType.unsigned 16).Member := none
  interfaces : List Interface := []
  version : Option IntType.int32.Member := none
  sequence : Option BigInteger := none

/-- Reads the value of a member. -/
def Draft.member (draft : Draft) (name : String) : Decoder Draft :=
  if name == "id" then do return { draft with id := some (← Decoder.integer _) }
  else if name == "serviceDefinition" then do
    return { draft with definition := some (← Decoder.string) }
  else if name == "port" then do return { draft with portNumber := some (← Decoder.integer _) }
  else if name == "interfaces" then do
    return { draft with interfaces := ← Interface.codec.list.decode }
  else if name == "version" then do
    return { draft with version := ← (Codec.integer _).option.decode }
  else if name == "sequence" then do
    return { draft with sequence := some (← BigInteger.form.numeral.decode) }
  else Decoder.ignore draft

/-- Makes a record of what is known of it. -/
def make (object : Token) (draft : Draft) : Decoder ServiceRecord := do
  let id ← Decoder.require "id" object draft.id
  let definition ← Decoder.require "serviceDefinition" object draft.definition
  let portNumber ← Decoder.require "port" object draft.portNumber
  let sequence ← Decoder.require "sequence" object draft.sequence
  return ⟨id, definition, portNumber, draft.interfaces, draft.version, sequence⟩

def decode : Decoder ServiceRecord := Decoder.record Draft.member {} make

/-- The version is written only if there is one. -/
def emit (r : ServiceRecord) : Emission :=
  Emission.object
    ([Emission.member "id" (Emission.integer r.id.val),
        Emission.member "serviceDefinition" (Emission.string r.definition),
        Emission.member "port" (Emission.integer r.portNumber.val),
        Emission.member "interfaces" (Interface.codec.list.emit r.interfaces)] ++
      (r.version.toList.map fun n => Emission.member "version" (Emission.integer n.val)) ++
      [Emission.member "sequence" (BigInteger.form.numeral.emit r.sequence)])

def codec : Codec ServiceRecord := ⟨decode, emit⟩

end ServiceRecord

end FlatJson
