import FlatJson.Codec

/-!
# Values of any shape

A value is what a document denotes when nothing is known about its shape. An
object keeps its members in the order of the document, with names that occur
more than once; looking a name up finds the first.

A value is read by one walk along the tape (`readFrom`), token by token. The
containers that are not complete are a list of frames, so that deep nesting costs
a longer list and nothing else.
-/

namespace FlatJson

/-- A value of any shape. -/
inductive Value
  | null
  | bool (b : Bool)
  | number (x : Binary64)
  | string (s : String)
  | array (elements : List Value)
  | object (members : List (String × Value))
  deriving Inhabited, Repr

namespace Value

def isNull : Value → Bool
  | null => true
  | _ => false

def asBool? : Value → Option Bool
  | bool b => some b
  | _ => none

def asNumber? : Value → Option Binary64
  | number x => some x
  | _ => none

def asString? : Value → Option String
  | string s => some s
  | _ => none

def asArray? : Value → Option (List Value)
  | array elements => some elements
  | _ => none

def asObject? : Value → Option (List (String × Value))
  | object members => some members
  | _ => none

/-- The value of the first member of a name. -/
def get? (v : Value) (name : String) : Option Value :=
  match v with
  | object members => (members.find? fun m => m.1 == name).map Prod.snd
  | _ => none

mutual

/-- Equality, in which numbers are compared as numbers and not as patterns. -/
def same : Value → Value → Bool
  | null, null => true
  | bool a, bool b => a == b
  | number x, number y => x.same y
  | string s, string t => s == t
  | array xs, array ys => sameElements xs ys
  | object ms, object ns => sameMembers ms ns
  | _, _ => false

def sameElements : List Value → List Value → Bool
  | [], [] => true
  | x :: xs, y :: ys => same x y && sameElements xs ys
  | _, _ => false

def sameMembers : List (String × Value) → List (String × Value) → Bool
  | [], [] => true
  | (k, x) :: ms, (l, y) :: ns => k == l && same x y && sameMembers ms ns
  | _, _ => false

end

/-- What a number is written as: strictly its numeral, which a number that is not
finite lacks, or else null in place of one. -/
def emitNumber (strict : Bool) (x : Binary64) : Emission :=
  if strict || x.isFinite then Emission.float x else Emission.null

mutual

/-- The writes of a value. -/
def emitWith (strict : Bool) : Value → Emission
  | null => Emission.null
  | bool b => Emission.bool b
  | number x => emitNumber strict x
  | string s => Emission.string s
  | array xs => Emission.array (emitElements strict xs)
  | object ms => Emission.object (emitMembers strict ms)

def emitElements (strict : Bool) : List Value → List Emission
  | [] => []
  | x :: xs => emitWith strict x :: emitElements strict xs

def emitMembers (strict : Bool) : List (String × Value) → List Emission
  | [] => []
  | (k, x) :: ms => Emission.member k (emitWith strict x) :: emitMembers strict ms

end

/-- The writes of a value, which end at a number that is not finite. -/
def emit : Value → Emission := emitWith true

/-- The text of a value for people, in which a number that is not finite is
null. -/
def display (v : Value) : String :=
  match (emitWith false v).toBytes with
  | .ok bs => Utf8.lossyString bs
  | .error _ => ""

/-- A container that is not complete: how many children are still to come, and
those read so far, the last one first. In an object, `name` is the name of the
member that comes next, once it has been read. -/
inductive Frame
  | array (left : Nat) (done : List Value)
  | object (left : Nat) (name : Option String) (done : List (String × Value))
  deriving Repr

/-- What a container comes to when its last child has been read. -/
inductive Step
  | complete (v : Value)
  | pending (frame : Frame)

namespace Frame

/-- Stores a child. -/
def store (v : Value) : Frame → Step
  | array left done =>
    if left ≤ 1 then .complete (.array (v :: done).reverse)
    else .pending (.array (left - 1) (v :: done))
  | object left name done =>
    let done := (name.getD "", v) :: done
    if left ≤ 1 then .complete (.object done.reverse)
    else .pending (.object (left - 1) none done)

end Frame

/-- A value has been read in full: it is stored in the innermost container, and
every container that it completes is stored in turn. What is left is either the
whole value or the containers that are still not complete. -/
def deliver (v : Value) : List Frame → Value ⊕ List Frame
  | [] => .inl v
  | frame :: outer =>
    match frame.store v with
    | .complete v => deliver v outer
    | .pending frame => .inr (frame :: outer)

/-- What one token is the start of: a value that is complete, or a container
with children to come. -/
def ofToken (s : Source) (t : Token) : Except Fault Step :=
  match t.kind with
  | .object =>
    .ok (if t.count = 0 then .complete (.object []) else .pending (.object t.count none []))
  | .array =>
    .ok (if t.count = 0 then .complete (.array []) else .pending (.array t.count []))
  | .string => (Scalar.string s t).map fun text => .complete (.string text)
  | .number => (Scalar.float .binary64 s t).map fun x => .complete (.number x)
  | .yes => .ok (.complete (.bool true))
  | .no => .ok (.complete (.bool false))
  | .null => .ok (.complete .null)

/-- Reads one token on behalf of the containers that are not complete: the name
of a member where one is due, and a value everywhere else. -/
def take (s : Source) (t : Token) : List Frame → Except Fault (Value ⊕ List Frame)
  | .object left none done :: outer =>
    match Scalar.string s t with
    | .ok name => .ok (.inr (.object left (some name) done :: outer))
    | .error fault => .error fault
  | frames =>
    match ofToken s t with
    | .ok (.complete v) => .ok (deliver v frames)
    | .ok (.pending frame) => .ok (.inr (frame :: frames))
    | .error fault => .error fault

/-- Reads on from `position` until the outermost value is complete. A fault
comes with the place behind the token that is to blame. -/
def readFrom (s : Source) (frames : List Frame) (position : Nat) :
    List Token → Except Fault Value × Nat × List Token
  | [] => (.error (.bounds ⟨position, 1, position⟩), position, [])
  | t :: rest =>
    match take s t frames with
    | .error fault => (.error fault, position + 1, rest)
    | .ok (.inl v) => (.ok v, position + 1, rest)
    | .ok (.inr frames) => readFrom s frames (position + 1) rest

/-- Reads one value. -/
def decode : Decoder Value := do
  let c ← get
  let (result, position, rest) := readFrom c.source [] c.position c.rest
  set { c with position := position, rest := rest }
  match result with
  | .ok v => return v
  | .error fault => throw fault

end Value

/-- Values of any shape. -/
def Codec.value : Codec Value := ⟨Value.decode, Value.emit⟩

end FlatJson
