import FlatJson.Number.Literal
import FlatJson.Tape

/-!
# The grammar of documents

A derivation of a document is a tree with blanks between its tokens. Every part
of a derivation carries the proof that it is of the right form, so that a tree
derives exactly one text (`Tree.text`), and a text is a document if some
derivation has it.

Arrays and objects are one case here: a container knows its kind, and a child of
an object has a name in front of it (`Label`). `Tree.height` is the number of
containers that lie inside each other, and `Tree.tokens` is the preorder listing
of a tree whose text begins at a given offset.
-/

namespace FlatJson

open Ascii

/-- A run of at least one digit. -/
def Ascii.IsDigits (ds : Bytes) : Prop :=
  ds ≠ [] ∧ ∀ b ∈ ds, isDigit b = true

theorem Ascii.isDigits_zero : IsDigits [zero] :=
  ⟨List.cons_ne_nil _ _, fun b hb => by rw [List.mem_singleton.mp hb]; rfl⟩

/-- A text does not begin with a byte of a class. -/
def Ascii.NotAhead (p : UInt8 → Bool) (bs : Bytes) : Prop :=
  ∀ b ∈ bs.head?, p b = false

/-- The parts of a number literal are as the grammar has them: digits wherever
digits have to stand, `e` or `E` as the mark, and a plus or a minus as the sign
of the exponent, if it has one. -/
structure Literal.WellFormed (l : Literal) : Prop where
  whole : IsDigits l.whole
  fraction : ∀ ds ∈ l.fraction, IsDigits ds
  mark : ∀ e ∈ l.exponent, isExponentMark e.mark = true
  sign : ∀ e ∈ l.exponent, ∀ s ∈ e.sign, s = plus ∨ s = minus
  digits : ∀ e ∈ l.exponent, IsDigits e.digits

namespace Grammar

/-- A run of blanks. -/
structure Blanks where
  bytes : Bytes
  blank : ∀ b ∈ bytes, isBlank b = true

/-- What may stand between the quotes of a string: bytes that stand alone, and
backslashes, each with whatever byte follows it. -/
inductive Inside : Bytes → Prop
  | nil : Inside []
  | plain {b : UInt8} {rest : Bytes} :
      isControl b = false → b ≠ quote → b ≠ backslash → Inside rest → Inside (b :: rest)
  | escaped (b : UInt8) {rest : Bytes} : Inside rest → Inside (backslash :: b :: rest)

/-- The raw text of a string. -/
structure Quoted where
  raw : Bytes
  inside : Inside raw

/-- The text of a string, quotes included. -/
def Quoted.text (s : Quoted) : Bytes :=
  quote :: (s.raw ++ [quote])

/-- A number literal. -/
structure Numeral where
  literal : Literal
  wellFormed : literal.WellFormed

/-- One of the three words. -/
inductive Word
  | yes
  | no
  | null
  deriving DecidableEq

namespace Word

/-- The letters `true`, `false` and `null`. -/
def text : Word → Bytes
  | yes => [0x74, 0x72, 0x75, 0x65]
  | no => [0x66, 0x61, 0x6C, 0x73, 0x65]
  | null => [0x6E, 0x75, 0x6C, 0x6C]

def kind : Word → Kind
  | yes => .yes
  | no => .no
  | null => .null

end Word

/-- A value that is no container. -/
inductive Lexeme
  | word (w : Word)
  | number (n : Numeral)
  | string (s : Quoted)

namespace Lexeme

/-- What a lexeme derives. -/
def text : Lexeme → Bytes
  | word w => w.text
  | number n => n.literal.text
  | string s => s.text

/-- The part of a lexeme that its token spans. -/
def core : Lexeme → Bytes
  | word w => w.text
  | number n => n.literal.text
  | string s => s.raw

/-- The token of a lexeme whose text begins at an offset. -/
def token (start : Nat) : Lexeme → Token
  | word w => .scalar w.kind start (start + w.text.length)
  | number n => .scalar .number start (start + n.literal.text.length)
  | string s => .scalar .string (start + 1) (start + 1 + s.raw.length)

end Lexeme

/-- The delimiters of a container. -/
def opener (isObject : Bool) : UInt8 :=
  if isObject then openBrace else openBracket

def closer (isObject : Bool) : UInt8 :=
  if isObject then closeBrace else closeBracket

/-- The kind of a container. -/
def containerKind (isObject : Bool) : Kind :=
  if isObject then .object else .array

/-- What stands in front of a child: nothing in an array, and a name with its
colon in an object. -/
inductive Label : Bool → Type
  | element : Label false
  | name (before : Blanks) (s : Quoted) (after : Blanks) : Label true

namespace Label

/-- What a label derives. -/
def text {isObject : Bool} : Label isObject → Bytes
  | element => []
  | name before s after => before.bytes ++ s.text ++ after.bytes ++ [colon]

/-- The tokens of a label whose text begins at an offset. -/
def tokens (start : Nat) {isObject : Bool} : Label isObject → List Token
  | element => []
  | name before s _ => [(Lexeme.string s).token (start + before.bytes.length)]

/-- The parts that the tokens of a label span. -/
def cores {isObject : Bool} : Label isObject → List Bytes
  | element => []
  | name _ s _ => [s.raw]

end Label

mutual

/-- A derivation of a value. -/
inductive Tree
  | scalar (x : Lexeme)
  | empty (isObject : Bool) (inside : Blanks)
  | container (isObject : Bool) (children : Children isObject)

/-- A derivation of the children of a container: one at least, with commas
between them and blanks around each. -/
inductive Children : Bool → Type
  | last {isObject : Bool} (label : Label isObject) (before : Blanks) (v : Tree)
      (after : Blanks) : Children isObject
  | more {isObject : Bool} (label : Label isObject) (before : Blanks) (v : Tree)
      (after : Blanks) (rest : Children isObject) : Children isObject

end

mutual

/-- What a tree derives. -/
def Tree.text : Tree → Bytes
  | .scalar x => x.text
  | .empty isObject inside => opener isObject :: (inside.bytes ++ [closer isObject])
  | .container isObject children => opener isObject :: (children.text ++ [closer isObject])

/-- What some children derive. -/
def Children.text {isObject : Bool} : Children isObject → Bytes
  | .last label before v after => label.text ++ before.bytes ++ v.text ++ after.bytes
  | .more label before v after rest =>
    label.text ++ before.bytes ++ v.text ++ after.bytes ++ comma :: rest.text

end

mutual

/-- The number of containers that lie inside each other. -/
def Tree.height : Tree → Nat
  | .scalar _ => 0
  | .empty _ _ => 1
  | .container _ children => children.height + 1

/-- The largest height of a child. -/
def Children.height {isObject : Bool} : Children isObject → Nat
  | .last _ _ v _ => v.height
  | .more _ _ v _ rest => max v.height rest.height

end

/-- The number of children: of elements, or of members. -/
def Children.size {isObject : Bool} : Children isObject → Nat
  | .last _ _ _ _ => 1
  | .more _ _ _ _ rest => rest.size + 1

mutual

/-- The tokens of a tree whose text begins at an offset, each container before
its children. -/
def Tree.tokens (start : Nat) : Tree → List Token
  | .scalar x => [x.token start]
  | .empty isObject inside =>
    [⟨containerKind isObject, start, start + inside.bytes.length + 2, 0⟩]
  | .container isObject children =>
    ⟨containerKind isObject, start, start + children.text.length + 2, children.size⟩ ::
      children.tokens (start + 1)

/-- The tokens of some children, each name before its value. -/
def Children.tokens (start : Nat) {isObject : Bool} : Children isObject → List Token
  | .last label before v _ =>
    label.tokens start ++ v.tokens (start + label.text.length + before.bytes.length)
  | .more label before v after rest =>
    label.tokens start ++ v.tokens (start + label.text.length + before.bytes.length) ++
      rest.tokens (start + label.text.length + before.bytes.length + v.text.length +
        after.bytes.length + 1)

end

mutual

/-- The parts of the text of a tree that its tokens span: the lexeme of a number
or a word, what stands between the quotes of a string, and all of a container
from its opening to its closing delimiter. -/
def Tree.cores : Tree → List Bytes
  | .scalar x => [x.core]
  | .empty isObject inside => [(Tree.empty isObject inside).text]
  | .container isObject children =>
    (Tree.container isObject children).text :: children.cores

/-- The same for some children. -/
def Children.cores {isObject : Bool} : Children isObject → List Bytes
  | .last label _ v _ => label.cores ++ v.cores
  | .more label _ v _ rest => label.cores ++ v.cores ++ rest.cores

end

/-- A derivation of a document: a value with blanks around it. -/
structure Document where
  before : Blanks
  tree : Tree
  after : Blanks

/-- What a document derives. -/
def Document.text (d : Document) : Bytes :=
  d.before.bytes ++ d.tree.text ++ d.after.bytes

/-- The preorder listing of a document whose text begins at an offset. -/
def Document.tokens (start : Nat) (d : Document) : List Token :=
  d.tree.tokens (start + d.before.bytes.length)

end Grammar

end FlatJson
