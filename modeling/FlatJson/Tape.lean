import FlatJson.Token

/-!
# The tape

A document is kept as the flat list of its tokens. A container comes before its
children, a member's name before its value, and the counts of the containers say
where each subtree ends.
-/

namespace FlatJson

/-- The tokens of a document, in the order in which they begin. -/
structure Tape where
  tokens : List Token
  deriving DecidableEq, Repr

namespace Tape

/-- The tape of no document. -/
def empty : Tape := ⟨[]⟩

/-- The number of tokens. -/
def size (t : Tape) : Nat := t.tokens.length

/-- The token of the whole document. -/
def root? (t : Tape) : Option Token := t.tokens.head?

end Tape

end FlatJson
