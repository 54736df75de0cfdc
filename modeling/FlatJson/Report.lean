import FlatJson.Tape.Tokenize

/-!
# Reports on a document

A report says whether a file is one document, and of how many tokens, or shows
the first fault. On request it lists the tokens before that, each below its
containers and indented under them. How deep a token lies is recovered from the
counts alone: `levels` keeps, for every open container, the number of entries
that the container still owns.
-/

namespace FlatJson

/-- What a run of the program leaves behind. -/
structure Report where
  code : Nat
  output : String
  complaint : String
  deriving DecidableEq, Repr

namespace Report

/-- Containers of which nothing is left are closed before the next token. -/
def stillOpen (owned : List Nat) : List Nat :=
  owned.dropWhile (· == 0)

/-- One entry less is left of the innermost container. -/
def takeEntry : List Nat → List Nat
  | [] => []
  | n :: outer => (n - 1) :: outer

/-- The number of containers around each token, where `owned` says what is left
of the containers open before the first. -/
def levels (owned : List Nat) : List Token → List Nat
  | [] => []
  | t :: rest =>
    let around := stillOpen owned
    let next := takeEntry around
    around.length ::
      levels (if t.kind.isContainer then t.ownedEntries :: next else next) rest

/-- What is shown of a token: the size of a container, the text of a scalar. -/
def content (s : Source) (t : Token) : String :=
  if t.kind.isContainer then s!"({t.count} children)"
  else Utf8.lossyString (s.data.extract t.start t.stop).toList

/-- A number, right aligned in six columns. -/
def column (n : Nat) : String :=
  let text := toString n
  String.ofList (List.replicate (6 - text.length) ' ') ++ text

/-- The line of a token that lies in `level` containers. -/
def line (s : Source) (index level : Nat) (t : Token) : String :=
  let indent := String.ofList (List.replicate (2 * level) ' ')
  s!"{column index} {indent}{t.kind.name} {t.start}..{t.stop} {content s t}\n"

/-- The lines of all tokens, the first of which has the number `index`. -/
def lines (s : Source) (index : Nat) : List (Nat × Token) → List String
  | [] => []
  | (level, t) :: rest => line s index level t :: lines s (index + 1) rest

/-- The list of the tokens of a document. -/
def dump (s : Source) (tape : Tape) : String :=
  String.join (lines s 0 ((levels [] tape.tokens).zip tape.tokens))

/-- The report on a document. -/
def ofSource (limits : Limits) (withDump : Bool) (s : Source) : Report :=
  match Tape.ofSource limits s with
  | .ok tape =>
    let listing := if withDump then dump s tape else ""
    ⟨0, s!"{listing}ok: {s.limit} bytes, {tape.size} tokens\n", ""⟩
  | .error fault => ⟨1, "", s!"Error: {fault.display}\n"⟩

/-- The report on a file that cannot be read. -/
def unreadable (name reason : String) : Report :=
  ⟨1, "", s!"Error: Unable to read file '{name}': {reason}\n"⟩

/-- Why a file that does not exist cannot be read. -/
def noSuchFile : String := "No such file or directory (os error 2)"

end Report

end FlatJson
