import FlatJson.Reader
import FlatJson.Tape.Scan

/-!
# Tokenizing what a reader holds

The document is what a reader has left, all of it. A success leaves the reader
at its limit, and a fault leaves it where the pass came to rest.
-/

namespace FlatJson

/-- What a tokenizer may be told: how many containers may lie inside each
other. -/
structure Limits where
  maxDepth : Nat := 256
  deriving DecidableEq, Repr

open ByteReader

variable {ρ : Type} [ByteReader ρ]

/-- The fault that a pass over the document of `r` stopped with. -/
def Scan.Stop.fault (stop : Scan.Stop) (r : ρ) : ReadFault :=
  let count := min (limit r - stop.offset) (excerptLimit + longestTail)
  match getBytes r stop.offset count with
  | .ok text => .of stop.cause text stop.offset
  | .error _ => .of stop.cause [] stop.offset

/-- The reader at another offset, or as it was where it cannot go there. -/
def ByteReader.moveTo (r : ρ) (target : Nat) : ρ :=
  match seek r target with
  | .ok r => r
  | .error _ => r

/-- What a reader has left. -/
def ByteReader.left (r : ρ) : Bytes :=
  match getBytes r (offset r) (readable r) with
  | .ok text => text
  | .error _ => []

/-- Tokenizes all that the reader has left. -/
def Tape.read (limits : Limits) (r : ρ) : Except ReadFault Tape × ρ :=
  match Scan.document limits.maxDepth (offset r) (left r) with
  | .ok tape => (.ok tape, moveTo r (limit r))
  | .error stop => (.error (stop.fault r), moveTo r stop.resting)

/-- Tokenizes a document from its first byte to its last. -/
def Tape.ofSource (limits : Limits) (s : Source) : Except ReadFault Tape :=
  (Tape.read limits (SliceReader.ofSource s)).1

end FlatJson
