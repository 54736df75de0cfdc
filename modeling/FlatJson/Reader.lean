import FlatJson.Source

/-!
# Readers

A reader is a document and an offset in it. What a reader has to bring along is
little (`ByteReader`); reading and skipping are derived from it, and a reader
may bring a shorter way to a single byte.

`SliceReader` reads a document that it holds as a whole, `PoolReader` reads a
stretch of a larger pool of bytes, and `Borrowed` is a reader that is lent out. An
operation that is refused leaves the reader where it was, since it returns none.
-/

namespace FlatJson

/-- What a reader has to bring along. -/
class ByteReader (ρ : Type) where
  /-- The number of bytes of the document. -/
  limit : ρ → Nat
  /-- The offset at which reading goes on. -/
  offset : ρ → Nat
  /-- Goes on elsewhere: anywhere up to the limit. -/
  seek : ρ → Nat → Except OutOfBounds ρ
  /-- The bytes of a stretch of the document. -/
  getBytes : ρ → (offset count : Nat) → Except OutOfBounds Bytes
  /-- The byte at an offset. -/
  getByte : ρ → Nat → Except OutOfBounds UInt8 := fun r at_ =>
    match getBytes r at_ 1 with
    | .ok (b :: _) => .ok b
    | .ok [] => .error ⟨at_, 1, limit r⟩
    | .error e => .error e

namespace ByteReader

variable {ρ : Type} [ByteReader ρ]

/-- The number of bytes that are left. -/
def readable (r : ρ) : Nat :=
  limit r - offset r

/-- The next byte. -/
def peek (r : ρ) : Except OutOfBounds UInt8 :=
  getByte r (offset r)

/-- Goes on `count` bytes further. -/
def skip (r : ρ) (count : Nat) : Except OutOfBounds ρ := do
  OutOfBounds.check (offset r) count (limit r)
  seek r (offset r + count)

/-- Takes the next byte. -/
def read (r : ρ) : Except OutOfBounds (UInt8 × ρ) := do
  let b ← peek r
  let r ← skip r 1
  .ok (b, r)

/-- Takes the next `count` bytes. -/
def readBytes (r : ρ) (count : Nat) : Except OutOfBounds (Bytes × ρ) := do
  let bs ← getBytes r (offset r) count
  let r ← skip r count
  .ok (bs, r)

/-- The bytes from `start` up to `stop`. Bounds in the wrong order ask for no
byte and are refused all the same. -/
def slice (r : ρ) (start stop : Nat) : Except OutOfBounds Bytes :=
  if stop < start then .error ⟨start, 0, limit r⟩
  else getBytes r start (stop - start)

end ByteReader

/-- A reader that shows stretches of its document in its own way. -/
class StretchReader (ρ : Type) [ByteReader ρ] where
  /-- The bytes from one offset up to another. -/
  stretch : ρ → (start stop : Nat) → Except OutOfBounds Bytes

/-- A reader of a document that is held as a whole. -/
structure SliceReader where
  source : Source
  position : Nat
  deriving DecidableEq, Repr

namespace SliceReader

/-- A reader at the start of a document. -/
def ofSource (s : Source) : SliceReader := ⟨s, 0⟩

/-- Finds a byte without making a list for it. -/
def byteAt (r : SliceReader) (at_ : Nat) : Except OutOfBounds UInt8 :=
  match r.source.data[at_]? with
  | some b => .ok b
  | none => .error ⟨at_, 1, r.source.limit⟩

instance : ByteReader SliceReader where
  limit r := r.source.limit
  offset r := r.position
  seek r target :=
    if target ≤ r.source.limit then .ok { r with position := target }
    else .error ⟨target, 0, r.source.limit⟩
  getBytes r at_ count := r.source.getBytes at_ count
  getByte := byteAt

/-- A stretch is refused if it is not a range of the document. -/
instance : StretchReader SliceReader where
  stretch r start stop :=
    if start ≤ stop ∧ stop ≤ r.source.limit then .ok (r.source.data.extract start stop).toList
    else .error ⟨start, stop - start, r.source.limit⟩

end SliceReader

/-- A reader of the `size` bytes from `first` on of a pool that holds other
bytes besides. -/
structure PoolReader where
  pool : Array UInt8
  first : Nat
  size : Nat
  position : Nat
  fits : first + size ≤ pool.size

namespace PoolReader

/-- A reader of a whole pool. -/
def ofArray (pool : Array UInt8) : PoolReader :=
  ⟨pool, 0, pool.size, 0, by omega⟩

/-- The document that is read. -/
def source (r : PoolReader) : Source :=
  ⟨r.pool.extract r.first (r.first + r.size)⟩

instance : ByteReader PoolReader where
  limit r := r.size
  offset r := r.position
  seek r target := do
    OutOfBounds.check target 0 r.size
    .ok { r with position := target }
  getBytes r at_ count := do
    OutOfBounds.check at_ count r.size
    .ok (r.pool.extract (r.first + at_) (r.first + at_ + count)).toList

instance : StretchReader PoolReader where
  stretch := ByteReader.slice

end PoolReader

/-- A reader that is lent out. What a reader has to bring along is asked of the reader
behind it; of what a reader may bring along, stretches alone are. -/
structure Borrowed (ρ : Type) where
  reader : ρ

namespace Borrowed

variable {ρ : Type} [ByteReader ρ]

instance : ByteReader (Borrowed ρ) where
  limit b := ByteReader.limit b.reader
  offset b := ByteReader.offset b.reader
  seek b target := (ByteReader.seek b.reader target).map Borrowed.mk
  getBytes b at_ count := ByteReader.getBytes b.reader at_ count

instance [StretchReader ρ] : StretchReader (Borrowed ρ) where
  stretch b start stop := StretchReader.stretch b.reader start stop

end Borrowed

end FlatJson
