import FlatJson.Fault

/-!
# Sinks

A sink is where a document is written. A growable sink has room for everything
and forgets what it held behind the offset it is sent back to. A fixed sink is a
store of a given size with an offset in it: going back or forth moves the offset
alone, and a write that does not fit is refused as a whole.
-/

namespace FlatJson

/-- Where bytes are written to. -/
inductive Sink
  | growable (written : Array UInt8)
  | fixed (storage : Array UInt8) (offset : Nat)
  deriving Repr

namespace Sink

/-- A growable sink that holds nothing. -/
def empty : Sink := growable #[]

/-- A fixed sink of `capacity` zeros, at its start. -/
def blank (capacity : Nat) : Sink := fixed (Array.replicate capacity 0) 0

/-- The number of bytes written. -/
def offset : Sink → Nat
  | growable written => written.size
  | fixed _ offset => offset

/-- The bytes written. -/
def written : Sink → Bytes
  | growable written => written.toList
  | fixed storage offset => (storage.extract 0 offset).toList

/-- All the bytes that a sink holds. -/
def storage : Sink → Bytes
  | growable written => written.toList
  | fixed storage _ => storage.toList

/-- The offset up to which a sink may be sent. -/
def seekLimit : Sink → Nat
  | growable written => written.size
  | fixed storage _ => storage.size

/-- Goes on at another offset. -/
def seek (s : Sink) (target : Nat) : Except OutOfBounds Sink :=
  if target ≤ s.seekLimit then
    match s with
    | growable written => .ok (growable (written.take target))
    | fixed storage _ => .ok (fixed storage target)
  else .error ⟨target, 0, s.seekLimit⟩

/-- Some bytes put over those that a store holds from an offset on. -/
def overlay (storage : Array UInt8) (offset : Nat) : Bytes → Array UInt8
  | [] => storage
  | b :: rest => overlay (storage.setIfInBounds offset b) (offset + 1) rest

/-- Writing over a store leaves its size as it was. -/
theorem size_overlay (storage : Array UInt8) (offset : Nat) (bs : Bytes) :
    (overlay storage offset bs).size = storage.size := by
  induction bs generalizing storage offset with
  | nil => rfl
  | cons b rest ih => rw [overlay, ih, Array.size_setIfInBounds]

/-- Writes all of some bytes, or none of them. -/
def write (s : Sink) (bs : Bytes) : Except OutOfBounds Unit × Sink :=
  match s with
  | growable written => (.ok (), growable (written ++ bs))
  | fixed storage offset =>
    let stop := offset + bs.length
    if stop ≤ storage.size then (.ok (), fixed (overlay storage offset bs) stop)
    else (.error ⟨offset, bs.length, storage.size⟩, fixed storage offset)

/-- Writes one byte. -/
def writeByte (s : Sink) (b : UInt8) : Except OutOfBounds Unit × Sink :=
  s.write [b]

end Sink

end FlatJson
