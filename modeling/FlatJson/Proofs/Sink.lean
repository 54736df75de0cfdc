import FlatJson.Node
import FlatJson.Shape
import FlatJson.Proofs.Writing

/-!
# Sinks agree

What a growable sink takes is a list of writes of bytes
(`Emission.exists_parts`). Every other sink takes the same writes one after the
other, so that a fixed sink ends up with all the bytes where they fit, and with
the first of them where they do not; nothing else in its store changes
(`Sink.accept_fixed`).

How a text is cut into writes makes no difference to this. Numbers and dates may
reach a sink in several writes, so the result is about all the emissions that cut
the writes of a value further (`Emission.Cuts`).
-/

namespace FlatJson

namespace Sink

theorem overlay_append (storage : Array UInt8) (offset : Nat) (bs cs : Bytes) :
    overlay storage offset (bs ++ cs) =
      overlay (overlay storage offset bs) (offset + bs.length) cs := by
  induction bs generalizing storage offset with
  | nil => rfl
  | cons b bs ih =>
      rw [List.cons_append, overlay, overlay, ih, List.length_cons, Nat.add_assoc, Nat.add_comm 1]

/-- Bytes put over a store that holds enough of them replace those that were
there, and leave the others. -/
theorem toList_overlay {storage : Array UInt8} {offset : Nat} {bs : Bytes}
    (h : offset + bs.length ≤ storage.size) :
    (overlay storage offset bs).toList =
      storage.toList.take offset ++ bs ++ storage.toList.drop (offset + bs.length) := by
  induction bs generalizing storage offset with
  | nil => simp [overlay]
  | cons b bs ih =>
      rw [List.length_cons] at h
      have hroom : offset < storage.toList.length := by
        rw [Array.length_toList]
        omega
      have hmore : offset + 1 + bs.length ≤ (storage.setIfInBounds offset b).size := by
        rw [Array.size_setIfInBounds]
        omega
      have htake : (storage.toList.set offset b).take (offset + 1) =
          storage.toList.take offset ++ [b] := by
        rw [List.set_eq_take_append_cons_drop, if_pos hroom, List.take_append, List.take_take,
          List.length_take, Nat.min_eq_left hroom.le, Nat.add_sub_cancel_left,
          Nat.min_eq_right (Nat.le_succ offset)]
        rfl
      have hdrop : (storage.toList.set offset b).drop (offset + 1 + bs.length) =
          storage.toList.drop (offset + (bs.length + 1)) := by
        rw [List.drop_set_of_lt (by omega), Nat.add_assoc, Nat.add_comm 1]
      rw [overlay, ih hmore, Array.toList_setIfInBounds, htake, hdrop, List.length_cons,
        List.append_assoc _ [b], List.singleton_append]

end Sink

namespace Emission

/-- The writes of some parts, one after the other. -/
def ofParts (parts : List Bytes) : Emission := parts.map .bytes

/-- What a growable sink takes of an emission is bytes, and it holds them behind
those that it has held before. -/
theorem exists_parts_of_accept {e : Emission} {written : Array UInt8} {s : Sink}
    (h : (Sink.growable written).accept e = (.ok (), s)) :
    ∃ parts, e = ofParts parts ∧ s = .growable (written ++ parts.flatten) := by
  induction e generalizing written with
  | nil =>
      cases h
      exact ⟨[], rfl, by simp⟩
  | cons piece e ih =>
      cases piece with
      | nonFinite name => cases h
      | bytes bs =>
          obtain ⟨parts, rfl, hs⟩ := ih h
          refine ⟨bs :: parts, rfl, hs.trans ?_⟩
          rw [List.flatten_cons]
          exact congrArg Sink.growable (Array.ext' (by simp))

theorem exists_parts {e : Emission} {bs : Bytes} (h : e.toBytes = .ok bs) :
    ∃ parts, e = ofParts parts ∧ parts.flatten = bs := by
  unfold toBytes at h
  split at h
  · next s haccept =>
      cases h
      obtain ⟨parts, he, rfl⟩ := exists_parts_of_accept haccept
      exact ⟨parts, he, by simp [Sink.written]⟩
  · cases h

theorem writes_ofParts (parts : List Bytes) : Writes (ofParts parts) parts.flatten := by
  induction parts with
  | nil => exact writes_nil
  | cons bs parts ih => exact ih.cons bs

/-- An emission that cuts the writes of another one into parts. -/
inductive Cuts : Emission → Emission → Prop
  | nil : Cuts [] []
  | bytes {d e : Emission} (parts : List Bytes) :
      Cuts d e → Cuts (ofParts parts ++ d) (.bytes parts.flatten :: e)
  | nonFinite {d e : Emission} (name : String) :
      Cuts d e → Cuts (.nonFinite name :: d) (.nonFinite name :: e)

theorem Cuts.exists_parts {d e : Emission} (h : Cuts d e) {parts : List Bytes}
    (he : e = ofParts parts) : ∃ pieces, d = ofParts pieces ∧ pieces.flatten = parts.flatten := by
  induction h generalizing parts with
  | nil =>
      cases parts with
      | nil => exact ⟨[], rfl, rfl⟩
      | cons bs parts => cases he
  | @bytes d e cut hcut ih =>
      cases parts with
      | nil => cases he
      | cons bs parts =>
          obtain ⟨hhead, htail⟩ := List.cons.inj he
          obtain ⟨pieces, rfl, hpieces⟩ := ih htail
          refine ⟨cut ++ pieces, (List.map_append).symm, ?_⟩
          rw [List.flatten_append, List.flatten_cons, hpieces]
          exact congrArg (· ++ _) (Piece.bytes.inj hhead)
  | nonFinite name _ _ =>
      cases parts with
      | nil => cases he
      | cons bs parts => cases he

/-- Cut writes write what the whole ones do. -/
theorem Cuts.writes {d e : Emission} {bs : Bytes} (h : Cuts d e) (he : e.Writes bs) :
    d.Writes bs := by
  obtain ⟨parts, hparts, hflatten⟩ := Emission.exists_parts (toBytes_of_writes he)
  obtain ⟨pieces, hd, hpieces⟩ := h.exists_parts hparts
  rw [hd, ← hflatten, ← hpieces]
  exact writes_ofParts pieces

end Emission

namespace Sink

open Emission

theorem put_fixed (storage : Array UInt8) (offset : Nat) (bs : Bytes) :
    (fixed storage offset).put (.bytes bs) =
      if offset + bs.length ≤ storage.size then
        (.ok (), fixed (overlay storage offset bs) (offset + bs.length))
      else (.error (.bounds ⟨offset, bs.length, storage.size⟩), fixed storage offset) := by
  simp only [put, write]
  by_cases h : offset + bs.length ≤ storage.size
  · simp only [if_pos h]
  · simp only [if_neg h]

/-- A fixed sink takes some parts in full where there is room for all of them, and
the first of their bytes where there is not. -/
theorem accept_fixed (parts : List Bytes) {storage : Array UInt8} {offset : Nat}
    (hoffset : offset ≤ storage.size) :
    (offset + parts.flatten.length ≤ storage.size ∧
        (fixed storage offset).accept (ofParts parts) =
          (.ok (), fixed (overlay storage offset parts.flatten) (offset + parts.flatten.length))) ∨
      (storage.size < offset + parts.flatten.length ∧
        ∃ fault count, fault.limit = storage.size ∧ offset + count ≤ storage.size ∧
          (fixed storage offset).accept (ofParts parts) =
            (.error (.bounds fault),
              fixed (overlay storage offset (parts.flatten.take count)) (offset + count))) := by
  induction parts generalizing storage offset with
  | nil => exact .inl ⟨hoffset, rfl⟩
  | cons bs parts ih =>
      rw [List.flatten_cons, List.length_append, ← Nat.add_assoc, ofParts, List.map_cons, accept,
        put_fixed]
      by_cases hroom : offset + bs.length ≤ storage.size
      · rw [if_pos hroom]
        have hsize := size_overlay storage offset bs
        rcases ih (hroom.trans hsize.ge) with
          ⟨hfits, hall⟩ | ⟨hshort, fault, count, hlimit, hcount, hpart⟩
        · refine .inl ⟨hfits.trans hsize.le, ?_⟩
          rw [overlay_append]
          exact hall
        · rw [hsize] at hshort hlimit hcount
          refine .inr ⟨hshort, fault, bs.length + count, hlimit, ?_, ?_⟩
          · rwa [← Nat.add_assoc]
          · rw [List.take_length_add_append, overlay_append, ← Nat.add_assoc]
            exact hpart
      · -- A write that does not fit is not begun, so that the writes before it are all there is.
        rw [if_neg hroom]
        refine .inr ⟨by omega, ⟨offset, bs.length, storage.size⟩, 0, rfl, hoffset, ?_⟩
        rw [List.take_zero]
        rfl

end Sink

/-- The writes of a value of some shape. -/
def Shape.emitValue (v : Σ s : Shape, s.Carrier) : Emission := v.1.codec.emit v.2

/-- A document that goes into one growable sink goes behind whatever another one
holds, with the same bytes. A fixed sink takes it if and only if there is room for
these bytes, and then they replace as many bytes from its offset on. If there is
not, the fault names the size of the store, and the first of the bytes have
replaced those between the old offset and the new one. Nothing else in the store
changes. How the writes are cut does not matter. -/
theorem Node.sinks_agree (x : Node (Σ s : Shape, s.Carrier)) {bs : Bytes}
    (h : (x.emit Shape.emitValue).toBytes = .ok bs) {e : Emission}
    (he : e.Cuts (x.emit Shape.emitValue)) :
    (∀ written : Array UInt8,
      (Sink.growable written).accept e = (.ok (), .growable (written ++ bs))) ∧
    ∀ (storage : Array UInt8) (offset : Nat), offset ≤ storage.size →
      (offset + bs.length ≤ storage.size ∧ ∃ after : Array UInt8,
        (Sink.fixed storage offset).accept e = (.ok (), .fixed after (offset + bs.length)) ∧
          after.toList =
            storage.toList.take offset ++ bs ++ storage.toList.drop (offset + bs.length)) ∨
      (storage.size < offset + bs.length ∧ ∃ (fault : OutOfBounds) (count : Nat)
          (after : Array UInt8),
        (Sink.fixed storage offset).accept e =
            (.error (.bounds fault), .fixed after (offset + count)) ∧
          fault.limit = storage.size ∧ offset + count ≤ storage.size ∧
          after.toList = storage.toList.take offset ++ bs.take count ++
            storage.toList.drop (offset + count)) := by
  obtain ⟨parts, hparts, rfl⟩ := Emission.exists_parts h
  obtain ⟨pieces, rfl, hpieces⟩ := he.exists_parts hparts
  refine ⟨?_, fun storage offset hoffset => ?_⟩
  · have hwrites := Emission.writes_ofParts pieces
    rwa [hpieces] at hwrites
  · rw [← hpieces]
    rcases Sink.accept_fixed pieces hoffset with
      ⟨hroom, haccept⟩ | ⟨hshort, fault, count, hlimit, hcount, haccept⟩
    · exact .inl ⟨hroom, _, haccept, Sink.toList_overlay hroom⟩
    · have hlength : (pieces.flatten.take count).length = count := by
        rw [List.length_take]
        omega
      refine .inr ⟨hshort, fault, count, _, haccept, hlimit, hcount, ?_⟩
      rw [Sink.toList_overlay (by rwa [hlength]), hlength]

/-- The document `[true]`, its word in two writes, in a store with room for three
bytes. -/
theorem Node.sinks_agree_short :
    ∃ (fault : OutOfBounds) (count : Nat) (after : Array UInt8),
      (Sink.fixed #[0, 0, 0, 0] 1).accept
          [.bytes [0x5B], .bytes [0x74, 0x72], .bytes [0x75, 0x65], .bytes [0x5D]] =
        (.error (.bounds fault), .fixed after (1 + count)) ∧ fault.limit = 4 ∧ 1 + count ≤ 4 ∧
      after.toList = [0] ++ [0x5B, 0x74, 0x72, 0x75, 0x65, 0x5D].take count ++
        [0, 0, 0, 0].drop (1 + count) := by
  have hbytes : (Node.emit Shape.emitValue
      (.array true (.cons (.leaf ⟨.bool, true⟩) .nil))).toBytes =
        .ok [0x5B, 0x74, 0x72, 0x75, 0x65, 0x5D] := rfl
  have hcuts : Emission.Cuts
      [.bytes [0x5B], .bytes [0x74, 0x72], .bytes [0x75, 0x65], .bytes [0x5D]]
      (Node.emit Shape.emitValue (.array true (.cons (.leaf ⟨.bool, true⟩) .nil))) :=
    .bytes [[0x5B]] (.bytes [[0x74, 0x72], [0x75, 0x65]] (.bytes [[0x5D]] .nil))
  rcases (Node.sinks_agree _ hbytes hcuts).2 #[0, 0, 0, 0] 1 (by decide) with
    ⟨hroom, -⟩ | ⟨-, hshort⟩
  · exact absurd hroom (by decide)
  · exact hshort

end FlatJson
