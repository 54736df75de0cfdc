import FlatJson.Proofs.Sink

/-!
# Sinks agree over runs

A call that is granted puts its bytes over those of the store that lie between the old offset
and the new one, and a call that is refused changes nothing (`Sink.Call.Takes`). This holds of a
whole run of a fixed sink, which so never leaves its store (`Sink.Call.Follows`).

A growable sink forgets what lies behind the offset that it is sent back to. A fixed sink keeps it
in its store, where later calls write over it. In front of the offset the two hold the same
bytes nevertheless (`Sink.Agree`), and a call keeps it so as long as it sends the sinks no
further than they have come and asks for no more room than there is.
-/

namespace FlatJson

namespace Sink

/-- One thing that is asked of a sink. -/
inductive Call
  | seek (target : Nat)
  | write (bs : Bytes)
  | writeByte (b : UInt8)
  deriving DecidableEq, Repr

namespace Call

/-- Asks it of a sink. -/
def perform (s : Sink) : Call → Except OutOfBounds Unit × Sink
  | seek target =>
    match s.seek target with
    | .ok moved => (.ok (), moved)
    | .error e => (.error e, s)
  | write bs => s.write bs
  | writeByte b => s.writeByte b

/-- The results of a sequence of calls, each with the sink behind it. -/
def run (s : Sink) : List Call → List (Except OutOfBounds Unit × Sink)
  | [] => []
  | c :: calls =>
    let (result, t) := c.perform s
    (result, t) :: run t calls

/-- The offset from which on a call needs room. -/
def start (offset : Nat) : Call → Nat
  | seek target => target
  | write _ => offset
  | writeByte _ => offset

/-- The bytes that a call writes. -/
def bytes : Call → Bytes
  | seek _ => []
  | write bs => bs
  | writeByte b => [b]

/-- The offset behind a call that is granted. -/
def stop (offset : Nat) (c : Call) : Nat :=
  c.start offset + c.bytes.length

/-- What a call makes of a store and an offset in it. -/
inductive Takes (storage : Array UInt8) (offset : Nat) (c : Call) :
    Except OutOfBounds Unit → Array UInt8 → Nat → Prop
  | granted {after : Array UInt8} : c.stop offset ≤ storage.size →
      after.toList =
        storage.toList.take offset ++ c.bytes ++ storage.toList.drop (offset + c.bytes.length) →
      Takes storage offset c (.ok ()) after (c.stop offset)
  | refused : storage.size < c.stop offset →
      Takes storage offset c (.error ⟨c.start offset, c.bytes.length, storage.size⟩) storage offset

/-- What a sequence of calls makes of them, one call after the other. -/
inductive Follows : Array UInt8 → Nat → List Call → List (Except OutOfBounds Unit × Sink) → Prop
  | nil {storage : Array UInt8} {offset : Nat} : Follows storage offset [] []
  | cons {storage after : Array UInt8} {offset next : Nat} {c : Call} {calls : List Call}
      {result : Except OutOfBounds Unit} {results : List (Except OutOfBounds Unit × Sink)} :
      c.Takes storage offset result after next → after.size = storage.size → next ≤ after.size →
      Follows after next calls results →
      Follows storage offset (c :: calls) ((result, fixed after next) :: results)

section Fixed

variable {storage : Array UInt8} {offset : Nat}

/-- A fixed sink takes what is written to it. -/
theorem takes_write {c : Call} (hstart : c.start offset = offset)
    (hoffset : offset ≤ storage.size) :
    ∃ result after next, (fixed storage offset).write c.bytes = (result, fixed after next) ∧
      c.Takes storage offset result after next ∧ after.size = storage.size ∧
      next ≤ after.size := by
  have hstop : c.stop offset = offset + c.bytes.length := by rw [stop, hstart]
  by_cases hroom : c.stop offset ≤ storage.size
  · refine ⟨.ok (), overlay storage offset c.bytes, c.stop offset, ?_, .granted hroom ?_,
      size_overlay storage offset c.bytes, hroom.trans (size_overlay storage offset c.bytes).ge⟩
    · rw [hstop] at hroom ⊢
      exact if_pos hroom
    · exact toList_overlay (hstop ▸ hroom)
  · refine ⟨_, storage, offset, ?_, .refused (Nat.lt_of_not_le hroom), rfl, hoffset⟩
    rw [hstart]
    rw [hstop] at hroom
    exact if_neg hroom

/-- A fixed sink takes every call. -/
theorem perform_fixed (c : Call) (hoffset : offset ≤ storage.size) :
    ∃ result after next, c.perform (fixed storage offset) = (result, fixed after next) ∧
      c.Takes storage offset result after next ∧ after.size = storage.size ∧
      next ≤ after.size := by
  cases c with
  | seek target =>
      by_cases hroom : target ≤ storage.size
      · have hseek : (fixed storage offset).seek target = .ok (fixed storage target) :=
          if_pos hroom
        refine ⟨.ok (), storage, target, ?_, .granted hroom ?_, rfl, hroom⟩
        · rw [perform, hseek]
        · rw [bytes, List.append_nil, List.length_nil, Nat.add_zero, List.take_append_drop]
      · have hseek : (fixed storage offset).seek target = .error ⟨target, 0, storage.size⟩ :=
          if_neg hroom
        refine ⟨_, storage, offset, ?_, .refused (Nat.lt_of_not_le hroom), rfl, hoffset⟩
        rw [perform, hseek]
        rfl
  | write bs => exact takes_write (c := .write bs) rfl hoffset
  | writeByte b => exact takes_write (c := .writeByte b) rfl hoffset

theorem run_follows (calls : List Call) (hoffset : offset ≤ storage.size) :
    Follows storage offset calls (run (fixed storage offset) calls) := by
  induction calls generalizing storage offset with
  | nil => exact .nil
  | cons c calls ih =>
      obtain ⟨result, after, next, hperform, htakes, hsize, hnext⟩ := perform_fixed c hoffset
      rw [run, hperform]
      exact .cons htakes hsize hnext (ih hnext)

end Fixed

end Call

/-! Both kinds of sinks side by side. -/

/-- A store holds the bytes of a growable sink in front of an offset. -/
def Agree (storage : Array UInt8) (offset : Nat) (written : Array UInt8) : Prop :=
  offset ≤ storage.size ∧ written.toList = storage.toList.take offset

namespace Agree

variable {storage written : Array UInt8} {offset : Nat}

theorem size_eq (h : Agree storage offset written) : written.size = offset := by
  rw [← Array.length_toList, h.2, List.length_take, Array.length_toList]
  exact Nat.min_eq_left h.1

theorem offset_eq (h : Agree storage offset written) :
    (growable written).offset = (fixed storage offset).offset :=
  h.size_eq

theorem written_eq (h : Agree storage offset written) :
    (growable written).written = (fixed storage offset).written := by
  show written.toList = (storage.extract 0 offset).toList
  rw [h.2, Array.toList_extract, List.extract_eq_take_drop, List.drop_zero, Nat.sub_zero]

end Agree

namespace Call

/-- A call sends no sink further than it has come, and writes no more than there is room for. -/
def Keeps (capacity offset : Nat) : Call → Prop
  | seek target => target ≤ offset
  | write bs => offset + bs.length ≤ capacity
  | writeByte _ => offset + 1 ≤ capacity

/-- So does every call of a sequence. -/
def AllKeep (capacity : Nat) : Nat → List Call → Prop
  | _, [] => True
  | offset, c :: calls => c.Keeps capacity offset ∧ AllKeep capacity (c.stop offset) calls

instance decidableKeeps (capacity offset : Nat) : (c : Call) → Decidable (c.Keeps capacity offset)
  | seek target => Nat.decLe target offset
  | write bs => Nat.decLe (offset + bs.length) capacity
  | writeByte _ => Nat.decLe (offset + 1) capacity

instance decidableAllKeep (capacity : Nat) :
    (offset : Nat) → (calls : List Call) → Decidable (AllKeep capacity offset calls)
  | _, [] => .isTrue trivial
  | offset, c :: calls =>
    have := decidableAllKeep capacity (c.stop offset) calls
    inferInstanceAs (Decidable (_ ∧ _))

section Agree

variable {storage written : Array UInt8} {offset : Nat} {c : Call}

theorem Keeps.stop_le (h : c.Keeps storage.size offset) (hoffset : offset ≤ storage.size) :
    c.stop offset ≤ storage.size := by
  cases c with
  | seek target => exact Nat.le_trans h hoffset
  | write bs => exact h
  | writeByte b => exact h

/-- In front of the offset behind such a call stand its bytes, and in front of them the bytes that
the sink is sent back to. -/
theorem Keeps.take_stop {capacity : Nat} (h : c.Keeps capacity offset) {bs rest : Bytes}
    (hlength : bs.length = offset) :
    (bs ++ c.bytes ++ rest).take (c.stop offset) = bs.take (c.start offset) ++ c.bytes := by
  cases c with
  | seek target =>
      have htarget : target ≤ bs.length := hlength ▸ h
      rw [stop, bytes, start, List.append_nil, List.append_nil, List.length_nil, Nat.add_zero,
        List.take_append_of_le_length htarget]
  | write _ | writeByte _ =>
      rw [stop, start, ← hlength, ← List.length_append, List.take_left, List.take_length]

/-- A growable sink forgets what a call sends it back behind, and holds what it writes. -/
theorem perform_growable (hsize : written.size = offset) {capacity : Nat}
    (h : c.Keeps capacity offset) :
    ∃ grown, c.perform (growable written) = (.ok (), growable grown) ∧
      grown.toList = written.toList.take (c.start offset) ++ c.bytes := by
  have hall : written.toList.take offset = written.toList :=
    List.take_of_length_le (by rw [Array.length_toList, hsize])
  cases c with
  | seek target =>
      have htarget : target ≤ written.size := hsize ▸ h
      have hseek : (growable written).seek target = .ok (growable (written.take target)) :=
        if_pos htarget
      refine ⟨written.take target, by rw [perform, hseek], ?_⟩
      rw [bytes, List.append_nil, Array.take_eq_extract, Array.toList_extract,
        List.extract_eq_take_drop]
      rfl
  | write bs =>
      exact ⟨written ++ bs, rfl, by rw [start, hall, bytes, Array.toList_appendList]⟩
  | writeByte b =>
      exact ⟨written ++ [b], rfl, by rw [start, hall, bytes, Array.toList_appendList]⟩

/-- Such a call is granted by both sinks, and they agree behind it. -/
theorem perform_agree (h : Agree storage offset written) (hkeeps : c.Keeps storage.size offset) :
    ∃ after grown, c.perform (fixed storage offset) = (.ok (), fixed after (c.stop offset)) ∧
      c.perform (growable written) = (.ok (), growable grown) ∧ after.size = storage.size ∧
      Agree after (c.stop offset) grown := by
  obtain ⟨grown, hgrowable, hgrown⟩ := perform_growable h.size_eq hkeeps
  obtain ⟨result, after, next, hfixed, htakes, hsize, hnext⟩ := perform_fixed c h.1
  have hlength : (storage.toList.take offset).length = offset := by
    rw [← h.2, Array.length_toList, h.size_eq]
  cases htakes with
  | refused hroom => exact absurd (hkeeps.stop_le h.1) (Nat.not_le.mpr hroom)
  | granted _ hafter =>
      -- The store keeps what it holds behind the new offset, where nothing is compared.
      refine ⟨after, grown, hfixed, hgrowable, hsize, hnext, ?_⟩
      rw [hgrown, h.2, hafter, hkeeps.take_stop hlength]

/-- What can be seen of a sink behind a call. -/
def seen (entry : Except OutOfBounds Unit × Sink) : Except OutOfBounds Unit × Nat × Bytes :=
  (entry.1, entry.2.offset, entry.2.written)

theorem run_agree (calls : List Call) (h : Agree storage offset written)
    (hkeep : AllKeep storage.size offset calls) :
    (run (growable written) calls).map seen = (run (fixed storage offset) calls).map seen := by
  induction calls generalizing storage written offset with
  | nil => rfl
  | cons c calls ih =>
      obtain ⟨after, grown, hfixed, hgrowable, hsize, hagree⟩ := perform_agree h hkeep.1
      have hsame : seen (.ok (), growable grown) = seen (.ok (), fixed after (c.stop offset)) := by
        rw [seen, seen, hagree.offset_eq, hagree.written_eq]
      rw [run, run, hfixed, hgrowable, List.map_cons, List.map_cons, hsame,
        ih hagree (hsize ▸ hkeep.2)]

end Agree

end Call

/-- Over every run a fixed sink stays in its store, is left as it was by what it refuses, and
changes no bytes but those between the old offset and the new one. As long as no call sends it
further than it has come, and none writes more than it has room for, a growable sink that holds
the same bytes gives the same results, and has the same offset and the same bytes behind every
call. -/
theorem runs_agree {storage : Array UInt8} {offset : Nat} (hoffset : offset ≤ storage.size)
    (calls : List Call) :
    Call.Follows storage offset calls (Call.run (fixed storage offset) calls) ∧
      ∀ written : Array UInt8, written.toList = storage.toList.take offset →
        Call.AllKeep storage.size offset calls →
        (Call.run (growable written) calls).map Call.seen =
          (Call.run (fixed storage offset) calls).map Call.seen :=
  ⟨Call.run_follows calls hoffset, fun _ hwritten hkeep =>
    Call.run_agree calls ⟨hoffset, hwritten⟩ hkeep⟩

/-- Two bytes are written, and then another one over the first of them. The second one is still
in the store, but neither sink holds it. -/
theorem runs_agree_rewound :
    Call.AllKeep 2 0 [.write [0x61, 0x62], .seek 0, .writeByte 0x63] ∧
      (Call.run empty [.write [0x61, 0x62], .seek 0, .writeByte 0x63]).map Call.seen =
        (Call.run (blank 2) [.write [0x61, 0x62], .seek 0, .writeByte 0x63]).map Call.seen := by
  have hkeep : Call.AllKeep 2 0 [.write [0x61, 0x62], .seek 0, .writeByte 0x63] := by
    decide
  obtain ⟨-, hagree⟩ := runs_agree (Nat.zero_le (Array.replicate 2 (0 : UInt8)).size)
    [.write [0x61, 0x62], .seek 0, .writeByte 0x63]
  exact ⟨hkeep, hagree #[] rfl hkeep⟩

end Sink

end FlatJson
