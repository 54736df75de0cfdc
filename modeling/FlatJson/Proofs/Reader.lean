import FlatJson.Reader

/-!
# Lawful readers

All readers are to behave alike: a reader stands for one text, its content, and
its operations are those of that text and of an offset. `LawfulReader` says so,
and both readers are lawful.
-/

namespace FlatJson

open ByteReader

/-- What a reader promises. -/
class LawfulReader (ρ : Type) [ByteReader ρ] where
  /-- The text that is read. -/
  content : ρ → Bytes
  /-- The limit is the end of the text. -/
  limit_eq (r : ρ) : limit r = (content r).length
  /-- Bytes are those of the text, and are refused where the text does not hold
  all of them. -/
  getBytes_eq (r : ρ) (at_ count : Nat) :
    getBytes r at_ count =
      if at_ + count ≤ (content r).length then .ok (((content r).drop at_).take count)
      else .error ⟨at_, count, (content r).length⟩
  /-- Going elsewhere in the text changes the offset and nothing else. -/
  seek_of_le (r : ρ) {target : Nat} (h : target ≤ (content r).length) :
    ∃ s, seek r target = .ok s ∧ offset s = target ∧ content s = content r
  /-- Outside of the text there is nowhere to go. -/
  seek_of_lt (r : ρ) {target : Nat} (h : (content r).length < target) :
    seek r target = .error ⟨target, 0, (content r).length⟩

namespace Source

theorem getBytes_eq (s : Source) (at_ count : Nat) :
    s.getBytes at_ count =
      if at_ + count ≤ s.toBytes.length then .ok ((s.toBytes.drop at_).take count)
      else .error ⟨at_, count, s.toBytes.length⟩ := by
  have hlimit : s.limit = s.toBytes.length := Array.length_toList.symm
  unfold getBytes
  rw [hlimit]
  congr 2
  rw [Array.toList_extract, List.extract_eq_take_drop, Nat.add_sub_cancel_left]
  rfl

end Source

instance : LawfulReader SliceReader where
  content r := r.source.toBytes
  limit_eq _ := Array.length_toList.symm
  getBytes_eq r at_ count := r.source.getBytes_eq at_ count
  seek_of_le r target h := by
    have hlimit : target ≤ r.source.limit := by rwa [Source.toBytes, Array.length_toList] at h
    exact ⟨{ r with position := target }, if_pos hlimit, rfl, rfl⟩
  seek_of_lt r target h := by
    rw [Source.toBytes, Array.length_toList] at h ⊢
    exact if_neg (Nat.not_le.mpr h)

namespace PoolReader

theorem length_content (r : PoolReader) :
    (r.pool.toList.extract r.first (r.first + r.size)).length = r.size := by
  have hfits : r.first + r.size ≤ r.pool.toList.length := by
    rw [Array.length_toList]
    exact r.fits
  rw [List.extract_eq_take_drop, Nat.add_sub_cancel_left, List.length_take, List.length_drop]
  omega

end PoolReader

instance : LawfulReader PoolReader where
  content r := r.pool.toList.extract r.first (r.first + r.size)
  limit_eq r := r.length_content.symm
  getBytes_eq r at_ count := by
    rw [PoolReader.length_content]
    simp only [getBytes, OutOfBounds.check]
    by_cases h : at_ + count ≤ r.size
    · simp only [if_pos h, bind, Except.bind]
      rw [Array.toList_extract, List.extract_eq_take_drop, List.extract_eq_take_drop,
        Nat.add_sub_cancel_left, Nat.add_sub_cancel_left, List.drop_take, List.drop_drop,
        List.take_take]
      congr 2
      omega
    · simp only [if_neg h, bind, Except.bind]
  seek_of_le r target h := by
    rw [PoolReader.length_content] at h
    refine ⟨{ r with position := target }, ?_, rfl, rfl⟩
    simp only [seek, OutOfBounds.check, Nat.add_zero, if_pos h, bind, Except.bind]
  seek_of_lt r target h := by
    rw [PoolReader.length_content] at h ⊢
    simp only [seek, OutOfBounds.check, Nat.add_zero, if_neg (Nat.not_le.mpr h), bind,
      Except.bind]

end FlatJson
