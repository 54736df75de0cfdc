import FlatJson.Proofs.Embedding
import FlatJson.Proofs.Text.Excerpt

/-!
# Documents that are read further on

A reader may stand anywhere in its content, and what lies before that place is of no
concern: a document is tokenized as it would be with nothing in front of it, and read
as the same values. Only offsets tell where it stood (`Tape.read_further_on`).
-/

namespace FlatJson

open ByteReader LawfulReader Grammar

variable {ρ σ : Type} [ByteReader ρ] [LawfulReader ρ] [ByteReader σ] [LawfulReader σ]
variable {r : ρ} {q : σ} {front : Bytes}

/-- The text of a fault is cut at the end of the content, and that is as much further on
as the fault. -/
theorem Scan.Stop.fault_shift (stop : Stop) (hcontent : content q = front ++ content r) :
    (stop.shift front.length).fault q = (stop.fault r).shift front.length := by
  have hcount : limit q - (front.length + stop.offset) = limit r - stop.offset := by
    rw [limit_eq, limit_eq, hcontent, List.length_append, Nat.add_sub_add_left]
  have hoffset : (stop.shift front.length).offset = front.length + stop.offset := rfl
  have hcause : (stop.shift front.length).cause = stop.cause := rfl
  unfold fault
  simp only [hoffset, hcause, hcount, getBytes_eq, hcontent, List.drop_length_add_append,
    List.length_append, Nat.add_assoc, Nat.add_le_add_iff_left]
  by_cases hle : stop.offset + min (limit r - stop.offset) (excerptLimit + longestTail) ≤
      (content r).length
  · simp only [if_pos hle]
    rfl
  · simp only [if_neg hle]
    rfl

theorem ByteReader.offset_moveTo_shift (hcontent : content q = front ++ content r)
    (hoffset : offset q = front.length + offset r) (target : Nat) :
    offset (moveTo q (front.length + target)) = front.length + offset (moveTo r target) := by
  have hlength : (content q).length = front.length + (content r).length := by
    rw [hcontent, List.length_append]
  unfold moveTo
  by_cases htarget : target ≤ (content r).length
  · obtain ⟨r', hr, hplace, -⟩ := seek_of_le r htarget
    obtain ⟨q', hq, hmoved, -⟩ := seek_of_le q (hlength ▸ Nat.add_le_add_left htarget _)
    rw [hr, hq]
    exact hmoved.trans (congrArg _ hplace.symm)
  · rw [Nat.not_le] at htarget
    rw [seek_of_lt r htarget, seek_of_lt q (hlength ▸ Nat.add_lt_add_left htarget _)]
    exact hoffset

namespace Tape

/-- What has been read of a document that stands further on, and where that leaves the
reader. -/
theorem read_shift (limits : Limits) (hcontent : content q = front ++ content r)
    (hoffset : offset q = front.length + offset r) :
    (Tape.read limits q).1 =
        ReadFault.shifted front.length ((Tape.read limits r).1.map (Tape.shift front.length)) ∧
      offset (Tape.read limits q).2 = front.length + offset (Tape.read limits r).2 := by
  have hleft : left q = left r := by
    rw [left_eq, left_eq, hcontent, hoffset, List.drop_length_add_append]
  have hlimit : limit q = front.length + limit r := by
    rw [limit_eq, limit_eq, hcontent, List.length_append]
  unfold Tape.read
  rw [hleft, hoffset, Scan.document_shift]
  cases Scan.document limits.maxDepth (offset r) (left r) with
  | ok tape =>
      refine ⟨rfl, ?_⟩
      simp only [Scan.shifted, hlimit]
      exact offset_moveTo_shift hcontent hoffset (limit r)
  | error stop =>
      simp only [Scan.shifted, stop.fault_shift hcontent]
      exact ⟨rfl, offset_moveTo_shift hcontent hoffset stop.resting⟩

/-- A document is tokenized in the same way wherever it stands: the bytes in front of it
shift the tokens, the offset of a fault and the offset at which the reader is left, and
change nothing else. Its tape is read as the same value of any shape, or with the same
fault, again but for the offset. -/
theorem read_further_on (limits : Limits) (hcontent : content q = front ++ content r)
    (hoffset : offset q = front.length + offset r) :
    (Tape.read limits q).1 =
        (match (Tape.read limits r).1 with
          | .ok tape => .ok (tape.shift front.length)
          | .error fault => .error (fault.shift front.length)) ∧
      offset (Tape.read limits q).2 = front.length + offset (Tape.read limits r).2 ∧
      ∀ tape, (Tape.read limits r).1 = .ok tape →
        ∀ (s : Shape) (source whole : Source), source.toBytes = content r →
          whole.toBytes = content q →
          (∃ x, s.codec.ofTape tape source = .ok x ∧
              s.codec.ofTape (tape.shift front.length) whole = .ok x) ∨
            ∃ fault, s.codec.ofTape tape source = .error (.read fault) ∧
              s.codec.ofTape (tape.shift front.length) whole =
                .error (.read (fault.shift front.length)) := by
  obtain ⟨hread, hplace⟩ := read_shift limits hcontent hoffset
  refine ⟨?_, hplace, ?_⟩
  · rw [hread]
    cases (Tape.read limits r).1 <;> rfl
  · intro tape htape s source whole hsource hwhole
    have hwithin : source.Within front [] whole := by
      rw [Source.Within, hwhole, hcontent, hsource, List.append_nil]
    have hstands : ∀ t ∈ tape.tokens, Stands source.toBytes t :=
      hsource ▸ Tape.stands_of_read htape
    obtain ⟨hok, herror⟩ := Codec.ofTape_within s.follows_decode hwithin
      fun t ht => (hstands t ht).fits
    rcases s.ofTape_cases (Tape.subtree_of_read htape).1 hstands with
      ⟨x, hx⟩ | ⟨fault, hfault, t, -, hblames⟩
    · exact .inl ⟨x, hx, hok x hx⟩
    · cases hblames with
      | @read f => exact .inr ⟨f, hfault, herror f hfault⟩

/-- Behind `{}`, the document `[1]` has its tokens two bytes further on, and where it is
read as a list of truth values, the number is refused at its new offset. -/
theorem read_further_on_number :
    (Tape.read {} (⟨.ofBytes [0x7B, 0x7D, 0x5B, 0x31, 0x5D], 2⟩ : SliceReader)).1 =
        .ok ⟨[⟨.array, 2, 5, 1⟩, ⟨.number, 3, 4, 0⟩]⟩ ∧
      (Codec.list Codec.bool).ofTape ⟨[⟨.array, 2, 5, 1⟩, ⟨.number, 3, 4, 0⟩]⟩
          (.ofBytes [0x7B, 0x7D, 0x5B, 0x31, 0x5D]) =
        .error (.read ⟨.mismatch "boolean" .number, "1", 3⟩) := by
  have hread : (Tape.read {} (SliceReader.ofSource (.ofBytes [0x5B, 0x31, 0x5D]))).1 =
      .ok ⟨[⟨.array, 0, 3, 1⟩, ⟨.number, 1, 2, 0⟩]⟩ := by
    cbv
  have hrefused : (Codec.list Codec.bool).ofTape ⟨[⟨.array, 0, 3, 1⟩, ⟨.number, 1, 2, 0⟩]⟩
      (.ofBytes [0x5B, 0x31, 0x5D]) = .error (.read ⟨.mismatch "boolean" .number, "1", 1⟩) := by
    have hdigit : excerpt [0x31] = "1" := excerpt_encode ['1']
    rw [← hdigit]
    rfl
  have hcontent : content (⟨.ofBytes [0x7B, 0x7D, 0x5B, 0x31, 0x5D], 2⟩ : SliceReader) =
      [0x7B, 0x7D] ++ content (SliceReader.ofSource (.ofBytes [0x5B, 0x31, 0x5D])) := rfl
  obtain ⟨htape, -, hshape⟩ := read_further_on {} hcontent rfl
  rw [hread] at htape
  refine ⟨htape, ?_⟩
  rcases hshape _ hread (.list .bool) (.ofBytes [0x5B, 0x31, 0x5D])
    (.ofBytes [0x7B, 0x7D, 0x5B, 0x31, 0x5D]) rfl rfl with ⟨x, hx, -⟩ | ⟨fault, hfault, hshifted⟩
  · exact absurd (hrefused.symm.trans hx) (by rintro ⟨⟩)
  · cases hrefused.symm.trans hfault
    exact hshifted

end Tape

end FlatJson
