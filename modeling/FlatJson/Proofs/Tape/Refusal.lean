import FlatJson.Proofs.Scan.Viable
import FlatJson.Proofs.Tape.Read

/-!
# Refused documents

What the fault of a document says of the longer documents, and of the shorter
ones. What is read depends on the content of a reader and on its offset alone
(`read_fst_congr`), so the other documents are given as texts.
-/

namespace FlatJson

open ByteReader LawfulReader

theorem Scan.Stop.fault_cause_offset {ρ : Type} [ByteReader ρ] (stop : Scan.Stop) (r : ρ) :
    (stop.fault r).cause = stop.cause ∧ (stop.fault r).offset = stop.offset := by
  unfold Scan.Stop.fault
  simp only
  split <;> exact ⟨rfl, rfl⟩

variable {ρ σ : Type} [ByteReader ρ] [LawfulReader ρ] [ByteReader σ] [LawfulReader σ]

theorem Scan.Stop.fault_congr (stop : Scan.Stop) {r : ρ} {s : σ} (h : content r = content s) :
    stop.fault r = stop.fault s := by
  unfold Scan.Stop.fault
  simp only [limit_eq, getBytes_eq, h]

namespace Tape

theorem read_fst_congr (limits : Limits) {r : ρ} {s : σ} (hcontent : content r = content s)
    (hoffset : offset r = offset s) : (Tape.read limits r).1 = (Tape.read limits s).1 := by
  unfold Tape.read
  rw [left_eq, left_eq, hcontent, hoffset]
  cases Scan.document limits.maxDepth (offset s) ((content s).drop (offset s)) with
  | ok tape => rfl
  | error stop => exact congrArg Except.error (stop.fault_congr hcontent)

/-- A text is a document within the limits. -/
def IsDocument (limits : Limits) (text : Bytes) : Prop :=
  ∃ tape, Tape.ofSource limits (.ofBytes text) = .ok tape

theorem ofSource_ofBytes (limits : Limits) (text : Bytes) :
    Tape.ofSource limits (.ofBytes text) =
      match Scan.run limits.maxDepth (.value []) ⟨0, text⟩ with
      | .ok tokens => .ok ⟨tokens.toList⟩
      | .error stop => .error (stop.fault (SliceReader.ofSource (.ofBytes text))) := by
  have hleft : left (SliceReader.ofSource (.ofBytes text)) = text := left_eq _
  have hoffset : offset (SliceReader.ofSource (.ofBytes text)) = 0 := rfl
  simp only [Tape.ofSource, Tape.read, Scan.document, hleft, hoffset]
  cases Scan.run limits.maxDepth (.value []) ⟨0, text⟩ <;> rfl

theorem isDocument_iff {limits : Limits} {text : Bytes} :
    IsDocument limits text ↔ Scan.Succeeds limits.maxDepth (.value []) 0 text := by
  unfold IsDocument Scan.Succeeds
  rw [ofSource_ofBytes]
  cases Scan.run limits.maxDepth (.value []) ⟨0, text⟩ <;> simp

theorem run_eq_error {limits : Limits} {text : Bytes} {fault : ReadFault}
    (h : Tape.ofSource limits (.ofBytes text) = .error fault) :
    ∃ stop, Scan.run limits.maxDepth (.value []) ⟨0, text⟩ = .error stop ∧
      fault.cause = stop.cause ∧ fault.offset = stop.offset := by
  rw [ofSource_ofBytes] at h
  cases hrun : Scan.run limits.maxDepth (.value []) ⟨0, text⟩ with
  | ok tokens =>
      rw [hrun] at h
      cases h
  | error stop =>
      rw [hrun] at h
      cases h
      exact ⟨stop, rfl, stop.fault_cause_offset _⟩

theorem ofSource_eq_error (limits : Limits) {text : Bytes} {stop : Scan.Stop}
    (h : Scan.run limits.maxDepth (.value []) ⟨0, text⟩ = .error stop) :
    ∃ fault, Tape.ofSource limits (.ofBytes text) = .error fault ∧ fault.cause = stop.cause ∧
      fault.offset = stop.offset := by
  rw [ofSource_ofBytes, h]
  exact ⟨_, rfl, stop.fault_cause_offset _⟩

/-- The fault of a document that is read from its start asks for more text if and
only if a longer text is a document. Any other fault is that of all longer texts
as well. What stands before a fault is the front of a document. -/
theorem read_refusal {limits : Limits} {r : ρ} {fault : ReadFault} (hstart : offset r = 0)
    (h : (Tape.read limits r).1 = .error fault) :
    (fault.cause.WantsMore ↔ ∃ more, IsDocument limits (content r ++ more)) ∧
      (¬fault.cause.WantsMore → ∀ more, ∃ f,
        Tape.ofSource limits (.ofBytes (content r ++ more)) = .error f ∧
          f.cause.message = fault.cause.message ∧ f.offset = fault.offset) ∧
      ∃ more, IsDocument limits ((content r).take fault.offset ++ more) := by
  have hsource : (Tape.read limits r).1 = Tape.ofSource limits (.ofBytes (content r)) :=
    read_fst_congr limits rfl hstart
  obtain ⟨stop, hrun, hcause, hoffset⟩ := run_eq_error (hsource.symm.trans h)
  have hrefused := Scan.run_error (content r) (.value []) 0 stop hrun
  simp only [isDocument_iff]
  rw [hcause, hoffset]
  rcases hrefused with ⟨hwants, hfront⟩ | ⟨hwants, hall, front, back, htext, hplace, hfront⟩
  · refine ⟨⟨fun _ => hfront, fun _ => hwants⟩, fun hnot => absurd hwants hnot, ?_⟩
    rw [← List.take_append_drop stop.offset (content r)] at hfront
    exact hfront.left
  · refine ⟨⟨fun hyes => absurd hyes hwants, ?_⟩, fun _ more => ?_, ?_⟩
    · intro hmore
      obtain ⟨more, ts, hts⟩ := hmore
      cases hts.symm.trans (hall more)
    · obtain ⟨f, hf, hfcause, hfoffset⟩ := ofSource_eq_error limits (hall more)
      exact ⟨f, hf, congrArg ReadCause.message hfcause, hfoffset⟩
    · rw [Nat.zero_add] at hplace
      rw [htext, hplace, List.take_left]
      exact hfront

/-- In `[1, x` the letter is the fault: `[1, ` is the front of a document, and no
text that begins with `[1, x` is one. -/
theorem read_refusal_letter :
    (∃ fault, Tape.ofSource {} (.ofBytes [0x5B, 0x31, 0x2C, 0x20, 0x78]) = .error fault ∧
        fault.cause = .unexpectedCharacter ∧ fault.offset = 4) ∧
      (¬∃ more, IsDocument {} ([0x5B, 0x31, 0x2C, 0x20, 0x78] ++ more)) ∧
      ∃ more, IsDocument {} ([0x5B, 0x31, 0x2C, 0x20] ++ more) := by
  have hrun : Scan.run 256 (.value []) ⟨0, [0x5B, 0x31, 0x2C, 0x20, 0x78]⟩ =
      .error ⟨.unexpectedCharacter, 4, 4⟩ := by
    cbv
  obtain ⟨fault, hfault, hcause, hoffset⟩ := ofSource_eq_error {} hrun
  obtain ⟨hmore, -, hfront⟩ := read_refusal rfl hfault
  rw [hoffset] at hfront
  refine ⟨⟨fault, hfault, hcause, hoffset⟩, fun h => absurd (hmore.mpr h) ?_, hfront⟩
  rw [hcause]
  decide

end Tape

end FlatJson
