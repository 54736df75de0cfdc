import FlatJson.Tape.Tokenize
import FlatJson.Proofs.Reader
import FlatJson.Proofs.Scan.Derive
import FlatJson.Proofs.Tape.Preorder

/-!
# Reading a tape

A reader of any kind is tokenized exactly where what it has left is a document
that is not too deep, and the tape is the preorder listing of that document.
-/

namespace FlatJson

open ByteReader LawfulReader Grammar

variable {ρ : Type} [ByteReader ρ]

namespace Tape

/-- A success leaves the reader at its limit. -/
theorem snd_of_read_ok {limits : Limits} {r r' : ρ} {tape : Tape}
    (h : Tape.read limits r = (.ok tape, r')) : r' = moveTo r (limit r) := by
  rw [Tape.read] at h
  cases hscan : Scan.document limits.maxDepth (offset r) (left r) with
  | ok t =>
      rw [hscan] at h
      exact (congrArg Prod.snd h).symm
  | error stop =>
      rw [hscan] at h
      exact absurd (congrArg Prod.fst h) (by simp)

end Tape

variable [LawfulReader ρ]

/-- What a reader has left is its content from the offset on. -/
theorem ByteReader.left_eq (r : ρ) : left r = (content r).drop (offset r) := by
  have hlimit := limit_eq r
  unfold left readable
  rw [getBytes_eq]
  by_cases h : offset r ≤ (content r).length
  · have hcount : offset r + (limit r - offset r) ≤ (content r).length := by omega
    rw [if_pos hcount]
    exact List.take_of_length_le (by rw [List.length_drop]; omega)
  · have hcount : ¬offset r + (limit r - offset r) ≤ (content r).length := by omega
    rw [if_neg hcount]
    exact (List.drop_of_length_le (by omega)).symm

/-- A reader that is moved to its limit is there, with its content unchanged. -/
theorem ByteReader.moveTo_limit (r : ρ) :
    offset (moveTo r (limit r)) = limit (moveTo r (limit r)) ∧
      content (moveTo r (limit r)) = content r := by
  obtain ⟨s, hseek, hoffset, hcontent⟩ := seek_of_le r (limit_eq r).le
  have hmove : moveTo r (limit r) = s := by rw [moveTo, hseek]
  rw [hmove, hoffset, limit_eq, limit_eq, hcontent]
  exact ⟨rfl, rfl⟩

namespace Tape

theorem read_fst_eq_ok_iff {limits : Limits} {r : ρ} {tape : Tape} :
    (Tape.read limits r).1 = .ok tape ↔
      Scan.document limits.maxDepth (offset r) ((content r).drop (offset r)) = .ok tape := by
  rw [Tape.read, left_eq]
  cases Scan.document limits.maxDepth (offset r) ((content r).drop (offset r)) <;> simp

/-- A reader can be tokenized if and only if what it has left is a document in
which no more containers lie inside each other than may. -/
theorem read_succeeds_iff (limits : Limits) (r : ρ) :
    (∃ tape, (Tape.read limits r).1 = .ok tape) ↔
      ∃ d : Document, d.text = (content r).drop (offset r) ∧
        d.tree.height ≤ limits.maxDepth := by
  constructor
  · intro h
    rcases h with ⟨tape, h⟩
    obtain ⟨d, htext, hheight, -⟩ := Scan.document_eq_ok_iff.mp (read_fst_eq_ok_iff.mp h)
    exact ⟨d, htext, hheight⟩
  · intro h
    rcases h with ⟨d, htext, hheight⟩
    refine ⟨⟨d.tokens (offset r)⟩, read_fst_eq_ok_iff.mpr ?_⟩
    exact Scan.document_eq_ok_iff.mpr ⟨d, htext, hheight, rfl⟩

end Tape

namespace Grammar

/-- Two derivations of one text have the same listing: a text is tokenized in one
way, however deep it may be. -/
theorem Document.tokens_eq_of_text_eq {d e : Document} (h : d.text = e.text) (start : Nat) :
    d.tokens start = e.tokens start := by
  have hd : Scan.document (max d.tree.height e.tree.height) start e.text =
      .ok ⟨d.tokens start⟩ :=
    Scan.document_eq_ok_iff.mpr ⟨d, h, Nat.le_max_left _ _, rfl⟩
  have he : Scan.document (max d.tree.height e.tree.height) start e.text =
      .ok ⟨e.tokens start⟩ :=
    Scan.document_eq_ok_iff.mpr ⟨e, rfl, Nat.le_max_right _ _, rfl⟩
  rw [hd] at he
  exact congrArg Tape.tokens (Except.ok.inj he)

theorem Tree.length_text_pos (t : Tree) : 0 < t.text.length := by
  cases t with
  | scalar x => exact length_lexeme_pos x
  | empty isObject inside => exact Nat.succ_pos _
  | container isObject children => exact Nat.succ_pos _

/-- Where a document is left in a text, its tree lies behind its first blanks. -/
theorem Document.lies_tree {text : Bytes} {start : Nat} (d : Document)
    (h : d.text = text.drop start) : Lies text (start + d.before.bytes.length) d.tree.text := by
  have hpos := d.tree.length_text_pos
  have hlength := congrArg List.length h
  simp only [Document.text, List.length_append, List.length_drop] at hlength
  have hlies : Lies text start d.text := h ▸ lies_drop (by omega)
  exact hlies.left.right

end Grammar

namespace Tape

/-- The tape of a document is the preorder listing of its tree. The spans of its
tokens cut out of the text the parts that they stand for, its counts consume it
in full, and the reader is left at its limit. A cursor, which counts entries up
to `Token.maxEntries`, passes over all of it in every text that is no longer. -/
theorem read_listing {limits : Limits} {r r' : ρ} {tape : Tape}
    (h : Tape.read limits r = (.ok tape, r')) :
    (∃ d : Document, d.text = (content r).drop (offset r)) ∧
      (∀ d : Document, d.text = (content r).drop (offset r) →
        tape.tokens = d.tokens (offset r) ∧
          tape.tokens.map (cut (content r)) = d.tree.cores) ∧
      Subtree tape.tokens [] ∧
      (limit r ≤ Token.maxEntries → Cursor.passOver 1 0 tape.tokens = (0, tape.size, [])) ∧
      offset r' = limit r' ∧ content r' = content r := by
  have hread : (Tape.read limits r).1 = .ok tape := by rw [h]
  obtain ⟨d, htext, -, htokens⟩ := Scan.document_eq_ok_iff.mp (read_fst_eq_ok_iff.mp hread)
  have hlies := d.lies_tree htext
  have hlisting : tape.tokens = d.tree.tokens (offset r + d.before.bytes.length) := htokens
  refine ⟨⟨d, htext⟩, ?_, ?_, ?_, ?_⟩
  · intro e he
    have heq : tape.tokens = e.tokens (offset r) :=
      htokens.trans (Document.tokens_eq_of_text_eq (htext.trans he.symm) _)
    refine ⟨heq, ?_⟩
    rw [heq, Document.tokens, e.tree.cut_tokens (e.lies_tree he)]
  · have hsubtree := d.tree.subtree_tokens (offset r + d.before.bytes.length) []
    rwa [List.append_nil, ← hlisting] at hsubtree
  · intro hlimit
    have hsmall : d.tree.text.length ≤ Token.maxEntries := by
      have hle := hlies.le_length
      rw [limit_eq] at hlimit
      omega
    have hpass := d.tree.passOver_tokens (offset r + d.before.bytes.length) hsmall 0 0 []
    rw [List.append_nil, ← hlisting] at hpass
    rw [hpass, Cursor.passOver, Nat.zero_add, Tape.size]
  · rw [snd_of_read_ok h]
    exact moveTo_limit r

/-- The listing of ` [1,{"k":null}]` from its second byte on. -/
theorem read_listing_nested :
    Tape.read ⟨2⟩ (⟨.ofBytes [0x20, 0x5B, 0x31, 0x2C, 0x7B, 0x22, 0x6B, 0x22, 0x3A, 0x6E, 0x75,
          0x6C, 0x6C, 0x7D, 0x5D], 1⟩ : SliceReader) =
        (.ok ⟨[⟨.array, 1, 15, 2⟩, ⟨.number, 2, 3, 0⟩, ⟨.object, 4, 14, 1⟩, ⟨.string, 6, 7, 0⟩,
          ⟨.null, 9, 13, 0⟩]⟩,
        ⟨.ofBytes [0x20, 0x5B, 0x31, 0x2C, 0x7B, 0x22, 0x6B, 0x22, 0x3A, 0x6E, 0x75,
          0x6C, 0x6C, 0x7D, 0x5D], 15⟩) ∧
      Subtree [⟨.array, 1, 15, 2⟩, ⟨.number, 2, 3, 0⟩, ⟨.object, 4, 14, 1⟩, ⟨.string, 6, 7, 0⟩,
        ⟨.null, 9, 13, 0⟩] [] := by
  have hread : Tape.read ⟨2⟩ (⟨.ofBytes [0x20, 0x5B, 0x31, 0x2C, 0x7B, 0x22, 0x6B, 0x22, 0x3A,
          0x6E, 0x75, 0x6C, 0x6C, 0x7D, 0x5D], 1⟩ : SliceReader) =
        (.ok ⟨[⟨.array, 1, 15, 2⟩, ⟨.number, 2, 3, 0⟩, ⟨.object, 4, 14, 1⟩, ⟨.string, 6, 7, 0⟩,
          ⟨.null, 9, 13, 0⟩]⟩,
        ⟨.ofBytes [0x20, 0x5B, 0x31, 0x2C, 0x7B, 0x22, 0x6B, 0x22, 0x3A, 0x6E, 0x75,
          0x6C, 0x6C, 0x7D, 0x5D], 15⟩) := by
    cbv
  exact ⟨hread, (read_listing hread).2.2.1⟩

end Tape

end FlatJson
