import Mathlib.Data.Bool.AllAny
import FlatJson.Proofs.Number.Scan
import FlatJson.Proofs.Utf8

/-!
# Cuts between characters

A text that is UTF-8 may be cut in front of every byte that continues no character, and
behind every character of one byte (`CleanCut`). The parts are UTF-8 then, so that what
stands between two such cuts is a list of characters (`CharsAt`).
-/

namespace FlatJson

open Ascii

namespace Utf8

theorem isTail_of_lt {b : UInt8} (h : b.toNat < 0x80) : isTail b = false := by
  rw [← Bool.not_eq_true, isTail_iff]
  omega

/-- An encoded text begins with a character. -/
theorem notAhead_encode (cs : List Char) : NotAhead isTail (encode cs) := by
  cases cs with
  | nil => exact notAhead_nil isTail
  | cons c cs =>
      obtain ⟨lead, tail, hbytes, -⟩ := completes_utf8EncodeChar c
      rw [encode_cons, hbytes]
      exact notAhead_cons.mpr (isTail_utf8EncodeChar hbytes).1

/-- No character is cut between two parts of a text if none is cut in front of them:
nothing stands in front of the cut, or a byte behind it that continues no character, or
a byte in front of it that is a character of its own. -/
inductive CleanCut : Bytes → Bytes → Prop
  | start (back : Bytes) : CleanCut [] back
  | ahead {front back : Bytes} : NotAhead isTail back → CleanCut front back
  | behind (front : Bytes) {b : UInt8} (back : Bytes) : b.toNat < 0x80 →
      CleanCut (front ++ [b]) back

namespace CleanCut

variable {front middle back : Bytes}

theorem stop (front : Bytes) : CleanCut front [] :=
  .ahead (notAhead_nil isTail)

theorem trans (hfirst : CleanCut front (middle ++ back)) (hsecond : CleanCut middle back) :
    CleanCut (front ++ middle) back := by
  cases hsecond with
  | start => rwa [List.append_nil]
  | ahead hback => exact .ahead hback
  | behind middle _ hb =>
      rw [← List.append_assoc]
      exact .behind _ back hb

/-- Behind characters of one byte each there is always a cut. -/
theorem of_ascii (hfront : ∀ b ∈ front, b.toNat < 0x80) (back : Bytes) : CleanCut front back := by
  rcases List.eq_nil_or_concat front with rfl | ⟨init, b, rfl⟩
  · exact .start back
  · rw [List.concat_eq_append] at hfront ⊢
    exact .behind init back (hfront b (by simp))

/-- Both parts of a text that is UTF-8 are. -/
theorem exists_encode {cs : List Char} (h : CleanCut front back)
    (htext : encode cs = front ++ back) : ∃ ps qs, front = encode ps ∧ back = encode qs := by
  cases h with
  | start => exact ⟨[], cs, rfl, htext.symm⟩
  | ahead hback =>
      cases back with
      | nil => exact ⟨cs, [], by rw [htext, List.append_nil], rfl⟩
      | cons b back => exact encode_cut htext (notAhead_cons.mp hback)
  | @behind front b _ hb =>
      rw [List.append_assoc, List.singleton_append] at htext
      obtain ⟨ps, qs, rfl, hqs⟩ := encode_cut htext (isTail_of_lt hb)
      have hrest : encode qs = [b] ++ back := hqs.symm
      have hascii : ∀ a ∈ [b], a.toNat < 0x80 := by simpa using hb
      obtain ⟨-, ds, -, -, rfl⟩ := exists_encode_of_append hascii hrest
      refine ⟨ps ++ [Char.ofNat b.toNat], ds, ?_, rfl⟩
      rw [encode_append, encode_cons, utf8EncodeChar_ofNat hb]
      rfl

end CleanCut

/-- A text is UTF-8, and the characters `cs` stand in it at an offset. -/
def CharsAt (text : Bytes) (offset : Nat) (cs : List Char) : Prop :=
  ∃ before after, text = encode before ++ (encode cs ++ encode after) ∧
    offset = (encode before).length

/-- A text is UTF-8, and at an offset one of its characters begins, or it ends there. -/
def IsBoundary (text : Bytes) (offset : Nat) : Prop :=
  CharsAt text offset []

namespace CharsAt

variable {text front back : Bytes} {offset : Nat} {cs ds : List Char}

theorem left (h : CharsAt text offset (cs ++ ds)) : CharsAt text offset cs := by
  obtain ⟨before, after, rfl, rfl⟩ := h
  exact ⟨before, ds ++ after, by simp [encode_append], rfl⟩

theorem right (h : CharsAt text offset (cs ++ ds)) :
    CharsAt text (offset + (encode cs).length) ds := by
  obtain ⟨before, after, rfl, rfl⟩ := h
  exact ⟨before ++ cs, after, by simp [encode_append], by simp [encode_append]⟩

theorem boundary (h : CharsAt text offset cs) : IsBoundary text offset :=
  (show CharsAt text offset ([] ++ cs) from h).left

/-- What stands at an offset is cut out of the text. -/
theorem take_drop (h : CharsAt text offset cs) :
    (text.drop offset).take (encode cs).length = encode cs := by
  obtain ⟨before, after, rfl, rfl⟩ := h
  rw [List.drop_left, List.take_left]

theorem le_length (h : CharsAt text offset cs) :
    offset + (encode cs).length ≤ text.length := by
  obtain ⟨before, after, rfl, rfl⟩ := h
  simp only [List.length_append]
  omega

/-- Characters are cut where it is allowed. -/
theorem cut (h : CharsAt text offset cs) (hcs : encode cs = front ++ back)
    (hcut : CleanCut front back) :
    ∃ ps qs, front = encode ps ∧ back = encode qs ∧ CharsAt text offset ps ∧
      CharsAt text (offset + front.length) qs := by
  obtain ⟨ps, qs, rfl, rfl⟩ := hcut.exists_encode hcs
  obtain ⟨before, after, rfl, rfl⟩ := h
  have hboth : CharsAt (encode before ++ (encode cs ++ encode after)) (encode before).length
      (ps ++ qs) := ⟨before, after, by rw [hcs, encode_append], rfl⟩
  exact ⟨ps, qs, rfl, rfl, hboth.left, hboth.right⟩

end CharsAt

/-- Between two cuts a text that is UTF-8 is made of characters. -/
theorem exists_charsAt {cs : List Char} {front middle back : Bytes}
    (htext : encode cs = front ++ (middle ++ back)) (hfront : CleanCut front (middle ++ back))
    (hback : CleanCut middle back) :
    ∃ ms, middle = encode ms ∧ CharsAt (encode cs) front.length ms := by
  have hwhole : CharsAt (encode cs) 0 cs := ⟨[], [], by simp, rfl⟩
  obtain ⟨-, rest, -, hrest, -, hbehind⟩ := hwhole.cut htext hfront
  obtain ⟨ms, -, hms, -, hmiddle, -⟩ := hbehind.cut hrest.symm hback
  exact ⟨ms, hms, Nat.zero_add front.length ▸ hmiddle⟩

/-- The start of a text is a boundary if all of it is UTF-8. -/
theorem isBoundary_zero (cs : List Char) : IsBoundary (encode cs) 0 :=
  ⟨[], cs, rfl, rfl⟩

theorem IsBoundary.exists_encode {text : Bytes} {offset : Nat} (h : IsBoundary text offset) :
    ∃ cs, text = encode cs := by
  obtain ⟨before, after, htext, -⟩ := h
  exact ⟨before ++ after, by rw [htext, encode_append]; rfl⟩

/-- From a boundary on the text is made of characters. -/
theorem IsBoundary.exists_charsAt {text : Bytes} {offset : Nat} (h : IsBoundary text offset) :
    ∃ cs, text.drop offset = encode cs ∧ CharsAt text offset cs := by
  obtain ⟨before, after, rfl, rfl⟩ := h
  exact ⟨after, List.drop_left, before, [], by simp, rfl⟩

end Utf8

/-! What is made of characters of one byte each. -/

theorem Grammar.Blanks.toNat_lt (b : Blanks) : ∀ c ∈ b.bytes, c.toNat < 0x80 := by
  intro c hc
  have hblank := b.blank c hc
  simp only [isBlank, Bool.or_eq_true, beq_iff_eq] at hblank
  rcases hblank with ((rfl | rfl) | rfl) | rfl <;> decide

theorem Grammar.Word.toNat_lt (w : Word) : ∀ b ∈ w.text, b.toNat < 0x80 := by
  have hall : w.text.all (·.toNat < 0x80) = true := by cases w <;> decide
  simpa using hall

/-- A visible character of one byte other than the quote. -/
def Ascii.IsMark (b : UInt8) : Prop :=
  0x20 < b.toNat ∧ b.toNat < 0x80 ∧ b ≠ quote

instance (b : UInt8) : Decidable (IsMark b) :=
  inferInstanceAs (Decidable (_ ∧ _ ∧ _))

theorem Ascii.isMark_of_isDigit {b : UInt8} (h : isDigit b = true) : IsMark b := by
  simp only [isDigit, Bool.and_eq_true, decide_eq_true_eq, UInt8.le_iff_toNat_le,
    UInt8.reduceToNat] at h
  have hquote : b ≠ quote := by
    rintro rfl
    exact absurd h (by decide)
  exact ⟨by omega, by omega, hquote⟩

/-- The characters that numbers are written with. -/
theorem Grammar.Numeral.mem_text (n : Numeral) :
    ∀ b ∈ n.literal.text, isDigit b = true ∨ b ∈ [minus, plus, dot, 0x65, 0x45] := by
  obtain ⟨l, hwell⟩ := n
  intro b hb
  simp only [Literal.text_eq, List.mem_append] at hb
  rcases hb with hsign | hwhole | hfraction | hexponent
  · cases hnegative : l.negative with
    | false => simp [hnegative, Literal.signText] at hsign
    | true =>
        obtain rfl : b = minus := by simpa [hnegative, Literal.signText] using hsign
        exact .inr (by decide)
  · exact .inl (hwell.whole.2 b hwhole)
  · cases hcase : l.fraction with
    | none => simp [hcase, Literal.fractionText] at hfraction
    | some ds =>
        simp only [hcase, Literal.fractionText, Option.elim_some, List.mem_cons] at hfraction
        rcases hfraction with rfl | hmem
        · exact .inr (by decide)
        · exact .inl ((hwell.fraction ds hcase).2 b hmem)
  · cases hcase : l.exponent with
    | none => simp [hcase, Literal.exponentText] at hexponent
    | some e =>
        have hmark := hwell.mark e hcase
        have hsign := hwell.sign e hcase
        simp only [isExponentMark, Bool.or_eq_true, beq_iff_eq] at hmark
        simp only [hcase, Literal.exponentText, Option.elim_some, Exponent.text, List.mem_cons,
          List.mem_append, Option.mem_toList] at hexponent
        rcases hexponent with rfl | hmem | hmem
        · rcases hmark with h | h <;> rw [h] <;> exact .inr (by decide)
        · rcases hsign b hmem with rfl | rfl <;> exact .inr (by decide)
        · exact .inl ((hwell.digits e hcase).2 b hmem)

theorem Grammar.Numeral.isMark (n : Numeral) : ∀ b ∈ n.literal.text, IsMark b := by
  have hmarks : ∀ b ∈ [minus, plus, dot, 0x65, 0x45], IsMark b :=
    List.all_iff_forall_prop.mp (by decide)
  intro b hb
  rcases n.mem_text b hb with hdigit | hmem
  · exact isMark_of_isDigit hdigit
  · exact hmarks b hmem

theorem Grammar.Numeral.toNat_lt (n : Numeral) : ∀ b ∈ n.literal.text, b.toNat < 0x80 :=
  fun b hb => (n.isMark b hb).2.1

end FlatJson
