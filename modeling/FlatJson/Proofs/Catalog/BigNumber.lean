import FlatJson.Proofs.Number.Integer
import FlatJson.Proofs.Tape.Room
import FlatJson.Proofs.Text.Boundary

/-!
# Big numbers keep their text

The text of a big number is a number literal, and the text that it was read from. A text
is parsed if it is read as a document and has no blanks around it, and a big number that
is written in any place of a document is read again from there (`bigNumbers_lossless`).
-/

namespace FlatJson

open Ascii Grammar Literal Decoder

namespace Ascii

/-- A text has no blanks around it. -/
def Trimmed (text : Bytes) : Prop :=
  NotAhead isBlank text ∧ NotAhead isBlank text.reverse

theorem IsMark.isBlank {b : UInt8} (h : IsMark b) : isBlank b = false := by
  refine Bool.eq_false_iff.mpr fun hblank => ?_
  simp only [Ascii.isBlank, Bool.or_eq_true, beq_iff_eq] at hblank
  rcases hblank with ((rfl | rfl) | rfl) | rfl <;> exact absurd h (by decide)

theorem trimmed_of_marks {text : Bytes} (h : ∀ b ∈ text, IsMark b) : Trimmed text :=
  ⟨fun b hb => (h b (List.mem_of_mem_head? hb)).isBlank,
    fun b hb => (h b (List.mem_reverse.mp (List.mem_of_mem_head? hb))).isBlank⟩

theorem NotAhead.eq_nil {p : UInt8 → Bool} {bs rest : Bytes} (h : NotAhead p (bs ++ rest))
    (hbs : ∀ b ∈ bs, p b = true) : bs = [] := by
  cases bs with
  | nil => rfl
  | cons b bs =>
      have hb := h b rfl
      rw [hbs b List.mem_cons_self] at hb
      cases hb

/-- There are no blanks around a text that is trimmed with them. -/
theorem Trimmed.eq_nil {before text after : Bytes} (h : Trimmed (before ++ text ++ after))
    (hbefore : ∀ b ∈ before, isBlank b = true) (hafter : ∀ b ∈ after, isBlank b = true) :
    before = [] ∧ after = [] := by
  obtain ⟨hfront, hback⟩ := h
  rw [List.append_assoc] at hfront
  rw [List.reverse_append] at hback
  refine ⟨hfront.eq_nil hbefore, List.reverse_eq_nil_iff.mp (hback.eq_nil fun b hb => ?_)⟩
  exact hafter b (List.mem_reverse.mp hb)

end Ascii

namespace Literal

theorem isNumberText_iff {text : Bytes} : isNumberText text = true ↔ IsNumber text := by
  rw [isNumberText, Option.isSome_iff_exists, IsNumber]
  exact exists_congr fun l => ofText?_eq_some_iff

theorem isIntegerText_iff {text : Bytes} :
    isIntegerText text = true ↔ IsNumber text ∧ ¬HasMark text := by
  rw [isIntegerText, Option.any_eq_true]
  constructor
  · rintro ⟨l, hl, hinteger⟩
    obtain ⟨hwell, rfl⟩ := ofText?_eq_some_iff.mp hl
    refine ⟨⟨l, hwell, rfl⟩, fun hmark => ?_⟩
    rw [(hasMark_iff hwell).mp hmark] at hinteger
    cases hinteger
  · rintro ⟨⟨l, hwell, rfl⟩, hmark⟩
    exact ⟨l, ofText?_eq_some_iff.mpr ⟨hwell, rfl⟩,
      eq_true_of_ne_false fun hinteger => hmark ((hasMark_iff hwell).mpr hinteger)⟩

end Literal

namespace TextForm

variable {α : Type} {form : TextForm α} {x : α}

theorem parseNumeral_eq_ok_iff {text : Bytes} {offset : ℕ} :
    form.parseNumeral text offset = .ok x ↔ IsNumber text ∧ form.parse text = some x := by
  by_cases hnumber : IsNumber text
  · rw [and_iff_right hnumber]
    obtain ⟨l, hwell, rfl⟩ := hnumber
    rw [Scalar.parseNumeral_numeral form ⟨l, hwell⟩]
    cases form.parse l.text <;> simp
  · have hliteral : ∃ fault, Scalar.literal text offset = .error fault := by
      by_cases hhex : BeginsHexadecimal text
      · exact ⟨_, Scalar.literal_of_beginsHexadecimal hhex⟩
      · exact ⟨_, Scalar.literal_of_not_isNumber hhex hnumber⟩
    obtain ⟨fault, hfault⟩ := hliteral
    rw [parseNumeral, hfault]
    exact iff_of_false (by rintro ⟨⟩) fun h => hnumber h.1

/-- A numeral is read off a number token that has the text of a number literal, as what
the text is parsed as. -/
theorem decode_numeral_eq_ok_iff {source : Source} {position : ℕ} {t : Token} {rest : List Token}
    {d : Cursor} :
    form.numeral.decode ⟨source, position, t :: rest⟩ = .ok x d ↔
      t.kind = .number ∧
        (∃ text, source.textOf t = .ok text ∧ IsNumber text ∧ form.parse text = some x) ∧
        d = ⟨source, position + 1, rest⟩ := by
  show scalar (fun s t => Scalar.withText s .number t form.parseNumeral) _ = _ ↔ _
  rw [scalar_cons_eq_ok_iff, Scalar.withText_eq_ok_iff, and_assoc]
  simp only [parseNumeral_eq_ok_iff]

theorem reads_numeral {n : Numeral} (h : form.parse n.literal.text = some x) :
    Reads form.numeral.decode (.scalar (.number n)) x := by
  intro source start hlies position rest
  exact decode_numeral_eq_ok_iff.mpr
    ⟨rfl, ⟨_, Source.textOf_of_lies hlies rfl, ⟨_, n.wellFormed, rfl⟩, h⟩, rfl⟩

/-- Where a numeral is read of a tree, the tree is a number. -/
theorem exists_numeral_of_decode {t : Tree} {source : Source} {start position : ℕ}
    {rest : List Token} {d : Cursor} (hlies : Lies source.toBytes start t.text)
    (h : form.numeral.decode ⟨source, position, t.tokens start ++ rest⟩ = .ok x d) :
    ∃ n : Numeral, t = .scalar (.number n) ∧ form.parse n.literal.text = some x := by
  obtain ⟨token, more, htokens, hsame⟩ := t.exists_token start
  rw [htokens, List.cons_append] at h
  obtain ⟨hkind, ⟨text, htext, -, hparse⟩, -⟩ := decode_numeral_eq_ok_iff.mp h
  obtain ⟨n, rfl⟩ := Tree.begins (hsame.symm.trans hkind)
  cases htokens
  have hnumeral : source.textOf ((Lexeme.number n).token start) = .ok n.literal.text :=
    Source.textOf_of_lies hlies rfl
  rw [hnumeral] at htext
  cases htext
  exact ⟨n, rfl, hparse⟩

theorem settles_numeral (form : TextForm α) (t : Tree) : Settles form.numeral.decode t := by
  by_cases h : ∃ (n : Numeral) (x : α), t = .scalar (.number n) ∧
      form.parse n.literal.text = some x
  · obtain ⟨n, x, rfl, hx⟩ := h
    exact .inl ⟨x, reads_numeral hx⟩
  · refine .inr fun source start hlies position rest => ?_
    cases hdecode : form.numeral.decode ⟨source, position, t.tokens start ++ rest⟩ with
    | error fault d => exact ⟨fault, d, rfl⟩
    | ok x d =>
        obtain ⟨n, hn, hx⟩ := exists_numeral_of_decode hlies hdecode
        exact absurd ⟨n, x, hn, hx⟩ h

/-- The values of a type are number literals that are kept as their texts, from wherever
they are read and to wherever they are written. -/
structure Lossless (form : TextForm α) (IsText : Bytes → Prop) : Prop where
  /-- The text of a value is one of the texts of the type, and these are number literals. -/
  isNumber : ∀ {text}, IsText text → IsNumber text
  isText : ∀ x, IsText (form.text x)
  /-- These texts are parsed and no others, and none is changed. -/
  parse_eq_some_iff : ∀ {text x}, form.parse text = some x ↔ IsText text ∧ form.text x = text
  /-- Texts are parsed as they are read as documents, if there are no blanks around them. -/
  parse_iff_ofBytes : ∀ {text x},
    form.parse text = some x ↔ form.numeral.ofBytes text = .ok x ∧ Trimmed text
  /-- A value is read off the number tokens of which the text is its own. -/
  decode_eq_ok_iff : ∀ {source position t rest x d},
    form.numeral.decode ⟨source, position, t :: rest⟩ = .ok x d ↔
      t.kind = .number ∧ source.textOf t = .ok (form.text x) ∧ d = ⟨source, position + 1, rest⟩
  /-- What is written in any place of a document is the text, which has a number token and
  is read off that as the same value. -/
  slot : ∀ {limits before after front back i}, Slot limits before after front back i →
    ∀ x, (before ++ (form.numeral.emit x ++ after)).toBytes =
        .ok (front ++ (form.text x ++ back)) ∧
      ∃ tape, Tape.ofSource limits (.ofBytes (front ++ (form.text x ++ back))) = .ok tape ∧
        tape.tokens[i]? =
          some (.scalar .number front.length (front.length + (form.text x).length)) ∧
        form.numeral.decode (tape.cursorAt (.ofBytes (front ++ (form.text x ++ back))) i) =
          .ok x (tape.cursorAt (.ofBytes (front ++ (form.text x ++ back))) (i + 1))

/-- A type is lossless if it parses its texts, which are number literals, as they are. -/
theorem lossless_of_parse {IsText : Bytes → Prop}
    (hnumber : ∀ {text}, IsText text → IsNumber text) (htext : ∀ x, IsText (form.text x))
    (hparse : ∀ {text x}, form.parse text = some x ↔ IsText text ∧ form.text x = text) :
    form.Lossless IsText where
  isNumber := hnumber
  isText := htext
  parse_eq_some_iff := hparse
  parse_iff_ofBytes {text x} := by
    constructor
    · intro h
      obtain ⟨l, hwell, rfl⟩ := hnumber (hparse.mp h).1
      refine ⟨?_, trimmed_of_marks (Numeral.isMark ⟨l, hwell⟩)⟩
      exact (reads_numeral (n := ⟨l, hwell⟩) h).ofSource (Nat.zero_le _)
    · rintro ⟨h, htrimmed⟩
      cases htape : Tape.ofSource {} (.ofBytes text) with
      | error fault =>
          rw [Codec.ofBytes, Codec.ofSource, htape] at h
          cases h
      | ok tape =>
          obtain ⟨d, hd, -, -⟩ := Scan.document_eq_ok_iff.mp (Tape.read_fst_eq_ok_iff.mp htape)
          obtain rfl : d.text = text := hd
          have hreads := Document.reads_of_ofSource (settles_numeral form d.tree) h
          obtain ⟨n, hn, hx⟩ :=
            exists_numeral_of_decode (Lies.self d.tree.text) (hreads (Lies.self d.tree.text) 0 [])
          obtain ⟨hbefore, hafter⟩ := htrimmed.eq_nil d.before.blank d.after.blank
          rw [Document.text, hbefore, hafter, hn, List.nil_append, List.append_nil]
          exact hx
  decode_eq_ok_iff {source position t rest x d} := by
    rw [decode_numeral_eq_ok_iff]
    refine and_congr_right fun _ => and_congr_left fun _ => ⟨?_, fun h => ?_⟩
    · rintro ⟨text, htextOf, -, hx⟩
      rwa [(hparse.mp hx).2]
    · exact ⟨_, h, hnumber (htext x), hparse.mpr ⟨htext x, rfl⟩⟩
  slot hslot x := by
    obtain ⟨n, hcarries⟩ := Codec.exists_carries_numeral
      (isNumberText_iff.mpr (hnumber (htext x))) (hparse.mpr ⟨htext x, rfl⟩)
    have hn : n.literal.text = form.text x := hcarries.writes.unique (Emission.writes_raw _)
    rw [← hn]
    exact hcarries.slot hslot

end TextForm

theorem BigInteger.ofText?_eq_some_iff {text : Bytes} {x : BigInteger} :
    ofText? text = some x ↔ (IsNumber text ∧ ¬HasMark text) ∧ x.text = text := by
  rw [← isIntegerText_iff, ofText?]
  constructor
  · intro h
    split at h
    · next htext =>
        cases h
        exact ⟨htext, rfl⟩
    · cases h
  · rintro ⟨htext, rfl⟩
    exact dif_pos htext

theorem BigDecimal.ofText?_eq_some_iff {text : Bytes} {x : BigDecimal} :
    ofText? text = some x ↔ IsNumber text ∧ x.text = text := by
  rw [← isNumberText_iff, ofText?]
  constructor
  · intro h
    split at h
    · next htext =>
        cases h
        exact ⟨htext, rfl⟩
    · cases h
  · rintro ⟨htext, rfl⟩
    exact dif_pos htext

/-- Every integer is written as the text of a big integer, and is what that stands for. -/
theorem BigInteger.exists_ofInt? (n : ℤ) :
    ∃ x : BigInteger, ofInt? n = some x ∧ x.text = Ascii.integer n ∧ x.literal.integer = n := by
  have hliteral : Literal.ofText? (Ascii.integer n) = some (ofInt n) :=
    Literal.ofText?_eq_some_iff.mpr ⟨wellFormed_ofInt n, (text_ofInt n).symm⟩
  have htext : Literal.isIntegerText (Ascii.integer n) = true := by
    rw [Literal.isIntegerText, hliteral]
    rfl
  refine ⟨⟨Ascii.integer n, htext⟩, dif_pos htext, rfl, ?_⟩
  have hparts : literal ⟨Ascii.integer n, htext⟩ = ofInt n :=
    Option.get_of_eq_some _ hliteral
  rw [hparts, integer_ofInt]

/-- Big numbers are lossless: big integers are the number literals without a mark, and big
decimals are all number literals. Every integer is a big integer, with the text that it is
written with, and every big integer is a big decimal with the same text. -/
theorem bigNumbers_lossless :
    BigInteger.form.Lossless (fun text => IsNumber text ∧ ¬HasMark text) ∧
    BigDecimal.form.Lossless IsNumber ∧
    (∀ n : ℤ, ∃ x : BigInteger, BigInteger.ofInt? n = some x ∧ x.text = Ascii.integer n ∧
      x.literal.integer = n) ∧
    ∀ x : BigInteger, (BigDecimal.ofBigInteger x).text = x.text :=
  ⟨TextForm.lossless_of_parse And.left (fun x => isIntegerText_iff.mp x.isIntegerText)
      BigInteger.ofText?_eq_some_iff,
    TextForm.lossless_of_parse id (fun x => isNumberText_iff.mp x.isNumberText)
      BigDecimal.ofText?_eq_some_iff,
    BigInteger.exists_ofInt?, fun _ => rfl⟩

/-- The number `-00…01` of 24 digits, as the element of `[null]`. -/
theorem bigNumbers_lossless_element :
    ∃ x : BigInteger, x.text = 0x2D :: (List.replicate 23 0x30 ++ [0x31]) ∧
      (Emission.byte openBracket ++ (BigInteger.form.numeral.emit x ++
        Emission.byte closeBracket)).toBytes = .ok (0x5B :: (x.text ++ [0x5D])) ∧
      ∃ tape, Tape.ofSource {} (.ofBytes (0x5B :: (x.text ++ [0x5D]))) = .ok tape ∧
        BigInteger.form.numeral.decode
            (tape.cursorAt (.ofBytes (0x5B :: (x.text ++ [0x5D]))) 1) =
          .ok x (tape.cursorAt (.ofBytes (0x5B :: (x.text ++ [0x5D]))) 2) := by
  have htext : isIntegerText (0x2D :: (List.replicate 23 0x30 ++ [0x31])) = true := by
    decide +kernel
  have hslot : Slot {} (Emission.byte openBracket) (Emission.byte closeBracket) [0x5B] [0x5D] 1 :=
    ⟨Emission.writes_raw _, Emission.writes_raw _, _, _, by cbv, rfl, rfl, rfl⟩
  obtain ⟨hbytes, tape, htape, -, hread⟩ := bigNumbers_lossless.1.slot hslot ⟨_, htext⟩
  exact ⟨⟨_, htext⟩, rfl, hbytes, tape, htape, hread⟩

end FlatJson
