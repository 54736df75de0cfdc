import FlatJson.Proofs.OneValue
import FlatJson.Proofs.Tape.Standing
import FlatJson.Proofs.Text.Boundary
import FlatJson.Proofs.Text.Refusal

/-!
# Lexemes that are read twice

The pass over a document finds out where a lexeme ends, and the lexeme is read in
full when its token is asked for. A token that is read against its own document
agrees with what the pass has seen: the text of a number is a number literal, so
that it is refused for its size or for being no integer (`RereadsNumber`), and the
text of a string ends in no backslash of its own, so that it is refused for an
escape that means nothing or for bytes that are not UTF-8 (`RereadsString`). What
a token is refused for stands within its span (`Fault.Blames`).
-/

namespace FlatJson

open Ascii Grammar

namespace Literal

/-- A text has the point of a fraction, or the mark of an exponent in either case. -/
def HasMark (text : Bytes) : Prop :=
  0x2E ∈ text ∨ 0x65 ∈ text ∨ 0x45 ∈ text

/-- An integer is written with digits, and with a minus in front. -/
theorem eq_minus_or_isDigit {l : Literal} (h : l.WellFormed) (hinteger : l.isInteger = true) :
    ∀ b ∈ l.text, b = minus ∨ isDigit b = true := by
  simp only [isInteger, Bool.and_eq_true, Option.isNone_iff_eq_none] at hinteger
  intro b hb
  rw [text_eq, hinteger.1, hinteger.2] at hb
  simp only [fractionText, exponentText, Option.elim_none, List.append_nil, List.mem_append] at hb
  rcases hb with hb | hb
  · cases hnegative : l.negative <;> simp_all [signText]
  · exact .inr (h.whole.2 b hb)

/-- Numbers that are no integers are those that are written with a mark. -/
theorem hasMark_iff {l : Literal} (h : l.WellFormed) :
    HasMark l.text ↔ l.isInteger = false := by
  constructor
  · intro hmark
    by_contra hinteger
    rw [Bool.not_eq_false] at hinteger
    rcases hmark with hb | hb | hb
    all_goals
      rcases eq_minus_or_isDigit h hinteger _ hb with hminus | hdigit
      · cases hminus
      · cases hdigit
  · intro hinteger
    rw [isInteger, Bool.and_eq_false_iff] at hinteger
    rw [text_eq]
    simp only [HasMark, List.mem_append]
    rcases hinteger with hfraction | hexponent
    · obtain ⟨ds, hds⟩ := Option.isSome_iff_exists.mp (Option.isNone_eq_false_iff.mp hfraction)
      rw [hds]
      exact .inl (.inr (.inr (.inl List.mem_cons_self)))
    · obtain ⟨e, he⟩ := Option.isSome_iff_exists.mp (Option.isNone_eq_false_iff.mp hexponent)
      have hmark := h.mark e he
      have hmem : e.mark ∈ exponentText l.exponent := by
        rw [he]
        exact List.mem_cons_self
      simp only [isExponentMark, Bool.or_eq_true, beq_iff_eq] at hmark
      rcases hmark with hmark | hmark
      · exact .inr (.inl (.inr (.inr (.inr (hmark ▸ hmem)))))
      · exact .inr (.inr (.inr (.inr (.inr (hmark ▸ hmem)))))

end Literal

/-- What a token may be refused for that is read against its own document. -/
inductive ReadCause.OfToken : ReadCause → Prop
  | numberOutOfRange : OfToken .numberOutOfRange
  | expectedInteger : OfToken .expectedInteger
  | integerOutOfRange : OfToken .integerOutOfRange
  | badEscape : OfToken .badEscape
  | invalidUtf8 : OfToken .invalidUtf8
  | mismatch (what : String) (found : Kind) : OfToken (.mismatch what found)
  | invalid (what : String) : OfToken (.invalid what)

/-- A fault blames a token: it is one of reading, for a cause that tokens are refused
for, at a place of the token's span. -/
inductive Fault.Blames (t : Token) : Fault → Prop
  | read {fault : ReadFault} : fault.cause.OfToken → t.start ≤ fault.offset →
      fault.offset ≤ t.stop → Blames t (.read fault)

theorem Source.length_of_textOf {s : Source} {t : Token} {text : Bytes}
    (h : s.textOf t = .ok text) : text.length = t.length := by
  rw [textOf, getBytes_eq] at h
  split at h
  · cases h
    rw [List.length_take, List.length_drop]
    omega
  · cases h

namespace Scalar

variable {s : Source} {t : Token}

/-- The text of a number token is a number literal. -/
theorem exists_numeral_textOf (h : Stands s.toBytes t) (hkind : t.kind = .number) :
    ∃ n : Numeral, s.textOf t = .ok n.literal.text := by
  obtain ⟨n, start, rfl, hlies⟩ := h.exists_numeral hkind
  exact ⟨n, Source.textOf_of_lies hlies rfl⟩

/-- The text of a string token stands between two quotes. -/
theorem exists_quoted_textOf (h : Stands s.toBytes t) (hkind : t.kind = .string) :
    ∃ (q : Quoted) (start : Nat), Lies s.toBytes start q.text ∧ s.textOf t = .ok q.raw ∧
      t.stop = t.start + q.raw.length := by
  obtain ⟨q, start, rfl, hlies⟩ := h.exists_quoted hkind
  exact ⟨q, start, hlies, Source.textOf_of_lies hlies.tail.left rfl, rfl⟩

end Scalar

/-- What is between two quotes of a text that is UTF-8 is made of characters. -/
theorem Grammar.Lies.exists_charsAt {cs : List Char} {start : Nat} {q : Quoted}
    (h : Lies (Utf8.encode cs) start q.text) :
    ∃ ds, q.raw = Utf8.encode ds ∧ Utf8.CharsAt (Utf8.encode cs) (start + 1) ds := by
  obtain ⟨before, after, htext, hstart⟩ := h
  have hinner : Utf8.encode cs = (before ++ [quote]) ++ (q.raw ++ (quote :: after)) := by
    rw [htext]
    simp [Quoted.text]
  obtain ⟨ds, hds, hchars⟩ := Utf8.exists_charsAt hinner (.behind before _ (by decide))
    (.ahead (notAhead_cons.mpr (by decide)))
  rw [List.length_append, hstart] at hchars
  exact ⟨ds, hds, hchars⟩

namespace Scalar

variable {s : Source} {t : Token} {fault : Fault}

/-- What a number token can be refused for, whose text is `raw`: as a floating-point
number for its size, and as an integer for its marks or its size. As a big decimal
it is its text. -/
structure RereadsNumber (s : Source) (t : Token) (raw : Bytes) : Prop where
  float : ∀ f fault, Scalar.float f s t = .error fault →
    fault = .read (.of .numberOutOfRange raw t.start)
  expectedInteger_iff : ∀ type,
    (∃ fault, Scalar.integer type s t = .error (.read fault) ∧ fault.cause = .expectedInteger) ↔
      Literal.HasMark raw
  integer : ∀ type fault, Scalar.integer type s t = .error fault →
    fault = .read (.of .expectedInteger raw t.start) ∨
      fault = .read (.of .integerOutOfRange raw t.start)
  bigDecimal : ∀ position rest, ∃ x : BigDecimal, x.text = raw ∧
    BigDecimal.form.numeral.decode ⟨s, position, t :: rest⟩ = .ok x ⟨s, position + 1, rest⟩

/-- What a string token can be refused for, whose text is `raw`: for a backslash that
starts no escape and has a byte behind it, or, in a document that is not UTF-8, for
not being UTF-8. -/
def RereadsString (s : Source) (t : Token) (raw : Bytes) : Prop :=
  ∀ fault, Scalar.string s t = .error fault →
    (∃ before rest, raw = before ++ backslash :: rest ∧ rest ≠ [] ∧
        fault = .read (.of .badEscape (Escape.shown (backslash :: rest))
          (t.start + before.length))) ∨
      Utf8.toString? s.toBytes = none ∧ fault = .read (.of .invalidUtf8 raw t.start)

theorem withText_numeral {α : Type} {n : Numeral} (hkind : t.kind = .number)
    (htext : s.textOf t = .ok n.literal.text) (parse : Bytes → Nat → Except ReadFault α) :
    withText s .number t parse = (parse n.literal.text t.start).mapError .read := by
  rw [← hkind]
  exact withText_eq htext parse

/-- A number token is kept as its text. -/
theorem exists_bigDecimal {n : Numeral} (hkind : t.kind = .number)
    (htext : s.textOf t = .ok n.literal.text) (position : Nat) (rest : List Token) :
    ∃ x : BigDecimal, x.text = n.literal.text ∧
      BigDecimal.form.numeral.decode ⟨s, position, t :: rest⟩ = .ok x ⟨s, position + 1, rest⟩ := by
  have hnumber : Literal.isNumberText n.literal.text = true := by
    rw [Literal.isNumberText, Literal.ofText?_numeral]
    rfl
  have hparse : BigDecimal.form.parse n.literal.text = some ⟨n.literal.text, hnumber⟩ :=
    dif_pos hnumber
  have hvalue : BigDecimal.form.parseNumeral n.literal.text t.start =
      .ok ⟨n.literal.text, hnumber⟩ := by
    rw [parseNumeral_numeral, hparse]
  have hread := withText_eq_ok_iff.mpr ⟨hkind, _, htext, hvalue⟩
  refine ⟨⟨n.literal.text, hnumber⟩, rfl, ?_⟩
  show Decoder.scalar (fun s t => withText s .number t BigDecimal.form.parseNumeral) _ = _
  exact Decoder.scalar_cons_eq_ok_iff.mpr ⟨hread, rfl⟩

theorem rereads_number {n : Numeral} (hkind : t.kind = .number)
    (htext : s.textOf t = .ok n.literal.text) : RereadsNumber s t n.literal.text := by
  have hmark := Literal.hasMark_iff n.wellFormed
  refine ⟨fun f fault h => ?_, fun type => ?_, fun type fault h => ?_,
    exists_bigDecimal hkind htext⟩
  · rw [float, withText_numeral hkind htext, parseFloat_numeral] at h
    split at h
    · cases h
    · cases h
      rfl
  · rw [hmark, integer, withText_numeral hkind htext, parseInteger_numeral]
    cases hinteger : n.literal.isInteger with
    | false => simp [Except.mapError, ReadFault.of]
    | true =>
        cases n.literal.member? type <;> simp [Except.mapError, ReadFault.of]
  · rw [integer, withText_numeral hkind htext, parseInteger_numeral] at h
    split at h
    · cases h
      exact .inl rfl
    · split at h
      · cases h
      · cases h
        exact .inr rfl

theorem rereads_string {q : Quoted} {start : Nat} (hkind : t.kind = .string)
    (hlies : Lies s.toBytes start q.text) (htext : s.textOf t = .ok q.raw) :
    RereadsString s t q.raw := by
  intro fault h
  rw [string, ← hkind, withText_eq htext] at h
  cases hunescape : Escape.unescape q.raw t.start with
  | ok text =>
      rw [hunescape] at h
      cases h
  | error f =>
      rw [hunescape] at h
      cases h
      rcases Escape.unescape_error q.inside hunescape with
        ⟨before, rest, hraw, hrest, -, rfl⟩ | ⟨hraw, rfl⟩
      · exact .inl ⟨before, rest, hraw, hrest, rfl⟩
      · refine .inr ⟨?_, rfl⟩
        rw [Option.eq_none_iff_forall_ne_some]
        intro text hutf8
        rw [Utf8.toString?_eq_some_iff.mp hutf8] at hlies
        obtain ⟨ds, hds, -⟩ := hlies.exists_charsAt
        exact hraw ds hds

/-- A token is refused by one of the readers of single tokens. -/
inductive Refuses (s : Source) (t : Token) (fault : Fault) : Prop
  | bool : Scalar.bool s t = .error fault → Refuses s t fault
  | null : Scalar.null s t = .error fault → Refuses s t fault
  | float (f : Format) : Scalar.float f s t = .error fault → Refuses s t fault
  | integer (type : IntType) : Scalar.integer type s t = .error fault → Refuses s t fault
  | numeral {α : Type} (form : TextForm α) :
      withText s .number t form.parseNumeral = .error fault → Refuses s t fault
  | string : Scalar.string s t = .error fault → Refuses s t fault
  | children (kind : Kind) : Scalar.children kind s t = .error fault → Refuses s t fault

/-- What a token is refused with that stands in the document: it is of another kind than
was asked for, or it is refused for its whole text, or for an escape in it, or since the
document is not UTF-8. -/
inductive Refusal (s : Source) (t : Token) : Fault → Prop
  | mismatch (what : String) : Refusal s t (.read (s.mismatch what t))
  | whole {cause : ReadCause} {raw : Bytes} : cause.OfToken → s.textOf t = .ok raw →
      Refusal s t (.read (.of cause raw t.start))
  | escape {before rest : Bytes} : s.textOf t = .ok (before ++ backslash :: rest) →
      Refusal s t (.read (.of .badEscape (Escape.shown (backslash :: rest))
        (t.start + before.length)))
  | encoding {raw : Bytes} : Utf8.toString? s.toBytes = none →
      Refusal s t (.read (.of .invalidUtf8 raw t.start))

/-- A token that is asked for its text has the kind that is asked for, or it is
refused for another. -/
theorem withText_refusal {α : Type} {kind : Kind} {parse : Bytes → Nat → Except ReadFault α}
    (hrefused : withText s kind t parse = .error fault)
    (hkind : t.kind = kind → Refusal s t fault) : Refusal s t fault := by
  by_cases hsame : t.kind = kind
  · exact hkind hsame
  · unfold withText expectKind at hrefused
    rw [if_neg hsame] at hrefused
    cases hrefused
    exact .mismatch kind.name

theorem Refuses.refusal (h : Stands s.toBytes t) (hrefuses : Refuses s t fault) :
    Refusal s t fault := by
  cases hrefuses with
  | bool hread =>
      unfold Scalar.bool at hread
      split at hread <;> cases hread
      exact .mismatch _
  | null hread =>
      unfold Scalar.null at hread
      split at hread <;> cases hread
      exact .mismatch _
  | float f hread =>
      refine withText_refusal hread fun hkind => ?_
      obtain ⟨n, htext⟩ := exists_numeral_textOf h hkind
      rw [(rereads_number hkind htext).float f fault hread]
      exact .whole .numberOutOfRange htext
  | integer type hread =>
      refine withText_refusal hread fun hkind => ?_
      obtain ⟨n, htext⟩ := exists_numeral_textOf h hkind
      rcases (rereads_number hkind htext).integer type fault hread with rfl | rfl
      · exact .whole .expectedInteger htext
      · exact .whole .integerOutOfRange htext
  | numeral form hread =>
      refine withText_refusal hread fun hkind => ?_
      obtain ⟨n, htext⟩ := exists_numeral_textOf h hkind
      rw [withText_numeral hkind htext, parseNumeral_numeral] at hread
      split at hread <;> cases hread
      exact .whole (.invalid form.what) htext
  | string hread =>
      refine withText_refusal hread fun hkind => ?_
      obtain ⟨q, start, hlies, htext, -⟩ := exists_quoted_textOf h hkind
      rcases rereads_string hkind hlies htext fault hread with
        ⟨before, rest, hraw, -, rfl⟩ | ⟨hnone, rfl⟩
      · exact .escape (hraw ▸ htext)
      · exact .encoding hnone
  | children kind hread =>
      unfold Scalar.children expectKind at hread
      by_cases hsame : t.kind = kind
      · rw [if_pos hsame] at hread
        cases hread
      · rw [if_neg hsame] at hread
        cases hread
        exact .mismatch kind.name

theorem Refuses.blames (h : Stands s.toBytes t) (hrefuses : Refuses s t fault) :
    fault.Blames t := by
  have hspan := h.start_le_stop
  cases hrefuses.refusal h with
  | mismatch what => exact .read (.mismatch what t.kind) (Nat.le_refl _) hspan
  | whole hcause _ => exact .read hcause (Nat.le_refl _) hspan
  | @escape before rest htext =>
      have hlength := Source.length_of_textOf htext
      rw [List.length_append, List.length_cons, Token.length] at hlength
      refine .read .badEscape (Nat.le_add_right _ _) ?_
      show t.start + before.length ≤ t.stop
      omega
  | encoding _ => exact .read .invalidUtf8 (Nat.le_refl _) hspan

end Scalar

open ByteReader LawfulReader

/-- Every token of a tape is read again against the document that it was found in. A
number is refused for its size, or as an integer for a mark in its text, and a
string for an escape that means nothing, or for not being UTF-8 in a document that
is not. No reader of single tokens finds that a text is no number literal, that it
is hexadecimal, or that it is not there. -/
theorem Tape.lexemes_read_again {ρ : Type} [ByteReader ρ] [LawfulReader ρ] {limits : Limits}
    {r : ρ} {tape : Tape} (h : (Tape.read limits r).1 = .ok tape) {source : Source}
    (hsource : source.toBytes = content r) {t : Token} (ht : t ∈ tape.tokens) :
    (t.kind = .number →
        ∃ raw, source.textOf t = .ok raw ∧ Scalar.RereadsNumber source t raw) ∧
      (t.kind = .string →
        ∃ raw, source.textOf t = .ok raw ∧ Scalar.RereadsString source t raw) ∧
      ∀ fault, Scalar.Refuses source t fault →
        ∃ f, fault = .read f ∧ f.cause ≠ .invalidNumber ∧ f.cause ≠ .hexadecimal := by
  have hstands : Stands source.toBytes t := hsource ▸ Tape.stands_of_read h t ht
  refine ⟨fun hkind => ?_, fun hkind => ?_, fun fault hrefuses => ?_⟩
  · obtain ⟨n, htext⟩ := Scalar.exists_numeral_textOf hstands hkind
    exact ⟨_, htext, Scalar.rereads_number hkind htext⟩
  · obtain ⟨q, start, hlies, htext, -⟩ := Scalar.exists_quoted_textOf hstands hkind
    exact ⟨_, htext, Scalar.rereads_string hkind hlies htext⟩
  · cases hrefuses.blames hstands with
    | @read f hcause _ _ =>
        refine ⟨f, rfl, ?_, ?_⟩
        all_goals
          intro heq
          rw [heq] at hcause
          cases hcause

/-- In `[1.5,"\x"]` the number is no integer, and the backslash is refused with a byte
behind it. -/
theorem Tape.lexemes_read_again_point :
    (∃ fault, Scalar.integer .int32
        (.ofBytes [0x5B, 0x31, 0x2E, 0x35, 0x2C, 0x22, 0x5C, 0x78, 0x22, 0x5D])
        ⟨.number, 1, 4, 0⟩ = .error (.read fault) ∧ fault.cause = .expectedInteger) ∧
      ∃ raw, Source.textOf (.ofBytes [0x5B, 0x31, 0x2E, 0x35, 0x2C, 0x22, 0x5C, 0x78, 0x22, 0x5D])
          ⟨.string, 6, 8, 0⟩ = .ok raw ∧
        Scalar.RereadsString
          (.ofBytes [0x5B, 0x31, 0x2E, 0x35, 0x2C, 0x22, 0x5C, 0x78, 0x22, 0x5D])
          ⟨.string, 6, 8, 0⟩ raw := by
  have hread : (Tape.read {} (SliceReader.ofSource
      (.ofBytes [0x5B, 0x31, 0x2E, 0x35, 0x2C, 0x22, 0x5C, 0x78, 0x22, 0x5D]))).1 =
        .ok ⟨[⟨.array, 0, 10, 2⟩, ⟨.number, 1, 4, 0⟩, ⟨.string, 6, 8, 0⟩]⟩ := by
    cbv
  obtain ⟨hnumber, -, -⟩ := Tape.lexemes_read_again hread rfl (t := ⟨.number, 1, 4, 0⟩) (by decide)
  obtain ⟨-, hstring, -⟩ := Tape.lexemes_read_again hread rfl (t := ⟨.string, 6, 8, 0⟩) (by decide)
  obtain ⟨raw, htext, hrereads⟩ := hnumber rfl
  have hraw : raw = [0x31, 0x2E, 0x35] := (Except.ok.inj htext).symm
  refine ⟨(hrereads.expectedInteger_iff .int32).mpr ?_, hstring rfl⟩
  rw [hraw]
  exact .inl (by decide)

end FlatJson
