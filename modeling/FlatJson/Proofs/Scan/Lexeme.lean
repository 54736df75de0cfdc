import FlatJson.Proofs.Number.Scan
import FlatJson.Tape.Scan

/-!
# Scanning blanks and lexemes

The readers of the pass that know nothing of containers, each against its rule
of the grammar. A reader has a lemma `…_ok` for what it found when it succeeds
and a lemma `…_append` for a text with such a piece at its front. A number is
read in full only where something ends it, and in a document that is a
delimiter or the end of the text (`Delimited`).
-/

namespace FlatJson

open Ascii

namespace Scan

open Grammar

/-- The bytes that may stand right behind a value. -/
def isDelimiter (b : UInt8) : Bool :=
  isBlank b || b == comma || b == closeBracket || b == closeBrace

/-- A text that a value may end before: it begins with a delimiter, or it is
empty. -/
def Delimited (rest : Bytes) : Prop :=
  ∀ b ∈ rest.head?, isDelimiter b = true

theorem delimited_nil : Delimited [] := by
  intro b hb
  cases hb

theorem delimited_cons {b : UInt8} {rest : Bytes} :
    Delimited (b :: rest) ↔ isDelimiter b = true := by
  simp [Delimited]

/-- Blanks do not keep a value from ending. -/
theorem Delimited.append_blanks {rest : Bytes} (h : Delimited rest) (b : Blanks) :
    Delimited (b.bytes ++ rest) := by
  obtain ⟨bytes, hblank⟩ := b
  cases bytes with
  | nil => exact h
  | cons c bytes =>
      have hc : isBlank c = true := hblank c List.mem_cons_self
      refine delimited_cons.mpr ?_
      simp [isDelimiter, hc]

/-- No byte of a class is a delimiter, so that a delimited text does not begin
with one. -/
theorem Delimited.notAhead {rest : Bytes} (h : Delimited rest) {p : UInt8 → Bool}
    (hp : ∀ b, isDelimiter b = true → p b = false) : NotAhead p rest :=
  fun b hb => hp b (h b hb)

theorem isDelimiter_cases {b : UInt8} (h : isDelimiter b = true) :
    b = 0x20 ∨ b = 0x09 ∨ b = 0x0A ∨ b = 0x0D ∨ b = comma ∨ b = closeBracket ∨
      b = closeBrace := by
  simpa [isDelimiter, isBlank, or_assoc] using h

theorem isDigit_of_isDelimiter {b : UInt8} (h : isDelimiter b = true) : isDigit b = false := by
  rcases isDelimiter_cases h with rfl | rfl | rfl | rfl | rfl | rfl | rfl <;> decide

theorem isExponentMark_of_isDelimiter {b : UInt8} (h : isDelimiter b = true) :
    isExponentMark b = false := by
  rcases isDelimiter_cases h with rfl | rfl | rfl | rfl | rfl | rfl | rfl <;> decide

theorem eq_dot_of_isDelimiter {b : UInt8} (h : isDelimiter b = true) : (b == dot) = false := by
  rcases isDelimiter_cases h with rfl | rfl | rfl | rfl | rfl | rfl | rfl <;> decide

/-- Every number literal ends before a delimiter. -/
theorem Delimited.stops {rest : Bytes} (h : Delimited rest) (l : Literal) : l.Stops rest :=
  ⟨h.notAhead fun _ => isDigit_of_isDelimiter,
    fun _ => h.notAhead fun _ => isExponentMark_of_isDelimiter,
    fun _ _ => h.notAhead fun _ => eq_dot_of_isDelimiter⟩

/-! Blanks. -/

theorem skipBlanks_eq (offset : Nat) (bs : Bytes) :
    skipBlanks offset bs = ⟨offset + (bs.takeWhile isBlank).length, bs.dropWhile isBlank⟩ := by
  induction bs generalizing offset with
  | nil => rfl
  | cons b bs ih =>
      rw [skipBlanks]
      by_cases hb : isBlank b = true
      · rw [if_pos hb, ih, List.takeWhile_cons_of_pos hb, List.dropWhile_cons_of_pos hb,
          List.length_cons, Nat.add_assoc, Nat.add_comm 1]
      · rw [if_neg hb, List.takeWhile_cons_of_neg hb, List.dropWhile_cons_of_neg hb]
        rfl

theorem skipBlanks_append (offset : Nat) (b : Blanks) (rest : Bytes) :
    skipBlanks offset (b.bytes ++ rest) = skipBlanks (offset + b.bytes.length) rest := by
  rw [skipBlanks_eq, skipBlanks_eq, List.takeWhile_append_of_pos b.blank,
    List.dropWhile_append_of_pos b.blank, List.length_append, Nat.add_assoc]

theorem skipBlanks_of_notAhead {rest : Bytes} (offset : Nat) (h : NotAhead isBlank rest) :
    skipBlanks offset rest = ⟨offset, rest⟩ := by
  rw [skipBlanks_eq, takeWhile_of_notAhead h, dropWhile_of_notAhead h]
  rfl

/-- Blanks are skipped once: there are none where a skip has stopped. -/
theorem skipBlanks_skipBlanks (offset : Nat) (bs : Bytes) :
    skipBlanks (skipBlanks offset bs).offset (skipBlanks offset bs).rest =
      skipBlanks offset bs := by
  rw [skipBlanks_eq offset bs]
  exact skipBlanks_of_notAhead _ (notAhead_dropWhile isBlank bs)

/-- What a skip passes over is a run of blanks. -/
theorem exists_blanks_of_skipBlanks {offset : Nat} {bs : Bytes} {p : Place}
    (h : skipBlanks offset bs = p) :
    ∃ b : Blanks, bs = b.bytes ++ p.rest ∧ p.offset = offset + b.bytes.length := by
  rw [skipBlanks_eq] at h
  subst h
  exact ⟨⟨bs.takeWhile isBlank, fun _ hb => List.mem_takeWhile_imp hb⟩,
    List.takeWhile_append_dropWhile.symm, rfl⟩

/-! Strings. -/

theorem closeString_ok {opening offset : Nat} {bs : Bytes} {after : Place}
    (h : closeString opening offset bs = .ok after) :
    ∃ raw, Inside raw ∧ bs = raw ++ quote :: after.rest ∧
      after.offset = offset + raw.length + 1 := by
  fun_induction closeString opening offset bs with
  | case1 => cases h
  | case2 offset b rest hb =>
      cases h
      rw [beq_iff_eq] at hb
      subst hb
      exact ⟨[], .nil, rfl, rfl⟩
  | case3 => cases h
  | case4 offset b hq hb c rest ih =>
      obtain ⟨raw, hraw, rfl, hoffset⟩ := ih h
      rw [beq_iff_eq] at hb
      subst hb
      refine ⟨backslash :: c :: raw, .escaped c hraw, rfl, ?_⟩
      rw [hoffset, List.length_cons, List.length_cons]
      omega
  | case5 => cases h
  | case6 offset b rest hq hb hc ih =>
      obtain ⟨raw, hraw, rfl, hoffset⟩ := ih h
      rw [beq_iff_eq] at hq hb
      rw [Bool.not_eq_true] at hc
      refine ⟨b :: raw, .plain hc hq hb hraw, rfl, ?_⟩
      rw [hoffset, List.length_cons]
      omega

theorem closeString_quote (opening offset : Nat) (rest : Bytes) :
    closeString opening offset (quote :: rest) = .ok ⟨offset + 1, rest⟩ := by
  rw [closeString.eq_def]
  rfl

theorem closeString_plain (opening offset : Nat) {b : UInt8} (rest : Bytes)
    (hc : isControl b = false) (hq : b ≠ quote) (hb : b ≠ backslash) :
    closeString opening offset (b :: rest) = closeString opening (offset + 1) rest := by
  rw [closeString.eq_def]
  simp [hc, hq, hb]

theorem closeString_escaped (opening offset : Nat) (b : UInt8) (rest : Bytes) :
    closeString opening offset (backslash :: b :: rest) =
      closeString opening (offset + 2) rest := by
  rw [closeString.eq_def]
  rfl

theorem closeString_append (opening : Nat) {raw : Bytes} (hraw : Inside raw) (offset : Nat)
    (rest : Bytes) :
    closeString opening offset (raw ++ quote :: rest) = .ok ⟨offset + raw.length + 1, rest⟩ := by
  induction hraw generalizing offset with
  | nil => exact closeString_quote opening offset rest
  | plain hc hq hb _ ih =>
      rw [List.cons_append, closeString_plain _ _ _ hc hq hb, ih, List.length_cons]
      congr 2
      omega
  | escaped b _ ih =>
      rw [List.cons_append, List.cons_append, closeString_escaped, ih, List.length_cons,
        List.length_cons]
      congr 2
      omega

theorem string_ok {opening : Nat} {bs : Bytes} {token : Token} {after : Place}
    (h : string opening bs = .ok (token, after)) :
    ∃ s : Quoted, quote :: bs = s.text ++ after.rest ∧
      token = (Lexeme.string s).token opening ∧ after.offset = opening + s.text.length := by
  unfold string at h
  split at h
  · next hclose =>
      cases h
      obtain ⟨raw, hraw, rfl, hoffset⟩ := closeString_ok hclose
      refine ⟨⟨raw, hraw⟩, by simp [Quoted.text], ?_, ?_⟩
      · rw [hoffset]
        rfl
      · rw [hoffset]
        simp only [Quoted.text, List.length_cons, List.length_append, List.length_nil]
        omega
  · cases h

theorem string_append (opening : Nat) (s : Quoted) (rest : Bytes) :
    string opening (s.raw ++ quote :: rest) =
      .ok ((Lexeme.string s).token opening, ⟨opening + s.text.length, rest⟩) := by
  have hlength : opening + s.text.length = opening + 1 + s.raw.length + 1 := by
    simp only [Quoted.text, List.length_cons, List.length_append, List.length_nil]
    omega
  unfold string
  rw [closeString_append opening s.inside, hlength]
  rfl

/-! Words. -/

theorem word_ok {start offset : Nat} {expected bs : Bytes} {after : Place}
    (h : word start offset expected bs = .ok after) :
    bs = expected ++ after.rest ∧ after.offset = offset + expected.length := by
  fun_induction word start offset expected bs with
  | case1 => cases h; exact ⟨rfl, rfl⟩
  | case2 => cases h
  | case3 offset w expected b rest hb ih =>
      obtain ⟨rfl, hoffset⟩ := ih h
      rw [beq_iff_eq] at hb
      subst hb
      refine ⟨rfl, ?_⟩
      rw [hoffset, List.length_cons]
      omega
  | case4 => cases h

theorem word_append (start offset : Nat) (expected rest : Bytes) :
    word start offset expected (expected ++ rest) = .ok ⟨offset + expected.length, rest⟩ := by
  induction expected generalizing offset with
  | nil => rfl
  | cons w expected ih =>
      rw [List.cons_append, word, if_pos (by simp), ih, List.length_cons]
      congr 2
      omega

theorem literal_ok (w : Word) {p : Place} {token : Token} {after : Place}
    (h : literal w.kind w.text p = .ok (token, after)) :
    p.rest = w.text ++ after.rest ∧ token = (Lexeme.word w).token p.offset ∧
      after.offset = p.offset + w.text.length := by
  unfold literal at h
  split at h
  · next hword =>
      cases h
      obtain ⟨hrest, hoffset⟩ := word_ok hword
      exact ⟨hrest, by rw [hoffset]; rfl, hoffset⟩
  · cases h

theorem literal_append (w : Word) (offset : Nat) (rest : Bytes) :
    literal w.kind w.text ⟨offset, w.text ++ rest⟩ =
      .ok ((Lexeme.word w).token offset, ⟨offset + w.text.length, rest⟩) := by
  unfold literal
  simp only [word_append]
  rfl

/-! Numbers. -/

theorem number_ok {p : Place} {token : Token} {after : Place}
    (h : number p = .ok (token, after)) :
    ∃ n : Numeral, p.rest = n.literal.text ++ after.rest ∧
      token = (Lexeme.number n).token p.offset ∧
      after.offset = p.offset + n.literal.text.length := by
  unfold number at h
  split at h
  · cases h
  · cases h
  · next l rest hscan =>
      split at h
      · cases h
      · cases h
        obtain ⟨hwell, htext, -⟩ := Literal.scan_eq_ok_iff.mp hscan
        exact ⟨⟨l, hwell⟩, htext, rfl, rfl⟩

/-- A literal that ends before a delimiter does not look like a hexadecimal
number: its digits are followed by no `x`. -/
theorem looksHexadecimal_append (n : Numeral) {rest : Bytes} (hrest : Delimited rest) :
    Literal.looksHexadecimal (n.literal.text ++ rest) = false := by
  obtain ⟨l, hwell⟩ := n
  obtain ⟨r₁, r₂, r₃, hminus, hdigits, hfraction, hexponent⟩ :=
    Literal.scan_eq_ok.mp (Literal.scan_append hwell (hrest.stops l))
  obtain ⟨⟨d, ds, hwhole, hd⟩, rfl, -⟩ :=
    (Literal.scanDigits_ok hdigits).imp_left IsDigits.exists_cons
  -- The byte behind the first digit is a digit, a point, a mark or a delimiter.
  have hnext : NotAhead (fun c => c == 0x78 || c == 0x58) (ds ++ r₂) := by
    cases ds with
    | cons c ds =>
        have hc := (Literal.scanDigits_ok hdigits).1.2 c (by simp [hwhole])
        refine notAhead_cons.mpr ?_
        rw [Bool.or_eq_false_iff, beq_eq_false_iff_ne, beq_eq_false_iff_ne]
        constructor <;>
          · rintro rfl
            exact absurd hc (by decide)
    | nil =>
        obtain ⟨rfl, -, -⟩ := Literal.scanFraction_ok hfraction
        obtain ⟨rfl, -, -⟩ := Literal.scanExponent_ok hexponent
        cases hfrac : l.fraction with
        | some fs => exact notAhead_cons.mpr (by decide)
        | none =>
            cases hexp : l.exponent with
            | some e =>
                have hmark := hwell.mark e hexp
                refine notAhead_cons.mpr ?_
                rw [Bool.or_eq_false_iff, beq_eq_false_iff_ne, beq_eq_false_iff_ne]
                constructor <;>
                  · intro heq
                    rw [heq] at hmark
                    exact absurd hmark (by decide)
            | none =>
                apply hrest.notAhead
                intro b hb
                rcases isDelimiter_cases hb with rfl | rfl | rfl | rfl | rfl | rfl | rfl <;> decide
  unfold Literal.looksHexadecimal
  simp only [hminus, hwhole, List.cons_append]
  cases hcase : ds ++ r₂ with
  | nil => rfl
  | cons c rest' =>
      rw [hcase] at hnext
      rw [notAhead_cons] at hnext
      simp only [hnext, Bool.and_false]

theorem number_append (n : Numeral) (offset : Nat) {rest : Bytes} (hrest : Delimited rest) :
    number ⟨offset, n.literal.text ++ rest⟩ =
      .ok ((Lexeme.number n).token offset, ⟨offset + n.literal.text.length, rest⟩) := by
  have hscan := Literal.scan_append n.wellFormed (hrest.stops n.literal)
  unfold number
  simp only [hscan, looksHexadecimal_append n hrest, Bool.false_eq_true, if_false]
  rfl

/-! Every lexeme. -/

/-- The bytes that a lexeme may begin with. -/
def isLexemeStart (b : UInt8) : Bool :=
  b == quote || b == 0x74 || b == 0x66 || b == 0x6E || b == minus || isDigit b

theorem ne_of_isLexemeStart {b c : UInt8} (hb : isLexemeStart b = true)
    (hc : isLexemeStart c = false) : b ≠ c := by
  rintro rfl
  rw [hb] at hc
  cases hc

theorem isBlank_of_isLexemeStart {b : UInt8} (h : isLexemeStart b = true) :
    isBlank b = false := by
  by_contra hblank
  simp only [isBlank, Bool.not_eq_false, Bool.or_eq_true, beq_iff_eq, or_assoc] at hblank
  rcases hblank with rfl | rfl | rfl | rfl <;> exact absurd h (by decide)

/-- A numeral begins with a minus or a digit. -/
theorem exists_cons_numeral (n : Numeral) :
    ∃ b rest, n.literal.text = b :: rest ∧ (b == minus || isDigit b) = true := by
  obtain ⟨l, hwell⟩ := n
  obtain ⟨d, ds, hwhole, hd⟩ := hwell.whole.exists_cons
  simp only [Literal.text_eq, hwhole]
  cases l.negative with
  | true => exact ⟨minus, _, rfl, by decide⟩
  | false => exact ⟨d, _, rfl, by simp [hd]⟩

theorem exists_cons_lexeme (x : Lexeme) :
    ∃ b rest, x.text = b :: rest ∧ isLexemeStart b = true := by
  cases x with
  | word w =>
      cases w with
      | yes => exact ⟨_, _, rfl, by decide⟩
      | no => exact ⟨_, _, rfl, by decide⟩
      | null => exact ⟨_, _, rfl, by decide⟩
  | number n =>
      obtain ⟨b, rest, htext, hb⟩ := exists_cons_numeral n
      refine ⟨b, rest, htext, ?_⟩
      rw [isLexemeStart, Bool.or_assoc, hb, Bool.or_true]
  | string s => exact ⟨_, _, rfl, by decide⟩

/-- The first byte of a value that is no container says how the value is read. -/
theorem scalar_cases (b : UInt8) :
    (b = quote ∧ ∀ offset bs, scalar b ⟨offset, bs⟩ = string offset bs.tail) ∨
      (∃ w : Word, ∀ offset bs, scalar b ⟨offset, bs⟩ = literal w.kind w.text ⟨offset, bs⟩) ∨
      (∀ offset bs, scalar b ⟨offset, bs⟩ = number ⟨offset, bs⟩) ∨
      ∀ offset bs, scalar b ⟨offset, bs⟩ = .error ⟨.unexpectedCharacter, offset, offset⟩ := by
  unfold scalar
  by_cases hquote : (b == quote) = true
  · exact .inl ⟨beq_iff_eq.mp hquote, fun _ _ => if_pos hquote⟩
  simp only [if_neg hquote]
  by_cases hyes : (b == 0x74) = true
  · exact .inr (.inl ⟨.yes, fun _ _ => if_pos hyes⟩)
  simp only [if_neg hyes]
  by_cases hno : (b == 0x66) = true
  · exact .inr (.inl ⟨.no, fun _ _ => if_pos hno⟩)
  simp only [if_neg hno]
  by_cases hnull : (b == 0x6E) = true
  · exact .inr (.inl ⟨.null, fun _ _ => if_pos hnull⟩)
  simp only [if_neg hnull]
  by_cases hnumber : (b == minus || isDigit b) = true
  · exact .inr (.inr (.inl fun _ _ => if_pos hnumber))
  · exact .inr (.inr (.inr fun _ _ => if_neg hnumber))

/-- What is read as a lexeme is one, and its token is the token of that lexeme. -/
theorem scalar_ok {b : UInt8} {offset : Nat} {rest : Bytes} {token : Token} {after : Place}
    (h : scalar b ⟨offset, b :: rest⟩ = .ok (token, after)) :
    ∃ x : Lexeme, b :: rest = x.text ++ after.rest ∧ token = x.token offset ∧
      after.offset = offset + x.text.length := by
  rcases scalar_cases b with ⟨rfl, hstring⟩ | ⟨w, hword⟩ | hnumber | hnone
  · rw [hstring] at h
    obtain ⟨s, hs⟩ := string_ok h
    exact ⟨.string s, hs⟩
  · rw [hword] at h
    exact ⟨.word w, literal_ok w h⟩
  · rw [hnumber] at h
    obtain ⟨n, hn⟩ := number_ok h
    exact ⟨.number n, hn⟩
  · rw [hnone] at h
    cases h

/-- A lexeme in front of a delimiter is read in full. -/
theorem scalar_append {x : Lexeme} {b : UInt8} {bs : Bytes} (hx : x.text = b :: bs)
    (offset : Nat) {rest : Bytes} (hrest : Delimited rest) :
    scalar b ⟨offset, x.text ++ rest⟩ =
      .ok (x.token offset, ⟨offset + x.text.length, rest⟩) := by
  unfold scalar
  cases x with
  | word w =>
      cases w with
      | yes => cases hx; exact literal_append .yes offset rest
      | no => cases hx; exact literal_append .no offset rest
      | null => cases hx; exact literal_append .null offset rest
  | number n =>
      obtain ⟨c, cs, htext, hc⟩ := exists_cons_numeral n
      obtain rfl : b = c := by
        have hcons : b :: bs = c :: cs := hx.symm.trans htext
        exact (List.cons.inj hcons).1
      have hne : ∀ d : UInt8, (d == minus || isDigit d) = false → (b == d) = false := by
        intro d hd
        rw [beq_eq_false_iff_ne]
        rintro rfl
        rw [hc] at hd
        cases hd
      rw [hne quote (by decide), hne 0x74 (by decide), hne 0x66 (by decide),
        hne 0x6E (by decide), if_pos hc]
      exact number_append n offset hrest
  | string s =>
      cases hx
      have htext : (Lexeme.string s).text ++ rest = quote :: (s.raw ++ quote :: rest) := by
        simp [Lexeme.text, Quoted.text]
      rw [htext]
      exact string_append offset s rest

end Scan

end FlatJson
