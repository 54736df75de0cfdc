import FlatJson.Proofs.CursorRun
import FlatJson.Proofs.Text.Excerpt
import FlatJson.Proofs.TypedRoundTrip

/-!
# Faults quote their documents

Wherever a document that is UTF-8 is refused, the fault shows what the document says at
the place of the fault, word for word (`ReadFault.Quotes`). The pass stops between
characters (`Scan.run_reached`). The span of a token is made of characters
(`Token.SpansChars`), and what is shown of a token is taken from its span: its start, all
of its text, or an escape in it (`Scalar.Refusal`). Only catalog types that are written
as strings show what a string spells in place of what the document says.
-/

namespace FlatJson

open Ascii Grammar Utf8

/-! The pass. -/

section Pass

open ByteReader LawfulReader

/-- A pass that begins at a boundary stops at one. -/
theorem Scan.Stop.Reached.isBoundary {text : Bytes} {offset : Nat} {stop : Stop}
    (h : stop.Reached ⟨offset, text.drop offset⟩) (hstart : IsBoundary text offset) :
    IsBoundary text stop.offset := by
  obtain ⟨cs, hcs, hchars⟩ := hstart.exists_charsAt
  obtain ⟨rest, taken, htext, hoffset, hcut⟩ := h.place
  obtain ⟨-, qs, -, -, -, hbehind⟩ := hchars.cut (hcs.symm.trans htext) hcut
  rw [← hoffset] at hbehind
  exact hbehind.boundary

variable {ρ : Type} [ByteReader ρ] [LawfulReader ρ] {limits : Limits} {r : ρ}

theorem Scan.Stop.fault_quotes {stop : Stop} (h : IsBoundary (content r) stop.offset) :
    (stop.fault r).Quotes (content r) := by
  obtain ⟨cs, hcs, hchars⟩ := h.exists_charsAt
  have hle : stop.offset ≤ (content r).length := (Nat.le_add_right _ _).trans hchars.le_length
  have hcount : ((content r).drop stop.offset).take
      (min ((content r).length - stop.offset) (excerptLimit + longestTail)) =
        (encode cs).take (excerptLimit + longestTail) := by
    rw [← List.length_drop, hcs, Nat.min_comm, ← List.take_eq_take_min]
  unfold Stop.fault
  simp only [limit_eq, getBytes_eq]
  rw [if_pos (by omega), hcount]
  exact ReadFault.quotes_of_take hchars stop.cause

theorem Tape.read_quotes {fault : ReadFault} (hstart : IsBoundary (content r) (offset r))
    (h : (Tape.read limits r).1 = .error fault) : fault.Quotes (content r) := by
  unfold Tape.read Scan.document at h
  rw [left_eq] at h
  cases hrun : Scan.run limits.maxDepth (.value []) ⟨offset r, (content r).drop (offset r)⟩ with
  | ok tokens =>
      rw [hrun] at h
      cases h
  | error stop =>
      rw [hrun] at h
      cases h
      exact Scan.Stop.fault_quotes ((Scan.run_reached hrun).isBoundary hstart)

end Pass

/-! Tokens. -/

/-- The span of a token is made of characters of a text that is UTF-8. -/
def Token.SpansChars (text : Bytes) (t : Token) : Prop :=
  ∃ cs, CharsAt text t.start cs ∧ t.length = (encode cs).length

/-- What a token spans is made of characters if it begins with one and ends with a
character of one byte. -/
theorem Token.spansChars_of_lies {cs : List Char} {t : Token} {b : UInt8} {bs : Bytes}
    (h : Lies (encode cs) t.start (b :: bs)) (hstop : t.stop = t.start + (b :: bs).length)
    (hb : isTail b = false) (hcut : ∀ back, CleanCut (b :: bs) back) :
    t.SpansChars (encode cs) := by
  obtain ⟨before, after, htext, hstart⟩ := h
  obtain ⟨ms, hms, hchars⟩ := exists_charsAt htext (.ahead (notAhead_cons.mpr hb)) (hcut after)
  rw [hstart] at hchars
  refine ⟨ms, hchars, ?_⟩
  rw [Token.length, hstop, hms, Nat.add_sub_cancel_left]

theorem isTail_of_isLexemeStart {b : UInt8} (h : Scan.isLexemeStart b = true) :
    isTail b = false := by
  refine isTail_of_lt ?_
  simp only [Scan.isLexemeStart, isDigit, Bool.or_eq_true, beq_iff_eq, Bool.and_eq_true,
    decide_eq_true_eq, UInt8.le_iff_toNat_le, UInt8.reduceToNat, or_assoc] at h
  rcases h with rfl | rfl | rfl | rfl | rfl | hdigit
  all_goals first | decide | omega

theorem Grammar.tokenProperty_spansChars {text : Bytes} {cs : List Char} (hcs : text = encode cs) :
    TokenProperty text (Token.SpansChars text) where
  lexeme {x start} h := by
    subst hcs
    obtain ⟨b, bs, htext, hb⟩ := Scan.exists_cons_lexeme x
    have hcut (back : Bytes) : CleanCut (b :: bs) back := htext ▸ Scan.cleanCut_lexeme x back
    cases x with
    | string q =>
        -- The quotes are not part of the span.
        obtain ⟨ds, hds, hchars⟩ := Grammar.Lies.exists_charsAt (q := q) h
        exact ⟨ds, hchars, hds ▸ Nat.add_sub_cancel_left _ _⟩
    | word w =>
        rw [htext] at h
        have hstop := congrArg (fun bs : Bytes => start + bs.length) htext
        exact Token.spansChars_of_lies h hstop (isTail_of_isLexemeStart hb) hcut
    | number n =>
        rw [htext] at h
        have hstop := congrArg (fun bs : Bytes => start + bs.length) htext
        exact Token.spansChars_of_lies h hstop (isTail_of_isLexemeStart hb) hcut
  container isObject inner start count h := by
    subst hcs
    refine Token.spansChars_of_lies h ?_ (isTail_of_lt (Scan.toNat_opener_lt isObject))
      fun back => .behind (opener isObject :: inner) back (Scan.toNat_closer_lt isObject)
    simp only [List.length_cons, List.length_append, List.length_nil]
    omega

section Spans

variable {s : Source} {t : Token} {cs : List Char}

/-- The text of a token is that of the characters that it spans. -/
theorem Source.textOf_of_charsAt (h : CharsAt s.toBytes t.start cs)
    (hlength : t.length = (encode cs).length) : s.textOf t = .ok (encode cs) := by
  have hle := h.le_length
  rw [Source.textOf, Source.getBytes_eq, hlength, if_pos hle, h.take_drop]

/-- So is the start of the text. -/
theorem Source.startOf_of_charsAt (h : CharsAt s.toBytes t.start cs)
    (hlength : t.length = (encode cs).length) :
    s.startOf t = (encode cs).take (excerptLimit + longestTail) := by
  have hle := h.le_length
  have htake : ((s.toBytes.drop t.start).take
      (min (encode cs).length (excerptLimit + longestTail))) =
        (encode cs).take (excerptLimit + longestTail) := by
    rw [Nat.min_comm, ← List.take_take, h.take_drop]
  rw [Source.startOf, Source.getBytes_eq, hlength, if_pos (by omega), htake]

/-- An escape that means nothing is shown in full, with the character that it ends in. -/
theorem Escape.shown_encode (cs : List Char) :
    shown (encode cs) = encode (cover (width (encode cs).tail) cs) :=
  (encode_cover _ cs).symm

/-- What a token is refused with is quoted. -/
theorem Scalar.Refusal.quotes {fault : ReadFault} (h : Refusal s t (.read fault))
    (hspan : t.SpansChars s.toBytes) : fault.Quotes s.toBytes := by
  obtain ⟨cs, hchars, hlength⟩ := hspan
  have hwhole := Source.textOf_of_charsAt hchars hlength
  cases h with
  | mismatch what =>
      unfold Source.mismatch
      rw [Source.startOf_of_charsAt hchars hlength]
      exact ReadFault.quotes_of_take hchars _
  | @whole cause raw _ htext =>
      cases hwhole.symm.trans htext
      exact ReadFault.quotes_of hchars cause
  | @escape before rest htext =>
      have hraw : encode cs = before ++ backslash :: rest := Except.ok.inj (hwhole.symm.trans htext)
      obtain ⟨-, ds, -, hds, -, hescape⟩ :=
        hchars.cut hraw (.ahead (notAhead_cons.mpr (by decide)))
      rw [hds, Escape.shown_encode]
      exact ReadFault.quotes_of (hescape.cover _) .badEscape
  | encoding hnone =>
      obtain ⟨ds, hds⟩ := hchars.boundary.exists_encode
      have hsome : toString? s.toBytes = some (String.ofList ds) :=
        toString?_eq_some_iff.mpr (by rw [hds, ofString, String.toList_ofList])
      rw [hsome] at hnone
      cases hnone

end Spans

/-! Values of a shape. -/

open Decoder

/-- A shape none of whose parts is written as a string of its own is refused for single
tokens only. -/
theorem Shape.faultsAt_decode (s : Shape) (hs : s.unquoted = true) :
    FaultsAt Scalar.Refuses s.codec.decode := by
  have hnumeral {α : Type} (form : TextForm α) :
      FaultsAt Scalar.Refuses form.numeral.decode :=
    faultsAt_scalar fun _ _ _ => Scalar.Refuses.numeral form
  induction s with
  | bool => exact faultsAt_scalar fun _ _ _ h => .bool h
  | unit => exact faultsAt_scalar fun _ _ _ h => .null h
  | integer t => exact faultsAt_scalar fun _ _ _ h => .integer t h
  | single => exact faultsAt_scalar fun _ _ _ h => .float .binary32 h
  | double => exact faultsAt_scalar fun _ _ _ h => .float .binary64 h
  | string => exact faultsAt_scalar fun _ _ _ h => .string h
  | value => exact Value.faultsAt_decode
  | bigInteger => exact hnumeral BigInteger.form
  | bigDecimal => exact hnumeral BigDecimal.form
  | year =>
      have hinteger : FaultsAt Scalar.Refuses (Decoder.integer .int32) :=
        faultsAt_scalar fun _ _ _ h => .integer .int32 h
      exact hinteger.map Year.mk
  | option s ih => exact Codec.faultsAt_option (ih hs) fun _ _ _ h => h
  | list s ih => exact (ih hs).list s.takesOne_decode fun _ _ _ h => h
  | boxed s ih => exact ih hs
  | _ => cases hs

/-- A codec that leaves a token behind is refused for that token. -/
theorem Codec.ofTape_of_decode {α : Type} {c : Codec α} {tape : Tape} {source : Source} {x : α}
    {d : Cursor} {fault : Fault} (hdecode : c.decode (tape.cursor source) = .ok x d)
    (h : c.ofTape tape source = .error fault) :
    ∃ t ∈ d.rest, fault =
      .read (.of .unconsumed (ofString (d.source.tokenText t)) t.start) := by
  unfold ofTape at h
  simp only [EStateM.run, bind_of_ok _ hdecode] at h
  obtain ⟨whole, position, rest⟩ := d
  cases rest with
  | nil => cases h
  | cons t ts =>
      refine ⟨t, List.mem_cons_self, ?_⟩
      have hend : expectEnd ⟨whole, position, t :: ts⟩ =
          .error (.read (.of .unconsumed (ofString (whole.tokenText t)) t.start))
            ⟨whole, position, t :: ts⟩ := rfl
      rw [bind_of_error _ hend] at h
      cases h
      rfl

open ByteReader LawfulReader

end FlatJson
