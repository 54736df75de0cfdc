import FlatJson.Proofs.Quotation

/-!
# The text of a token

What is told of a token is the start of its text, read with replacements. It is as many bytes
as a fault has to look at to show 32 of them and the rest of a character, and it is not cut back
to whole characters as an excerpt is. So of a text that is UTF-8 it tells the characters that
lie in those bytes in full, and one replacement behind them where the bytes end inside of a
character (`Utf8.Severs`).
-/

namespace FlatJson

namespace Utf8

/-- The front of a character is no character, but all of it could have become one. -/
theorem split_front {lead : UInt8} {tail front back : Bytes} {n : Nat}
    (h : Completes lead tail n) (htail : tail = front ++ back) (hback : back ≠ []) :
    split lead front = (none, []) := by
  rw [split.eq_def]
  simp only [UInt8.lt_iff_toNat_lt, UInt8.reduceToNat, Bool.or_eq_true, decide_eq_true_eq,
    Bool.not_eq_true']
  cases h with
  | one hlead =>
      obtain ⟨-, rfl⟩ := List.append_eq_nil_iff.mp htail.symm
      exact absurd rfl hback
  | two hleast hmost hb =>
      rw [if_neg (by omega), if_neg (by omega)]
      match front, htail with
      | [], _ => rfl
      | [_], htail =>
          cases htail
          exact absurd rfl hback
  | three hleast hmost hb hc =>
      rw [if_neg (by omega), if_neg (by omega)]
      match front, htail with
      | [], _ => rfl
      | [_], htail =>
          cases htail
          simp [hb, Nat.not_lt.mpr hleast]
      | [_, _], htail =>
          cases htail
          exact absurd rfl hback
  | four hleast hmost hb hc hd =>
      have hlead : ¬lead.toNat < 0xE0 := by omega
      rw [if_neg (by omega), if_neg (by omega)]
      match front, htail with
      | [], _ => rfl
      | [_], htail =>
          cases htail
          simp [hb, hlead]
      | [_, _], htail =>
          cases htail
          simp [hb, hc, hlead, Nat.not_lt.mpr hleast]
      | [_, _, _], htail =>
          cases htail
          exact absurd rfl hback

/-- One replacement stands for the front of a character. -/
theorem lossy_take_utf8EncodeChar {c : Char} {k : Nat} (hpos : 0 < k)
    (hk : k < (String.utf8EncodeChar c).length) :
    lossy ((String.utf8EncodeChar c).take k) = [replacement] := by
  obtain ⟨lead, tail, hbytes, hcompletes⟩ := completes_utf8EncodeChar c
  obtain ⟨m, rfl⟩ := Nat.exists_eq_add_of_le' hpos
  rw [hbytes, List.length_cons] at hk
  have hback : tail.drop m ≠ [] := by
    rw [Ne, List.drop_eq_nil_iff]
    omega
  have hsplit : split lead (tail.take m) = (none, []) :=
    split_front hcompletes (List.take_append_drop m tail).symm hback
  rw [hbytes, List.take_succ_cons, lossy]
  split
  next c? left h =>
    rw [hsplit] at h
    cases h
    rw [lossy]
    rfl

/-- The first `n` bytes of a text end inside of its character `c`, behind the characters
`ps`. -/
def Severs (n : Nat) (cs ps : List Char) (c : Char) : Prop :=
  ps ++ [c] <+: cs ∧ (encode ps).length < n ∧
    n < (encode ps).length + (String.utf8EncodeChar c).length

instance (n : Nat) (cs ps : List Char) (c : Char) : Decidable (Severs n cs ps c) :=
  inferInstanceAs (Decidable (_ ∧ _ ∧ _))

/-- The first bytes of a text are whole characters, or they end inside of one. -/
theorem take_encode_cases (n : Nat) (cs : List Char) :
    (∃ ps, ps <+: cs ∧ (encode cs).take n = encode ps) ∨ ∃ ps c, Severs n cs ps c := by
  induction cs generalizing n with
  | nil => exact .inl ⟨[], List.prefix_refl [], List.take_nil⟩
  | cons c cs ih =>
      rw [encode_cons, List.take_append]
      rcases Nat.lt_or_ge n (String.utf8EncodeChar c).length with hlt | hle
      · rw [Nat.sub_eq_zero_of_le hlt.le, List.take_zero, List.append_nil]
        rcases Nat.eq_zero_or_pos n with rfl | hpos
        · exact .inl ⟨[], List.nil_prefix, List.take_zero⟩
        · exact .inr ⟨[], c, ⟨cs, rfl⟩, hpos, by simpa using hlt⟩
      · rw [List.take_of_length_le hle]
        rcases ih (n - (String.utf8EncodeChar c).length) with
          ⟨ps, hps, htake⟩ | ⟨ps, d, hps, hfront, hback⟩
        · exact .inl ⟨c :: ps, (List.prefix_cons_inj c).mpr hps, by rw [htake, encode_cons]⟩
        · refine .inr ⟨c :: ps, d, (List.prefix_cons_inj c).mpr hps, ?_, ?_⟩
          all_goals
            rw [encode_cons, List.length_append]
            omega

section Severs

variable {n : Nat} {cs ps : List Char} {c : Char}

theorem Severs.take_encode (h : Severs n cs ps c) :
    (encode cs).take n =
      encode ps ++ (String.utf8EncodeChar c).take (n - (encode ps).length) := by
  obtain ⟨⟨rest, rfl⟩, hfront, hback⟩ := h
  rw [List.append_assoc, encode_append, List.singleton_append, encode_cons, List.take_append,
    List.take_of_length_le hfront.le, List.take_append_of_le_length (by omega)]

/-- In place of the character that is cut stands a replacement. -/
theorem Severs.lossyString_take (h : Severs n cs ps c) :
    lossyString ((encode cs).take n) = String.ofList (ps ++ [replacement]) := by
  obtain ⟨-, hfront, hback⟩ := id h
  rw [h.take_encode, lossyString_eq, lossy_encode_append,
    lossy_take_utf8EncodeChar (Nat.sub_pos_of_lt hfront) (by omega)]

/-- The text does not begin so, unless the character that is cut is a replacement itself. -/
theorem Severs.prefix_iff (h : Severs n cs ps c) :
    ps ++ [replacement] <+: cs ↔ c = replacement := by
  obtain ⟨⟨rest, rfl⟩, -, -⟩ := h
  rw [List.append_assoc, List.prefix_append_right_inj, List.singleton_append,
    List.cons_prefix_cons, and_iff_left List.nil_prefix, eq_comm]

end Severs

end Utf8

open Utf8 ByteReader LawfulReader

/-- In a document that is UTF-8 a token spans characters, and what is told of it are the
first of them: all of them if they take no more than 35 bytes, and as many as take exactly
35 if a character ends there. If one does not, then a replacement stands in its place, which
is not how the token begins, unless the document has a replacement there too. -/
theorem Tape.tokenText_leading {ρ : Type} [ByteReader ρ] [LawfulReader ρ] {limits : Limits}
    {r : ρ} {tape : Tape} {source : Source} {t : Token}
    (hstart : IsBoundary (content r) (offset r)) (h : (Tape.read limits r).1 = .ok tape)
    (hsource : source.toBytes = content r) (ht : t ∈ tape.tokens) :
    ∃ cs, CharsAt (content r) t.start cs ∧ t.length = (encode cs).length ∧
      (t.length ≤ excerptLimit + longestTail → source.tokenText t = String.ofList cs) ∧
      ((∀ ps c, ¬Severs (excerptLimit + longestTail) cs ps c) →
        (source.tokenText t).toList <+: cs ∧
          (ofString (source.tokenText t)).length =
            min (excerptLimit + longestTail) t.length) ∧
      ∀ ps c, Severs (excerptLimit + longestTail) cs ps c →
        source.tokenText t = String.ofList (ps ++ [replacement]) ∧
          ((source.tokenText t).toList <+: cs ↔ c = replacement) := by
  obtain ⟨ds, hds⟩ := hstart.exists_encode
  obtain ⟨cs, hchars, hlength⟩ :=
    forall_tokens_of_read (Grammar.tokenProperty_spansChars hds) h t ht
  have htext : source.tokenText t =
      lossyString ((encode cs).take (excerptLimit + longestTail)) := by
    rw [Source.tokenText, Source.startOf_of_charsAt (hsource ▸ hchars) hlength]
  refine ⟨cs, hchars, hlength, fun hle => ?_, fun hwhole => ?_, fun ps c hsevers => ?_⟩
  · rw [htext, List.take_of_length_le (hlength ▸ hle), lossyString_encode]
  · rcases take_encode_cases (excerptLimit + longestTail) cs with
      ⟨ps, hps, htake⟩ | ⟨ps, c, hsevers⟩
    · rw [htext, htake, lossyString_encode, ofString, String.toList_ofList, ← htake,
        List.length_take, hlength]
      exact ⟨hps, rfl⟩
    · exact absurd hsevers (hwhole ps c)
  · rw [htext, hsevers.lossyString_take, String.toList_ofList]
    exact ⟨rfl, hsevers.prefix_iff⟩

/-- Of 31 letters `a`, an `é` and a `😀` the last is cut after two of its four bytes. -/
theorem Tape.tokenText_leading_emoji :
    Source.tokenText
        (.ofBytes (0x22 :: List.replicate 31 0x61 ++ [0xC3, 0xA9, 0xF0, 0x9F, 0x98, 0x80, 0x22]))
        ⟨.string, 1, 38, 0⟩ =
      String.ofList (List.replicate 31 'a' ++ ['é', replacement]) := by
  have hstart : IsBoundary
      (0x22 :: List.replicate 31 0x61 ++ [0xC3, 0xA9, 0xF0, 0x9F, 0x98, 0x80, 0x22]) 0 :=
    isBoundary_zero ('\x22' :: List.replicate 31 'a' ++ ['é', '😀', '\x22'])
  have hread : (Tape.read {} (SliceReader.ofSource
      (.ofBytes (0x22 :: List.replicate 31 0x61 ++
        [0xC3, 0xA9, 0xF0, 0x9F, 0x98, 0x80, 0x22])))).1 = .ok ⟨[⟨.string, 1, 38, 0⟩]⟩ := by
    cbv
  have hsource : (Source.ofBytes (0x22 :: List.replicate 31 0x61 ++
      [0xC3, 0xA9, 0xF0, 0x9F, 0x98, 0x80, 0x22])).toBytes =
        0x22 :: List.replicate 31 0x61 ++ [0xC3, 0xA9, 0xF0, 0x9F, 0x98, 0x80, 0x22] := rfl
  obtain ⟨cs, hchars, hlength, -, -, hcut⟩ :=
    Tape.tokenText_leading hstart hread hsource List.mem_cons_self
  have hspan := hchars.take_drop
  rw [← hlength] at hspan
  have hcs : encode cs = encode (List.replicate 31 'a' ++ ['é', '😀']) := hspan.symm
  obtain rfl := encode_injective hcs
  exact (hcut (List.replicate 31 'a' ++ ['é']) '😀' (by decide)).1

/-- So what is told of a token need not be how the token begins. -/
theorem Tape.tokenText_not_leading :
    IsBoundary (0x22 :: List.replicate 31 0x61 ++ [0xC3, 0xA9, 0xF0, 0x9F, 0x98, 0x80, 0x22]) 0 ∧
    Tape.ofSource {} (.ofBytes
        (0x22 :: List.replicate 31 0x61 ++ [0xC3, 0xA9, 0xF0, 0x9F, 0x98, 0x80, 0x22])) =
      .ok ⟨[⟨.string, 1, 38, 0⟩]⟩ ∧
    Grammar.cut (0x22 :: List.replicate 31 0x61 ++ [0xC3, 0xA9, 0xF0, 0x9F, 0x98, 0x80, 0x22])
        ⟨.string, 1, 38, 0⟩ = encode (List.replicate 31 'a' ++ ['é', '😀']) ∧
    ¬(Source.tokenText
        (.ofBytes (0x22 :: List.replicate 31 0x61 ++ [0xC3, 0xA9, 0xF0, 0x9F, 0x98, 0x80, 0x22]))
        ⟨.string, 1, 38, 0⟩).toList <+: List.replicate 31 'a' ++ ['é', '😀'] := by
  have hsevers : Severs (excerptLimit + longestTail) (List.replicate 31 'a' ++ ['é', '😀'])
      (List.replicate 31 'a' ++ ['é']) '😀' := by
    decide
  have hstart : Source.startOf
      (.ofBytes (0x22 :: List.replicate 31 0x61 ++ [0xC3, 0xA9, 0xF0, 0x9F, 0x98, 0x80, 0x22]))
      ⟨.string, 1, 38, 0⟩ =
        (encode (List.replicate 31 'a' ++ ['é', '😀'])).take (excerptLimit + longestTail) := rfl
  refine ⟨isBoundary_zero ('\x22' :: List.replicate 31 'a' ++ ['é', '😀', '\x22']), ?_, rfl, ?_⟩
  · cbv
  · rw [Source.tokenText, hstart, hsevers.lossyString_take, String.toList_ofList,
      hsevers.prefix_iff]
    decide

end FlatJson
