import FlatJson.Fault
import FlatJson.Proofs.Text.Boundary

/-!
# Excerpts

A fault shows the first bytes of a text and the rest of a character that would be cut.
In a text that is UTF-8 these are the first characters that cover so many bytes
(`Utf8.cover`), and nothing is replaced (`excerpt_encode`). A fault may have been given
as little of the text as it can show (`excerpt_take`), and even if that little was cut
inside of a character and read with a replacement for the piece, the replacement is not
shown (`excerpt_lossyString`).

So a fault quotes the text in which it was found (`ReadFault.Quotes`).
-/

namespace FlatJson

open Ascii

namespace Utf8

/-- The first characters that cover `n` bytes, or all of them if there are not as many
bytes. -/
def cover : Nat → List Char → List Char
  | 0, _ => []
  | _ + 1, [] => []
  | n + 1, c :: cs => c :: cover (n + 1 - (String.utf8EncodeChar c).length) cs

@[simp] theorem cover_zero (cs : List Char) : cover 0 cs = [] := by
  cases cs <;> rfl

@[simp] theorem cover_nil (n : Nat) : cover n [] = [] := by
  cases n <;> rfl

theorem cover_cons {n : Nat} (hn : 0 < n) (c : Char) (cs : List Char) :
    cover n (c :: cs) = c :: cover (n - (String.utf8EncodeChar c).length) cs := by
  cases n with
  | zero => cases hn
  | succ n => rfl

/-- Some bytes are covered by themselves and the rest of a character that is cut behind
them. -/
theorem encode_cover (n : Nat) (cs : List Char) :
    encode (cover n cs) =
      (encode cs).take n ++ ((encode cs).drop n).takeWhile isTail := by
  induction cs generalizing n with
  | nil => simp
  | cons c cs ih =>
      rcases Nat.eq_zero_or_pos n with rfl | hn
      · rw [cover_zero, List.take_zero, List.drop_zero,
          takeWhile_of_notAhead (notAhead_encode (c :: cs))]
        rfl
      · rw [cover_cons hn, encode_cons, encode_cons, ih, List.take_append, List.drop_append,
          List.append_assoc]
        rcases Nat.le_total (String.utf8EncodeChar c).length n with hle | hle
        · rw [List.take_of_length_le hle, List.drop_of_length_le hle, List.nil_append]
        · -- The bytes end inside of the character, which is taken in full.
          have htail : ∀ b ∈ (String.utf8EncodeChar c).drop n, isTail b = true := by
            obtain ⟨lead, tail, hbytes, -⟩ := completes_utf8EncodeChar c
            obtain ⟨n, rfl⟩ := Nat.exists_eq_add_of_le' hn
            intro b hb
            rw [hbytes, List.drop_succ_cons] at hb
            exact (isTail_utf8EncodeChar hbytes).2 b (List.mem_of_mem_drop hb)
          rw [Nat.sub_eq_zero_of_le hle, List.take_zero, List.drop_zero, List.nil_append,
            List.takeWhile_append_of_pos htail, takeWhile_of_notAhead (notAhead_encode cs),
            List.nil_append, List.append_nil, ← List.append_assoc, List.take_append_drop,
            List.append_nil]

theorem exists_append_cover (n : Nat) (cs : List Char) : ∃ more, cs = cover n cs ++ more := by
  induction cs generalizing n with
  | nil => exact ⟨[], by simp⟩
  | cons c cs ih =>
      rcases Nat.eq_zero_or_pos n with rfl | hn
      · exact ⟨c :: cs, by simp⟩
      · obtain ⟨more, hmore⟩ := ih (n - (String.utf8EncodeChar c).length)
        exact ⟨more, by rw [cover_cons hn, List.cons_append, ← hmore]⟩

theorem CharsAt.cover {text : Bytes} {offset : Nat} {cs : List Char} (h : CharsAt text offset cs)
    (n : Nat) : CharsAt text offset (cover n cs) := by
  obtain ⟨more, hmore⟩ := exists_append_cover n cs
  rw [hmore] at h
  exact h.left

/-- A character has four bytes at most, so that few bytes are covered besides. -/
theorem length_encode_cover_le (n : Nat) (cs : List Char) :
    (encode (cover n cs)).length ≤ n + longestTail := by
  induction cs generalizing n with
  | nil => simp
  | cons c cs ih =>
      rcases Nat.eq_zero_or_pos n with rfl | hn
      · simp
      · have hrest := ih (n - (String.utf8EncodeChar c).length)
        have hwidth : (String.utf8EncodeChar c).length ≤ 4 := by
          rw [String.length_utf8EncodeChar]
          exact c.utf8Size_le_four
        rw [cover_cons hn, encode_cons, List.length_append]
        unfold longestTail at hrest ⊢
        rcases Nat.le_total (String.utf8EncodeChar c).length n with hle | hle
        · omega
        · rw [Nat.sub_eq_zero_of_le hle, cover_zero, encode_nil, List.length_nil]
          omega

/-- Either the characters do not have as many bytes, or it does not matter what stands
behind those that cover them. -/
theorem cover_cases (n : Nat) (cs : List Char) :
    cover n cs = cs ∨ ∀ more, cover n (cover n cs ++ more) = cover n cs := by
  induction cs generalizing n with
  | nil => exact .inl (cover_nil n)
  | cons c cs ih =>
      rcases Nat.eq_zero_or_pos n with rfl | hn
      · exact .inr fun more => by simp
      · rw [cover_cons hn]
        rcases ih (n - (String.utf8EncodeChar c).length) with hall | hmore
        · exact .inl (by rw [hall])
        · refine .inr fun more => ?_
          rw [List.cons_append, cover_cons hn, hmore]

/-- Characters are read as what they are, whatever stands behind them. -/
theorem lossy_encode_append (cs : List Char) (bs : Bytes) :
    lossy (encode cs ++ bs) = cs ++ lossy bs := by
  induction cs with
  | nil => rfl
  | cons c cs ih =>
      obtain ⟨lead, tail, hbytes, -⟩ := completes_utf8EncodeChar c
      have hsplit : split lead (tail ++ (encode cs ++ bs)) = (some c, encode cs ++ bs) :=
        split_eq_some_iff.mpr ⟨tail, hbytes, rfl⟩
      rw [encode_cons, hbytes, List.append_assoc, List.cons_append, lossy]
      split
      next d? left h =>
        rw [hsplit] at h
        cases h
        rw [ih]
        rfl

theorem lossyString_encode (cs : List Char) : lossyString (encode cs) = String.ofList cs := by
  have h := lossy_encode_append cs []
  rw [List.append_nil] at h
  rw [lossyString_eq, h, lossy, List.append_nil]

end Utf8

open Utf8

/-- A text that is UTF-8 is shown as its first characters. -/
theorem excerpt_encode (cs : List Char) :
    excerpt (encode cs) = String.ofList (cover excerptLimit cs) := by
  have hcover := encode_cover excerptLimit cs
  have htails : (((encode cs).drop excerptLimit).takeWhile isTail).length ≤ longestTail := by
    have hle := length_encode_cover_le excerptLimit cs
    rw [hcover, List.length_append, List.length_take] at hle
    have hdrop := (List.takeWhile_prefix isTail (l := (encode cs).drop excerptLimit)).length_le
    rw [List.length_drop] at hdrop
    omega
  rw [excerpt, ← List.take_takeWhile, List.take_of_length_le htails, ← hcover,
    lossyString_encode]

/-- The second byte of the accented letter comes after the first 32 bytes. -/
example : excerpt (List.replicate 31 0x61 ++ [0xC3, 0xA9, 0x62]) =
    String.ofList (List.replicate 31 'a' ++ ['é']) := by
  cbv

/-- A short text is shown in full. -/
theorem excerpt_ofString {s : String} (h : (ofString s).length ≤ excerptLimit) :
    excerpt (ofString s) = s := by
  rw [excerpt, List.take_of_length_le h, List.drop_of_length_le h, List.take_nil,
    List.takeWhile_nil, List.append_nil, ofString, lossyString_encode, String.ofList_toList]

/-- More than the bytes that can be shown makes no difference. -/
theorem excerpt_take (text : Bytes) :
    excerpt (text.take (excerptLimit + longestTail)) = excerpt text := by
  rw [excerpt, List.take_take, List.drop_take, List.take_take]
  rfl

/-- A character that was cut and replaced behind the bytes that can be shown makes no
difference either. -/
theorem excerpt_lossyString (cs : List Char) :
    excerpt (ofString (lossyString ((encode cs).take (excerptLimit + longestTail)))) =
      excerpt (encode cs) := by
  obtain ⟨more, hmore⟩ := exists_append_cover excerptLimit cs
  have hle := length_encode_cover_le excerptLimit cs
  have hbytes : encode cs = encode (cover excerptLimit cs) ++ encode more :=
    (congrArg encode hmore).trans (encode_append _ _)
  have hread : lossy ((encode cs).take (excerptLimit + longestTail)) = cover excerptLimit cs ++
      lossy ((encode more).take
        (excerptLimit + longestTail - (encode (cover excerptLimit cs)).length)) := by
    rw [hbytes, List.take_append, List.take_of_length_le hle, lossy_encode_append]
  rw [lossyString_eq, hread, ofString, String.toList_ofList, excerpt_encode, excerpt_encode]
  rcases cover_cases excerptLimit cs with hall | hbehind
  · -- Nothing was cut.
    obtain rfl : more = [] := by simpa [hall] using hmore
    rw [encode_nil, List.take_nil, lossy, List.append_nil, hall, hall]
  · rw [hbehind]

namespace ReadFault

/-- A fault quotes a text: the text is UTF-8, the fault names the offset of one of its
characters or its end, and shows what the text says from there on, up to the front of
another character, in 35 bytes at most. -/
def Quotes (text : Bytes) (fault : ReadFault) : Prop :=
  CharsAt text fault.offset fault.value.toList ∧ (ofString fault.value).length ≤ 35

/-- What is shown of the characters at an offset is quoted from there. -/
theorem quotes_of {text : Bytes} {offset : Nat} {cs : List Char} (h : CharsAt text offset cs)
    (cause : ReadCause) : (ReadFault.of cause (encode cs) offset).Quotes text := by
  unfold Quotes of
  rw [excerpt_encode, ofString, String.toList_ofList]
  exact ⟨h.cover excerptLimit, length_encode_cover_le excerptLimit cs⟩

/-- The same where no more was asked for than can be shown. -/
theorem quotes_of_take {text : Bytes} {offset : Nat} {cs : List Char}
    (h : CharsAt text offset cs) (cause : ReadCause) :
    (ReadFault.of cause ((encode cs).take (excerptLimit + longestTail)) offset).Quotes text := by
  rw [of, excerpt_take]
  exact quotes_of h cause

/-- The same where what was asked for was read with a replacement before it was shown. -/
theorem quotes_of_lossyString {text : Bytes} {offset : Nat} {cs : List Char}
    (h : CharsAt text offset cs) (cause : ReadCause) :
    (ReadFault.of cause (ofString (lossyString ((encode cs).take (excerptLimit + longestTail))))
      offset).Quotes text := by
  rw [of, excerpt_lossyString]
  exact quotes_of h cause

end ReadFault

end FlatJson
