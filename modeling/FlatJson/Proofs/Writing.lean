import FlatJson.Codec
import FlatJson.Proofs.Number.Shortest
import FlatJson.Proofs.Text.Spelling

/-!
# What an emission writes

`Emission.Writes` says that an emission goes into every growable sink and which
bytes it adds there. What is written of a string is a quoted text that spells
the string, and what is written of a finite number is a literal that is rounded
to the number.
-/

namespace FlatJson

open Ascii Grammar

namespace Sink

/-- What a sink takes in two parts it takes in one. -/
theorem accept_append {s t : Sink} {d : Emission} (h : s.accept d = (.ok (), t)) (e : Emission) :
    s.accept (d ++ e) = t.accept e := by
  induction d generalizing s with
  | nil =>
      cases h
      rfl
  | cons piece d ih =>
      rw [accept] at h
      rw [List.cons_append, accept]
      rcases hput : s.put piece with ⟨_ | _, u⟩
      · rw [hput] at h
        cases h
      · rw [hput] at h
        exact ih h

end Sink

namespace Emission

/-- A growable sink takes all of an emission, and holds some bytes more
afterwards. -/
def Writes (e : Emission) (bs : Bytes) : Prop :=
  ∀ written : Array UInt8,
    (Sink.growable written).accept e = (.ok (), .growable (written ++ bs))

theorem writes_nil : Writes [] [] := fun written => by
  rw [Sink.accept, Array.appendList_nil]

theorem writes_raw (bs : Bytes) : Writes (raw bs) bs := fun _ => rfl

theorem Writes.append {d e : Emission} {p q : Bytes} (hd : Writes d p) (he : Writes e q) :
    Writes (d ++ e) (p ++ q) := fun written => by
  have happend : written ++ p ++ q = written ++ (p ++ q) := Array.ext' (by simp)
  rw [Sink.accept_append (hd written), he, happend]

theorem Writes.cons {e : Emission} {q : Bytes} (p : Bytes) (he : Writes e q) :
    Writes (.bytes p :: e) (p ++ q) :=
  (writes_raw p).append he

/-- The bytes of an emission are those that it writes. -/
theorem toBytes_of_writes {e : Emission} {bs : Bytes} (h : Writes e bs) : e.toBytes = .ok bs := by
  rw [toBytes, Sink.empty, h]
  simp [Sink.written]

theorem Writes.unique {e : Emission} {p q : Bytes} (hp : e.Writes p) (hq : e.Writes q) : p = q :=
  Except.ok.inj ((toBytes_of_writes hp).symm.trans (toBytes_of_writes hq))

/-- What is written as the text of a string is that string. -/
theorem Writes.toText {e : Emission} {s : String} (h : e.Writes (Utf8.ofString s)) :
    e.toText = .ok s := by
  have hstring : Utf8.toString? (Utf8.ofString s) = some s := Utf8.toString?_eq_some_iff.mpr rfl
  rw [Emission.toText, toBytes_of_writes h]
  simp only [hstring]

end Emission

namespace Escape

/-- The runs of a text and the escapes between them are what is written of its
bytes. -/
theorem writes_runs (text : Bytes) :
    ∃ bs, Emission.Writes (runs text).2 bs ∧ text.flatMap written = (runs text).1 ++ bs := by
  induction text with
  | nil => exact ⟨[], Emission.writes_nil, rfl⟩
  | cons b text ih =>
      obtain ⟨bs, hwrites, hbytes⟩ := ih
      have hruns : runs (b :: text) =
          if needed b then ([], .bytes (ofByte b) :: .bytes (runs text).1 :: (runs text).2)
          else (b :: (runs text).1, (runs text).2) := rfl
      rw [hruns, List.flatMap_cons, written, hbytes]
      cases needed b with
      | true => exact ⟨_, (hwrites.cons _).cons _, rfl⟩
      | false => exact ⟨bs, hwrites, rfl⟩

/-- A string is written as its text between quotes, byte by byte. -/
theorem writes_emit (text : Bytes) :
    Emission.Writes (emit text) (quote :: (text.flatMap written ++ [quote])) := by
  obtain ⟨bs, hwrites, hbytes⟩ := writes_runs text
  rw [hbytes, List.append_assoc]
  have hend := hwrites.append (Emission.writes_raw [quote])
  exact (hend.cons (runs text).1).cons [quote]

theorem needed_eq_false_iff {b : UInt8} :
    needed b = false ↔ isControl b = false ∧ b ≠ quote ∧ b ≠ backslash := by
  simp [needed, and_assoc]

theorem hexValue?_hexDigit : ∀ n < 16, hexValue? (hexDigit n) = some n := by
  decide

theorem mem_shortEscapes_of_short? {b letter : UInt8} (h : short? b = some letter) :
    (letter, Char.ofNat b.toNat) ∈ shortEscapes := by
  unfold short? at h
  simp only [beq_iff_eq] at h
  repeat' split at h
  all_goals cases h
  all_goals
    subst_vars
    decide

/-- What is written of a byte that has to be escaped is an escape, and stands for
the character of that byte. -/
theorem escaped_ofByte {b : UInt8} (h : needed b = true) :
    ∃ e, ofByte b = backslash :: e ∧ Escaped e (Char.ofNat b.toNat) := by
  unfold ofByte
  cases hshort : short? b with
  | some letter => exact ⟨[letter], rfl, .short (mem_shortEscapes_of_short? hshort)⟩
  | none =>
      have hcontrol : b.toNat < 0x20 := by
        have hquote : b ≠ quote := by
          rintro rfl
          cases hshort
        have hbackslash : b ≠ backslash := by
          rintro rfl
          cases hshort
        simpa [needed, isControl, hquote, hbackslash, UInt8.lt_iff_toNat_lt] using h
      refine ⟨_, rfl, ?_⟩
      have hzero : hexValue? zero = some 0 := by decide
      have hunit := Escaped.numbered hzero hzero (hexValue?_hexDigit (b.toNat / 16) (by omega))
        (hexValue?_hexDigit (b.toNat % 16) (by omega))
      have hnumber : 0 * 0x1000 + 0 * 0x100 + b.toNat / 16 * 0x10 + b.toNat % 16 = b.toNat := by
        omega
      have hhalf : ¬(0xD800 ≤ b.toNat ∧ b.toNat ≤ 0xDFFF) := by omega
      rwa [hnumber, unitChar, if_neg hhalf] at hunit

/-- Bytes that need no escape are written as they are. -/
theorem flatMap_written {bs : Bytes} (h : ∀ b ∈ bs, needed b = false) :
    bs.flatMap written = bs := by
  induction bs with
  | nil => rfl
  | cons b bs ih =>
      rw [List.flatMap_cons, ih fun b hb => h b (List.mem_cons_of_mem _ hb), written,
        h b List.mem_cons_self]
      rfl

/-- What is written of a text spells the text. -/
theorem spells_written (cs : List Char) : Spells ((Utf8.encode cs).flatMap written) cs := by
  induction cs with
  | nil => exact .nil
  | cons c cs ih =>
      rw [Utf8.encode_cons, List.flatMap_append]
      obtain ⟨lead, tail, hbytes, -⟩ := Utf8.completes_utf8EncodeChar c
      cases hneeded : needed lead with
      | true =>
          have hascii : lead.toNat < 0x80 := by
            simp only [needed, isControl, quote, backslash, Bool.or_eq_true, decide_eq_true_eq,
              beq_iff_eq, UInt8.lt_iff_toNat_lt, ← UInt8.toNat_inj, UInt8.reduceToNat] at hneeded
            omega
          obtain ⟨rfl, rfl⟩ := Utf8.eq_ofNat_of_lt hbytes hascii
          obtain ⟨e, hwritten, he⟩ := escaped_ofByte hneeded
          rw [hbytes, List.flatMap_singleton, written, hneeded, if_pos rfl, hwritten]
          exact .escape he ih
      | false =>
          have hplain := needed_eq_false_iff.mp hneeded
          obtain ⟨hleast, hquote, hbackslash⟩ := (plain_lead_iff hbytes).mp hplain
          rw [flatMap_written fun b hb => needed_eq_false_iff.mpr
            (plain_utf8EncodeChar hleast hquote hbackslash b hb)]
          exact .plain hleast hquote hbackslash ih

end Escape

/-- A text as a string is written. -/
def Grammar.Quoted.ofString (s : String) : Quoted :=
  ⟨(Utf8.ofString s).flatMap Escape.written, (Escape.spells_written s.toList).inside⟩

theorem Grammar.Quoted.writes_ofString (s : String) :
    Emission.Writes (Emission.string s) (ofString s).text :=
  Escape.writes_emit _

/-- A string is written as a quoted text that spells it. -/
theorem Escape.exists_quoted (s : String) :
    ∃ q : Quoted, Emission.Writes (Emission.string s) q.text ∧ Spells q.raw s.toList :=
  ⟨.ofString s, Quoted.writes_ofString s, spells_written s.toList⟩

end FlatJson
