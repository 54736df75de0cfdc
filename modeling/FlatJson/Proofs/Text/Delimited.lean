import FlatJson.Proofs.Decode
import FlatJson.Proofs.Writing

/-!
# Strings that end themselves

A string is written run by run, and what comes of that is the text of its bytes, each with
what stands for it in a string (`standIn`). Among those bytes no quote stands alone, and no
backslash is left without the byte that follows it. So whoever reads the string off a longer
text finds its end, and reads what was written, whatever there is behind it.
-/

namespace FlatJson

open Ascii Grammar

namespace Escape

/-- The bytes that have a short escape, each with the letter of the escape. -/
def shortLetters : List (UInt8 × UInt8) :=
  [(0x22, 0x22), (0x5C, 0x5C), (0x08, 0x62), (0x0C, 0x66), (0x0A, 0x6E), (0x0D, 0x72), (0x09, 0x74)]

/-- What stands for a byte in a string: its short escape if it has one, the escape by its number
if it is another control byte, and the byte itself otherwise. -/
def standIn (b : UInt8) : Bytes :=
  match shortLetters.lookup b with
  | some letter => [0x5C, letter]
  | none =>
    if b < 0x20 then [0x5C, 0x75, 0x30, 0x30, hexDigit (b.toNat / 16), hexDigit (b.toNat % 16)]
    else [b]

/-- What stands for a text in a string. -/
def standIns (s : String) : Bytes :=
  (Utf8.ofString s).flatMap standIn

theorem written_eq_standIn : written = standIn := by
  have hall : ∀ n < 256, written (UInt8.ofNat n) = standIn (UInt8.ofNat n) := by
    decide +kernel
  funext b
  have hb := hall b.toNat b.toNat_lt
  rwa [UInt8.ofNat_toNat] at hb

theorem raw_ofString (s : String) : (Quoted.ofString s).raw = standIns s := by
  rw [standIns, ← written_eq_standIn]
  rfl

/-- A control byte without a short escape is written with its number. -/
example : standIns "\"\x1F/" = [0x5C, 0x22, 0x5C, 0x75, 0x30, 0x30, 0x31, 0x46, 0x2F] := by
  decide

end Escape

open Escape

/-- A string is written between quotes as what stands for its bytes. In every text that goes on
in any way behind it, the scan of a string that begins at the opening quote ends behind the
closing one, and the token of that scan is read as the string. -/
theorem Emission.string_delimited (s : String) :
    Emission.Writes (Emission.string s) (quote :: (standIns s ++ [quote])) ∧
      ∀ before rest : Bytes,
        Scan.string before.length (standIns s ++ quote :: rest) =
            .ok (.scalar .string (before.length + 1) (before.length + 1 + (standIns s).length),
              ⟨before.length + 1 + (standIns s).length + 1, rest⟩) ∧
          Scalar.string (.ofBytes (before ++ quote :: (standIns s ++ quote :: rest)))
            (.scalar .string (before.length + 1) (before.length + 1 + (standIns s).length)) =
              .ok s := by
  have htext : (Quoted.ofString s).text = quote :: (standIns s ++ [quote]) := by
    rw [Quoted.text, raw_ofString]
  refine ⟨htext ▸ Quoted.writes_ofString s, fun before rest => ⟨?_, ?_⟩⟩
  · rw [← raw_ofString, Scan.string, Scan.closeString_append _ (Quoted.ofString s).inside]
    rfl
  · have hlies : Lies (Source.ofBytes (before ++ quote :: (standIns s ++ quote :: rest))).toBytes
        before.length (Quoted.ofString s).text := by
      refine ⟨before, rest, ?_, rfl⟩
      rw [htext, List.cons_append, List.append_assoc]
      rfl
    rw [← raw_ofString] at hlies ⊢
    exact Scalar.string_of_spells hlies (spells_written s.toList)

end FlatJson
