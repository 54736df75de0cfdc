import FlatJson.Proofs.Carries
import FlatJson.Proofs.Catalog.Plain
import FlatJson.Proofs.Text.Excerpt

/-!
# Catalog values in strings

A type that is written as strings has round trips (`TextForm.RoundTrips`) for a value if the
text of the value is parsed as the value, on its own and in the string that is written of
it. As the text is printed as it is, the one follows from the other
(`TextForm.roundTrips_of_parse`).

How the texts of a type are spelled is told by another type, each member of which derives
one of them. Where a spelling may be too large, a parser is exact if it takes what fits as
what is spelled, and nothing else (`Grammar.parses_exactly`).
-/

namespace FlatJson

open Ascii Grammar Decoder

/-- If a parser takes a spelling that fits as what it spells, and no other text, then it
refuses the spellings that do not fit and the texts that nothing spells. -/
theorem Grammar.parses_exactly {σ α : Type} {text : σ → Bytes} {parse : Bytes → Option α}
    {Fits : σ → Prop} {Spells : σ → α → Prop} (hfits : ∀ s, Fits s → ∃ x, Spells s x)
    (hparse : ∀ s x, parse (text s) = some x ↔ Fits s ∧ Spells s x)
    (hspelled : ∀ t x, parse t = some x → ∃ s, text s = t) :
    (∀ s, (Fits s → ∃ x, parse (text s) = some x ∧ Spells s x) ∧
      (¬Fits s → parse (text s) = none)) ∧
    ∀ t, (∀ s, text s ≠ t) → parse t = none := by
  refine ⟨fun s => ⟨fun hs => ?_, fun hs => ?_⟩, fun t ht => ?_⟩
  · obtain ⟨x, hx⟩ := hfits s hs
    exact ⟨x, (hparse s x).mpr ⟨hs, hx⟩, hx⟩
  · exact Option.eq_none_iff_forall_ne_some.mpr fun x hx => hs ((hparse s x).mp hx).1
  · refine Option.eq_none_iff_forall_ne_some.mpr fun x hx => ?_
    obtain ⟨s, hs⟩ := hspelled t x hx
    exact ht s hs

namespace TextForm

variable {α : Type} {form : TextForm α} {x : α}

/-- A value is what its text is parsed as, and what the document written of it is read as. -/
structure RoundTrips (form : TextForm α) (x : α) : Prop where
  parse_display : form.parse? (form.display x) = some x
  document : ∃ bs, form.quoted.toBytes x = .ok bs ∧ form.quoted.ofBytes bs = .ok x

/-- The text of a value, as a string, has the bytes of the text. -/
theorem ofString_display (hprinted : Printed (form.text x)) :
    Utf8.ofString (form.display x) = form.text x := by
  obtain ⟨s, hs, -⟩ := hprinted.exists_string
  have hdisplay : form.display x = s := by
    rw [display, ← hs, Utf8.ofString, Utf8.lossyString_encode, String.ofList_toList]
  rw [hdisplay, hs]

theorem parse?_display (hprinted : Printed (form.text x)) :
    form.parse? (form.display x) = form.parse (form.text x) := by
  rw [parse?, ofString_display hprinted]

theorem raw_ofString_display (hprinted : Printed (form.text x)) :
    (Quoted.ofString (form.display x)).raw = form.text x := by
  show (Utf8.ofString (form.display x)).flatMap Escape.written = form.text x
  rw [ofString_display hprinted, Escape.flatMap_written hprinted.plain]

/-- What is written of a value is what is written of its text as a string. -/
theorem writes_quoted (hprinted : Printed (form.text x)) :
    (form.quoted.emit x).Writes (Quoted.ofString (form.display x)).text := by
  rw [Quoted.text, raw_ofString_display hprinted]
  exact form.writes_text x

/-- What is read off a string in a document: what the string is parsed as, and if it is not one
of the texts of the type, a fault that shows it at the place where it stands. -/
def outcome (form : TextForm α) (s : String) (start : Nat) (behind : Cursor) :
    EStateM.Result Fault Cursor α :=
  match form.parse? s with
  | some y => .ok y behind
  | none => .error (.read (.of form.refusal (Utf8.ofString s) start)) behind

theorem decode_quoted (form : TextForm α) {source : Source} {t : Token} {s : String}
    (h : Scalar.string source t = .ok s) (position : Nat) (rest : List Token) :
    form.quoted.decode ⟨source, position, t :: rest⟩ =
      form.outcome s t.start ⟨source, position + 1, rest⟩ := by
  have hstring : Decoder.string ⟨source, position, t :: rest⟩ =
      .ok s ⟨source, position + 1, rest⟩ :=
    scalar_cons_eq_ok_iff.mpr ⟨h, rfl⟩
  refine (bind_of_ok _ hstring).trans ?_
  rw [outcome, parse?]
  cases form.parse (Utf8.ofString s) <;> rfl

/-- The string that is written of a value is read as what its text is parsed as. -/
theorem exists_carries_quoted (hprinted : Printed (form.text x)) {y : α}
    (hparse : form.parse (form.text x) = some y) :
    ∃ q : Quoted, form.quoted.Carries (.scalar (.string q)) x y := by
  refine ⟨.ofString (form.display x), writes_quoted hprinted,
    fun {source start} hlies position rest => ?_⟩
  have hstring := Scalar.string_of_spells hlies (Escape.spells_written (form.display x).toList)
  refine (decode_quoted form hstring position rest).trans ?_
  rw [outcome, parse?_display hprinted, hparse]
  rfl

/-- A value that its text is parsed as has round trips. -/
theorem roundTrips_of_parse (hprinted : Printed (form.text x))
    (hparse : form.parse (form.text x) = some x) : form.RoundTrips x := by
  obtain ⟨q, hq⟩ := exists_carries_quoted hprinted hparse
  exact ⟨(parse?_display hprinted).trans hparse, _, hq.toBytes, hq.ofSource (Nat.zero_le _)⟩

end TextForm

end FlatJson
