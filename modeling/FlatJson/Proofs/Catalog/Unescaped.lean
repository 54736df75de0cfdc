import FlatJson.Proofs.Catalog.Strings
import FlatJson.Proofs.Sink

/-!
# Strings that are written without escapes

The values of seven types are written as strings (`StringType`), each with its text between
two quotes and without a look for what has to be escaped. The bytes of a text are all printed
as they are, so the document is the one that is written of the text as a string, however the
writes are cut (`Emission.Cuts`). Its token is read as the text, and as a value of the type if
the text is one of the type's texts.
-/

namespace FlatJson

open Ascii Grammar

/-- The types whose values are written as strings. -/
inductive StringType
  | duration
  | instant
  | offsetDateTime
  | period
  | yearMonth
  | zoneId
  | zonedDateTime
  deriving DecidableEq, Repr

namespace StringType

/-- The shape of the values of a type. -/
def shape : StringType → Shape
  | duration => .duration
  | instant => .instant
  | offsetDateTime => .offsetDateTime
  | period => .period
  | yearMonth => .yearMonth
  | zoneId => .zoneId
  | zonedDateTime => .zonedDateTime

/-- The texts of a type. -/
def form : (s : StringType) → TextForm s.shape.Carrier
  | duration => Duration.form
  | instant => Instant.form
  | offsetDateTime => OffsetDateTime.form
  | period => Period.form
  | yearMonth => YearMonth.form
  | zoneId => ZoneId.form
  | zonedDateTime => ZonedDateTime.form

theorem codec_shape (s : StringType) : s.shape.codec = s.form.quoted := by
  cases s <;> rfl

theorem printed_text (s : StringType) (x : s.shape.Carrier) : Printed (s.form.text x) := by
  cases s with
  | duration => exact Duration.printed_text x
  | instant => exact OffsetDateTime.printed_text (Instant.atUtc x)
  | offsetDateTime => exact OffsetDateTime.printed_text x
  | period => exact Period.printed_text x
  | yearMonth => exact YearMonth.printed_text x
  | zoneId => exact ZoneId.printed_name x
  | zonedDateTime => exact ZonedDateTime.printed_text x

end StringType

namespace TextForm

variable {α : Type} {form : TextForm α} {x : α}

/-- A text between two quotes, as it is. -/
def enclosed (text : String) : Bytes :=
  quote :: (Utf8.ofString text ++ [quote])

/-- The token of a text that stands between two quotes. -/
def enclosedToken (text : String) (start : Nat) : Token :=
  .scalar .string (start + 1) (start + 1 + (Utf8.ofString text).length)

theorem text_ofString_display (hprinted : Printed (form.text x)) :
    (Quoted.ofString (form.display x)).text = enclosed (form.display x) := by
  rw [enclosed, ofString_display hprinted, Quoted.text, raw_ofString_display hprinted]

theorem token_display (hprinted : Printed (form.text x)) (start : Nat) :
    (Lexeme.string (.ofString (form.display x))).token start =
      enclosedToken (form.display x) start := by
  show Token.scalar .string (start + 1)
    (start + 1 + (Quoted.ofString (form.display x)).raw.length) = _
  rw [enclosedToken, ofString_display hprinted, raw_ofString_display hprinted]

end TextForm

open TextForm

/-- However its writes are cut, a value of a string type is written as its text between two
quotes, and so is the text as a string. The document has one token. Wherever this string stands
in a document, its token is read as the text, and as a value of the type just as the text on its
own is parsed. -/
theorem StringType.written_unescaped (s : StringType) (x : s.shape.Carrier) :
    (∀ e : Emission, e.Cuts (s.shape.codec.emit x) → e.Writes (enclosed (s.form.display x))) ∧
    (Emission.string (s.form.display x)).Writes (enclosed (s.form.display x)) ∧
    (∀ limits : Limits, Tape.ofSource limits (.ofBytes (enclosed (s.form.display x))) =
      .ok ⟨[enclosedToken (s.form.display x) 0]⟩) ∧
    ∀ (before after : Bytes) (position : Nat) (rest : List Token),
      let source := Source.ofBytes (before ++ enclosed (s.form.display x) ++ after)
      let t := enclosedToken (s.form.display x) before.length
      Scalar.string source t = .ok (s.form.display x) ∧
        s.shape.codec.decode ⟨source, position, t :: rest⟩ =
          s.form.outcome (s.form.display x) t.start ⟨source, position + 1, rest⟩ := by
  have hprinted := s.printed_text x
  have htext := text_ofString_display hprinted
  have hwrites := writes_quoted hprinted
  rw [htext] at hwrites
  rw [codec_shape]
  refine ⟨fun e he => he.writes hwrites, htext ▸ Quoted.writes_ofString _, fun limits => ?_,
    fun before after position rest => ?_⟩
  · rw [← htext, ← token_display hprinted]
    exact (Tree.scalar (.string (.ofString (s.form.display x)))).ofSource_text (Nat.zero_le _)
  · have hlies : Lies (Source.ofBytes (before ++ enclosed (s.form.display x) ++ after)).toBytes
        before.length (Quoted.ofString (s.form.display x)).text := by
      refine ⟨before, after, ?_, rfl⟩
      rw [htext, ← List.append_assoc]
      rfl
    have hstring := Scalar.string_of_spells hlies (Escape.spells_written (s.form.display x).toList)
    rw [token_display hprinted] at hstring
    exact ⟨hstring, decode_quoted s.form hstring position rest⟩

end FlatJson
