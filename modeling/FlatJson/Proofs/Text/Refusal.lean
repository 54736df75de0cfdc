import FlatJson.Proofs.Text.Unescape

/-!
# Refused strings

A raw text of the grammar is refused at a backslash that starts no escape, and the
byte behind that backslash is part of the text (`unescape_error`). If all its
escapes are understood, it is refused only where its bytes are not UTF-8.
-/

namespace FlatJson

namespace Escape

open Ascii Grammar

theorem Understood.inside_append {before rest : Bytes} (h : Understood before)
    (hinside : Inside (before ++ rest)) : Inside rest := by
  induction h with
  | nil => exact hinside
  | plain hb _ ih => exact ih (inside_plain hb hinside).2
  | escape he _ ih =>
      rw [List.cons_append, List.append_assoc] at hinside
      exact ih ((inside_escape he).mp hinside)

/-- A text in a string is refused at a backslash that starts no escape, though a
byte follows it, or because it is not UTF-8. -/
theorem unescape_error {raw : Bytes} (hinside : Inside raw) {offset : Nat} {fault : ReadFault}
    (h : unescape raw offset = .error fault) :
    (∃ before rest, raw = before ++ backslash :: rest ∧ rest ≠ [] ∧ read? rest = none ∧
        fault = .of .badEscape (shown (backslash :: rest)) (offset + before.length)) ∨
      (∀ cs, raw ≠ Utf8.encode cs) ∧ fault = .of .invalidUtf8 raw offset := by
  obtain ⟨outcome, hunescapes⟩ := exists_unescapes raw offset
  rw [hunescapes.eq] at h
  cases hunescapes with
  | replaced => cases h
  | undecodable _ hnone =>
      cases h
      exact .inr ⟨hnone, rfl⟩
  | @refused before rest hstuck =>
      cases h
      refine .inl ⟨before, rest, hstuck.split, ?_, read?_eq_none_iff.mpr hstuck.noEscape, rfl⟩
      -- A backslash is never the last byte inside a string.
      rintro rfl
      cases hstuck.understood.inside_append (hstuck.split ▸ hinside) with
      | plain _ _ hbackslash _ => exact hbackslash rfl

end Escape

end FlatJson
