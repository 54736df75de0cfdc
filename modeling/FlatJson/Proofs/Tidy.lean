import FlatJson.Proofs.Carries
import FlatJson.Proofs.Text.Boundary
import FlatJson.Proofs.Text.Refusal

/-!
# Tidy texts

What is written consists of visible characters of one byte and of strings with their
escapes (`Tidy`), so it is UTF-8 (`Tidy.exists_encode`). Emissions of larger values are
tidy if those of their parts are.
-/

namespace FlatJson

open Ascii Grammar

/-- A text of visible characters of one byte, and of strings as they are written. -/
inductive Tidy : Bytes → Prop
  | nil : Tidy []
  | mark {b : UInt8} {rest : Bytes} : IsMark b → Tidy rest → Tidy (b :: rest)
  | string (s : String) {rest : Bytes} : Tidy rest →
      Tidy (quote :: ((Utf8.ofString s).flatMap Escape.written ++ quote :: rest))

theorem Tidy.append {p q : Bytes} (hp : Tidy p) (hq : Tidy q) : Tidy (p ++ q) := by
  induction hp with
  | nil => exact hq
  | mark hb _ ih => exact .mark hb ih
  | string s _ ih =>
      rw [List.cons_append, List.append_assoc, List.cons_append]
      exact .string s ih

theorem tidy_of_marks {bs : Bytes} (h : ∀ b ∈ bs, IsMark b) : Tidy bs := by
  induction bs with
  | nil => exact .nil
  | cons b bs ih =>
      obtain ⟨hb, hbs⟩ := List.forall_mem_cons.mp h
      exact .mark hb (ih hbs)

/-- A text that spells another one is UTF-8. -/
theorem Escape.Spells.exists_encode {raw : Bytes} {cs : List Char} (h : Spells raw cs) :
    ∃ ds, raw = Utf8.encode ds := by
  obtain ⟨ds, hraw, -⟩ := replaced_of_resolve (h.resolve 0)
  exact ⟨ds, hraw⟩

theorem Tidy.exists_encode {bs : Bytes} (h : Tidy bs) : ∃ cs, bs = Utf8.encode cs := by
  have hquote : Utf8.encode ['\x22'] = [quote] := by decide
  induction h with
  | nil => exact ⟨[], rfl⟩
  | @mark b rest hb _ ih =>
      obtain ⟨cs, rfl⟩ := ih
      refine ⟨Char.ofNat b.toNat :: cs, ?_⟩
      rw [Utf8.encode_cons, Utf8.utf8EncodeChar_ofNat hb.2.1, List.singleton_append]
  | @string s rest _ ih =>
      obtain ⟨cs, rfl⟩ := ih
      obtain ⟨ds, hds⟩ := (Escape.spells_written s.toList).exists_encode
      refine ⟨['\x22'] ++ ds ++ ['\x22'] ++ cs, ?_⟩
      rw [Utf8.encode_append, Utf8.encode_append, Utf8.encode_append, hquote, ← hds]
      simp [Utf8.ofString]

namespace Emission

/-- What is written is tidy. -/
def IsTidy (e : Emission) : Prop :=
  ∃ bs, e.Writes bs ∧ Tidy bs

/-- What is tidy is a text. -/
theorem IsTidy.exists_toText {e : Emission} (h : e.IsTidy) :
    ∃ s : String, e.toText = .ok s ∧ e.toBytes = .ok (Utf8.ofString s) := by
  obtain ⟨bs, hwrites, htidy⟩ := h
  obtain ⟨cs, rfl⟩ := htidy.exists_encode
  have hstring : e.Writes (Utf8.ofString (String.ofList cs)) := by
    rwa [Utf8.ofString, String.toList_ofList]
  exact ⟨String.ofList cs, hstring.toText, toBytes_of_writes hstring⟩

variable {d e : Emission}

theorem isTidy_raw {bs : Bytes} (h : ∀ b ∈ bs, IsMark b) : (raw bs).IsTidy :=
  ⟨bs, writes_raw bs, tidy_of_marks h⟩

theorem isTidy_byte {b : UInt8} (h : IsMark b) : (byte b).IsTidy :=
  isTidy_raw (List.forall_mem_singleton.mpr h)

theorem isTidy_string (s : String) : (string s).IsTidy :=
  ⟨_, Escape.writes_emit _, .string s .nil⟩

theorem isTidy_bool (x : Bool) : (bool x).IsTidy := by
  cases x <;> exact isTidy_raw (List.all_iff_forall_prop.mp (by decide))

theorem IsTidy.append (hd : d.IsTidy) (he : e.IsTidy) : (d ++ e).IsTidy := by
  obtain ⟨p, hp, hptidy⟩ := hd
  obtain ⟨q, hq, hqtidy⟩ := he
  exact ⟨p ++ q, hp.append hq, hptidy.append hqtidy⟩

theorem IsTidy.member (name : String) (h : e.IsTidy) : (Emission.member name e).IsTidy :=
  (isTidy_string name).append ((isTidy_byte (by decide)).append h)

theorem isTidy_separated : ∀ {es : List Emission}, (∀ e ∈ es, e.IsTidy) → (separated es).IsTidy
  | [], _ => ⟨[], writes_nil, .nil⟩
  | [e], h => h e (List.mem_singleton.mpr rfl)
  | e :: d :: es, h => by
      obtain ⟨he, hes⟩ := List.forall_mem_cons.mp h
      exact he.append ((isTidy_byte (by decide)).append (isTidy_separated hes))

theorem isTidy_array {es : List Emission} (h : ∀ e ∈ es, e.IsTidy) : (array es).IsTidy :=
  (isTidy_byte (by decide)).append ((isTidy_separated h).append (isTidy_byte (by decide)))

theorem isTidy_object {es : List Emission} (h : ∀ e ∈ es, e.IsTidy) : (object es).IsTidy :=
  (isTidy_byte (by decide)).append ((isTidy_separated h).append (isTidy_byte (by decide)))

/-- A number that is written as a literal is tidy. -/
theorem isTidy_of_numeral {n : Numeral} (h : e.Writes n.literal.text) : e.IsTidy :=
  ⟨_, h, tidy_of_marks n.isMark⟩

end Emission

end FlatJson
