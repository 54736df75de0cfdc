import FlatJson.Proofs.AnyShape
import FlatJson.Proofs.Tidy

/-!
# Clean texts

All that is written of values, and of documents put together by hand, is tidy
(`Node.isTidy_emit`), and a tidy text is clean: it is UTF-8, it has no control byte,
and no blank stands outside its strings (`Node.written_clean`). What stands outside the
strings is told by a scan that knows of quotes and backslashes alone (`outside`).
-/

namespace FlatJson

open Ascii Grammar

/-- Where a byte of a text stands: outside the strings, in a string, or in a string
behind a backslash. -/
inductive Zone
  | outside
  | inside
  | escaped

/-- The bytes that stand outside the strings of a text, of which the first byte stands in
a zone. The quotes belong to the strings. -/
def outsideFrom : Zone → Bytes → Bytes
  | _, [] => []
  | .outside, b :: rest =>
    if b = quote then outsideFrom .inside rest else b :: outsideFrom .outside rest
  | .inside, b :: rest =>
    if b = quote then outsideFrom .outside rest
    else if b = backslash then outsideFrom .escaped rest
    else outsideFrom .inside rest
  | .escaped, _ :: rest => outsideFrom .inside rest

/-- The bytes that stand outside the strings of a text. -/
def outside (text : Bytes) : Bytes :=
  outsideFrom .outside text

/-- A string ends at the first quote that no backslash stands in front of. -/
theorem outsideFrom_inside {raw : Bytes} (h : Inside raw) (rest : Bytes) :
    outsideFrom .inside (raw ++ quote :: rest) = outside rest := by
  induction h with
  | nil => exact if_pos rfl
  | plain _ hquote hbackslash _ ih =>
      rw [List.cons_append, outsideFrom, if_neg hquote, if_neg hbackslash, ih]
  | escaped b _ ih =>
      rw [List.cons_append, List.cons_append, outsideFrom, if_neg (by decide), if_pos rfl,
        outsideFrom, ih]

/-- What is written of a byte inside a string has no control byte. -/
theorem Escape.le_of_mem_written {b c : UInt8} (h : c ∈ written b) : 0x20 ≤ c := by
  have hall : ∀ n < 256, ∀ c ∈ written (UInt8.ofNat n), 0x20 ≤ c := by
    decide +kernel
  have hb := hall b.toNat b.toNat_lt
  rw [UInt8.ofNat_toNat] at hb
  exact hb c h

namespace Tidy

/-- A tidy text has no control byte. -/
theorem le {bs : Bytes} (h : Tidy bs) : ∀ b ∈ bs, 0x20 ≤ b := by
  induction h with
  | nil => simp
  | mark hb _ ih => exact List.forall_mem_cons.mpr ⟨UInt8.le_iff_toNat_le.mpr hb.1.le, ih⟩
  | string s _ ih =>
      refine List.forall_mem_cons.mpr ⟨by decide, List.forall_mem_append.mpr ⟨fun c hc => ?_, ?_⟩⟩
      · obtain ⟨b, -, hb⟩ := List.mem_flatMap.mp hc
        exact Escape.le_of_mem_written hb
      · exact List.forall_mem_cons.mpr ⟨by decide, ih⟩

/-- Outside its strings a tidy text has visible characters only. -/
theorem isMark_outside {bs : Bytes} (h : Tidy bs) : ∀ b ∈ outside bs, IsMark b := by
  induction h with
  | nil => simp [outside, outsideFrom]
  | mark hb _ ih =>
      rw [outside, outsideFrom, if_neg hb.2.2]
      exact List.forall_mem_cons.mpr ⟨hb, ih⟩
  | string s _ ih =>
      have hraw : Inside ((Utf8.ofString s).flatMap Escape.written) :=
        (Escape.spells_written s.toList).inside
      rw [outside, outsideFrom, if_pos rfl, outsideFrom_inside hraw]
      exact ih

end Tidy

namespace Emission

/-- What a growable sink does not take is a number that is not finite. -/
theorem eq_nonFinite_of_accept {e : Emission} {written : Array UInt8} {fault : Fault} {s : Sink}
    (h : (Sink.growable written).accept e = (.error fault, s)) :
    ∃ name, fault = .write (.of .nonFinite (Utf8.ofString name) s.offset) := by
  induction e generalizing written with
  | nil => cases h
  | cons piece e ih =>
      cases piece with
      | bytes bs => exact ih h
      | nonFinite name =>
          cases h
          exact ⟨name, rfl⟩

/-- A text that is printed as it is stands between its quotes as a string does. -/
theorem isTidy_quoted {α : Type} {form : TextForm α} {x : α} (h : Printed (form.text x)) :
    (form.quoted.emit x).IsTidy := by
  obtain ⟨s, hs, hwritten⟩ := h.exists_string
  have htidy := Tidy.string s .nil
  rw [hs, hwritten] at htidy
  refine ⟨_, ?_, htidy⟩
  exact ((writes_raw [quote]).append (writes_raw _)).append (writes_raw [quote])

theorem isTidy_null : null.IsTidy :=
  isTidy_raw (List.all_iff_forall_prop.mp (by decide))

theorem isTidy_commaUnless (first : Bool) : (commaUnless first).IsTidy := by
  cases first with
  | true => exact ⟨[], writes_nil, .nil⟩
  | false => exact isTidy_byte (by decide)

theorem isTidy_closing (closed : Bool) {delimiter : UInt8} (h : IsMark delimiter) :
    (closing closed delimiter).IsTidy := by
  cases closed with
  | true => exact isTidy_byte h
  | false => exact ⟨[], writes_nil, .nil⟩

end Emission

open Emission

namespace Value

mutual

/-- A value of finite numbers is written as a tidy text. -/
theorem isTidy_emit : ∀ v : Value, v.AllFinite → v.emit.IsTidy
  | .null, _ => isTidy_null
  | .bool b, _ => isTidy_bool b
  | .number x, h => by
      obtain ⟨n, hwrites, -⟩ := exists_numeral_writes h
      exact isTidy_of_numeral hwrites
  | .string s, _ => isTidy_string s
  | .array xs, h => isTidy_array (isTidy_elements xs h)
  | .object ms, h => isTidy_object (isTidy_members ms h)

theorem isTidy_elements : ∀ xs : List Value, ElementsFinite xs →
    ∀ e ∈ emitElements true xs, e.IsTidy
  | [], _ => by simp [emitElements]
  | x :: xs, h => List.forall_mem_cons.mpr ⟨isTidy_emit x h.1, isTidy_elements xs h.2⟩

theorem isTidy_members : ∀ ms : List (String × Value), MembersFinite ms →
    ∀ e ∈ emitMembers true ms, e.IsTidy
  | [], _ => by simp [emitMembers]
  | (k, x) :: ms, h =>
      List.forall_mem_cons.mpr ⟨(isTidy_emit x h.1).member k, isTidy_members ms h.2⟩

end

end Value

/-- So is a value of any shape. -/
theorem Shape.isTidy_emit (s : Shape) (v : s.Carrier) (hv : s.AllFinite v) :
    (s.codec.emit v).IsTidy := by
  induction s with
  | bool => exact isTidy_bool v
  | unit => exact isTidy_null
  | string => exact isTidy_string v
  | value => exact Value.isTidy_emit v hv
  | integer t =>
      obtain ⟨l, hl⟩ := Codec.exists_carries_integer t v
      exact isTidy_of_numeral hl.writes
  | single =>
      obtain ⟨l, hl⟩ := Codec.exists_carries_float Format.binary32_proper (by decide) hv
      exact isTidy_of_numeral hl.writes
  | double =>
      obtain ⟨l, hl⟩ := Codec.exists_carries_float Format.binary64_proper (by decide) hv
      exact isTidy_of_numeral hl.writes
  | bigInteger =>
      obtain ⟨l, hl⟩ := Codec.exists_carries_bigInteger v
      exact isTidy_of_numeral hl.writes
  | bigDecimal =>
      obtain ⟨l, hl⟩ := Codec.exists_carries_bigDecimal v
      exact isTidy_of_numeral hl.writes
  | year =>
      obtain ⟨l, hl⟩ := Codec.exists_carries_year v
      exact isTidy_of_numeral hl.writes
  | duration => exact isTidy_quoted (Duration.printed_text v)
  | instant => exact isTidy_quoted (OffsetDateTime.printed_text (Instant.atUtc v))
  | offsetDateTime => exact isTidy_quoted (OffsetDateTime.printed_text v)
  | period => exact isTidy_quoted (Period.printed_text v)
  | yearMonth => exact isTidy_quoted (YearMonth.printed_text v)
  | zoneId => exact isTidy_quoted (ZoneId.printed_name v)
  | zonedDateTime => exact isTidy_quoted (ZonedDateTime.printed_text v)
  | option s ih =>
      cases v with
      | none => exact isTidy_null
      | some x => exact ih x (hv x rfl)
  | list s ih =>
      refine isTidy_array fun e he => ?_
      obtain ⟨x, hx, rfl⟩ := List.mem_map.mp he
      exact ih x (hv x hx)
  | boxed s ih => exact ih v hv

mutual

/-- So is every document that can be written, whether or not its containers are closed. -/
theorem Node.isTidy_emit : ∀ x : Node (Σ s : Shape, s.Carrier),
    (x.emit Shape.emitValue).Complete → (x.emit Shape.emitValue).IsTidy
  | .leaf v, h => v.1.isTidy_emit v.2 (v.1.allFinite_of_complete v.2 h)
  | .object closed fields, h =>
      ((isTidy_byte (by decide)).append (Fields.isTidy_emit fields true
        (complete_append.mp (complete_append.mp h).1).2)).append
        (isTidy_closing closed (by decide))
  | .array closed elements, h =>
      ((isTidy_byte (by decide)).append (Elements.isTidy_emit elements true
        (complete_append.mp (complete_append.mp h).1).2)).append
        (isTidy_closing closed (by decide))

theorem Fields.isTidy_emit : ∀ (fields : Fields (Σ s : Shape, s.Carrier)) (first : Bool),
    (fields.emit Shape.emitValue first).Complete → (fields.emit Shape.emitValue first).IsTidy
  | .nil, _, _ => ⟨[], writes_nil, .nil⟩
  | .present name value rest, first, h => by
      obtain ⟨hfirst, hrest⟩ := complete_append.mp h
      have hvalue := Node.isTidy_emit value (complete_of_member (complete_append.mp hfirst).2)
      exact ((isTidy_commaUnless first).append (hvalue.member name)).append
        (Fields.isTidy_emit rest false hrest)
  | .absent _ rest, first, h => Fields.isTidy_emit rest first h

theorem Elements.isTidy_emit : ∀ (elements : Elements (Σ s : Shape, s.Carrier)) (first : Bool),
    (elements.emit Shape.emitValue first).Complete →
      (elements.emit Shape.emitValue first).IsTidy
  | .nil, _, _ => ⟨[], writes_nil, .nil⟩
  | .cons head rest, first, h => by
      obtain ⟨hfirst, hrest⟩ := complete_append.mp h
      have hhead := Node.isTidy_emit head (complete_append.mp hfirst).2
      exact ((isTidy_commaUnless first).append hhead).append
        (Elements.isTidy_emit rest false hrest)

end

/-- What is written of a document put together by hand, of values of any shapes, is UTF-8,
and is the text of the document. None of its bytes is below 32, so that it has one line,
and there is no space outside its strings. A document is never refused a text for not
being UTF-8. -/
theorem Node.written_clean (x : Node (Σ s : Shape, s.Carrier)) :
    (∀ bs, (x.emit Shape.emitValue).toBytes = .ok bs →
      (∃ text : String, bs = Utf8.ofString text ∧
        (x.emit Shape.emitValue).toText = .ok text) ∧
      (∀ b ∈ bs, 0x20 ≤ b) ∧ 0x20 ∉ outside bs) ∧
    ∀ fault, (x.emit Shape.emitValue).toText = .error (.write fault) →
      fault.cause ≠ .invalidUtf8 := by
  have hclean (bs : Bytes) (hbs : (x.emit Shape.emitValue).toBytes = .ok bs) :
      (∃ text : String, bs = Utf8.ofString text ∧
        (x.emit Shape.emitValue).toText = .ok text) ∧
      (∀ b ∈ bs, 0x20 ≤ b) ∧ 0x20 ∉ outside bs := by
    have hemit := x.isTidy_emit (complete_of_toBytes hbs)
    obtain ⟨text, htext, hbytes⟩ := hemit.exists_toText
    obtain ⟨cs, hwrites, htidy⟩ := hemit
    obtain rfl : cs = bs := Except.ok.inj ((toBytes_of_writes hwrites).symm.trans hbs)
    refine ⟨⟨text, Except.ok.inj (hbs.symm.trans hbytes), htext⟩, htidy.le, fun hblank => ?_⟩
    exact absurd (htidy.isMark_outside _ hblank) (by decide)
  refine ⟨hclean, fun fault hfault => ?_⟩
  cases hbytes : (x.emit Shape.emitValue).toBytes with
  | ok bs =>
      obtain ⟨⟨text, -, htext⟩, -⟩ := hclean bs hbytes
      rw [htext] at hfault
      cases hfault
  | error refused =>
      rw [toText, hbytes] at hfault
      cases hfault
      unfold toBytes at hbytes
      split at hbytes
      · cases hbytes
      · next s haccept =>
          cases hbytes
          obtain ⟨name, hname⟩ := eq_nonFinite_of_accept haccept
          cases hname
          rintro ⟨⟩

/-- The document `["a b\n"]` has a space and a line feed in its string. -/
theorem Node.written_clean_string :
    (Node.emit Shape.emitValue (.array true (.cons (.leaf ⟨.string, "a b\n"⟩) .nil))).toBytes =
        .ok [0x5B, 0x22, 0x61, 0x20, 0x62, 0x5C, 0x6E, 0x22, 0x5D] ∧
      0x20 ∉ outside [0x5B, 0x22, 0x61, 0x20, 0x62, 0x5C, 0x6E, 0x22, 0x5D] ∧
      ∀ b ∈ [0x5B, 0x22, 0x61, 0x20, 0x62, 0x5C, 0x6E, 0x22, 0x5D], (0x20 : UInt8) ≤ b := by
  have hbytes : (Node.emit Shape.emitValue
      (.array true (.cons (.leaf ⟨.string, "a b\n"⟩) .nil))).toBytes =
        .ok [0x5B, 0x22, 0x61, 0x20, 0x62, 0x5C, 0x6E, 0x22, 0x5D] := by
    decide +kernel
  obtain ⟨-, hle, hspace⟩ := (Node.written_clean _).1 _ hbytes
  exact ⟨hbytes, hspace, hle⟩

end FlatJson
