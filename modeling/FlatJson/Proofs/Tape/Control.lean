import FlatJson.Proofs.Phases

/-!
# Control bytes in strings

The pass takes whatever byte stands behind a backslash, and leaves it to the readers of
strings to say whether that is an escape. So a control byte can get into a string, but only
as the second byte of what has to be an escape (`Grammar.Inside.exists_backslash`), and such
a string can be skipped and not read: the readers refuse it there, or at an earlier backslash
(`Escape.Understood.not_control`).
-/

namespace FlatJson

open Ascii Grammar ByteReader LawfulReader

/-- A control byte in a string stands behind a backslash, and what is in front of the two is
the inside of a string as well. -/
theorem Grammar.Inside.exists_backslash {bs : Bytes} (h : Inside bs) {p q : Bytes} {b : UInt8}
    (hsplit : bs = p ++ b :: q) (hb : isControl b = true) :
    ∃ front, p = front ++ [backslash] ∧ Inside front := by
  induction h generalizing p with
  | nil => cases p <;> cases hsplit
  | @plain c rest hcontrol hquote hbackslash _ ih =>
      cases p with
      | nil =>
          cases hsplit
          rw [hcontrol] at hb
          cases hb
      | cons _ p =>
          cases hsplit
          obtain ⟨front, rfl, hfront⟩ := ih rfl
          exact ⟨c :: front, rfl, .plain hcontrol hquote hbackslash hfront⟩
  | escaped c _ ih =>
      -- The byte is the backslash itself, the one behind it, or one behind the two.
      match p with
      | [] =>
          cases hsplit
          cases hb
      | [_] =>
          cases hsplit
          exact ⟨[], rfl, .nil⟩
      | _ :: _ :: p =>
          cases hsplit
          obtain ⟨front, rfl, hfront⟩ := ih rfl
          exact ⟨backslash :: c :: front, rfl, .escaped c hfront⟩

namespace Escape

theorem Escaped.not_control {e : Bytes} {c : Char} (h : Escaped e c) :
    ∀ b ∈ e, isControl b = false :=
  h.forall_mem (by decide) (by decide) fun hdigit => (plain_of_hexValue? hdigit).1

/-- What is understood of a string holds no control byte. -/
theorem Understood.not_control {before rest : Bytes} (h : Understood before)
    (hinside : Inside (before ++ rest)) : ∀ b ∈ before, isControl b = false := by
  induction h with
  | nil => exact fun _ hb => by cases hb
  | plain hbackslash _ ih =>
      obtain ⟨⟨hcontrol, -⟩, hrest⟩ := inside_plain hbackslash hinside
      exact List.forall_mem_cons.mpr ⟨hcontrol, ih hrest⟩
  | escape he _ ih =>
      rw [List.cons_append, List.append_assoc] at hinside
      exact List.forall_mem_cons.mpr ⟨by decide,
        List.forall_mem_append.mpr ⟨he.not_control, ih ((inside_escape he).mp hinside)⟩⟩

/-- A string with a control byte in it is refused for an escape, in front of that byte. -/
theorem unescape_control {p q : Bytes} {b : UInt8} (hinside : Inside (p ++ b :: q))
    (hb : isControl b = true) (offset : Nat) :
    ∃ fault, unescape (p ++ b :: q) offset = .error fault ∧ fault.cause = .badEscape ∧
      fault.offset < offset + p.length := by
  have hmem : b ∈ p ++ b :: q := List.mem_append_right p List.mem_cons_self
  rcases understood_or_stuck (p ++ b :: q) with h | ⟨before, rest, h⟩
  · have hwhole : Inside ((p ++ b :: q) ++ []) := by
      rwa [List.append_nil]
    have hnone := h.not_control hwhole b hmem
    rw [hb] at hnone
    cases hnone
  · refine ⟨_, (Unescapes.refused h).eq, rfl, Nat.add_lt_add_left ?_ offset⟩
    have hbefore := h.understood.not_control (h.split ▸ hinside)
    -- The backslash stands in front of the byte, or the byte would have been understood.
    rcases List.append_eq_append_iff.mp h.split with ⟨more, hfront, htail⟩ | ⟨more, hp, htail⟩
    · cases more with
      | nil =>
          cases htail
          cases hb
      | cons c more =>
          cases htail
          have hcontrol := hbefore b (hfront ▸ List.mem_append_right p List.mem_cons_self)
          rw [hb] at hcontrol
          cases hcontrol
    · cases more with
      | nil =>
          cases htail
          cases hb
      | cons c more =>
          rw [hp, List.length_append, List.length_cons]
          omega

end Escape

/-- A control byte gets into a string token only directly behind a backslash which begins an
escape there: what is in front of the two is made of whole escapes and of bytes that stand
alone. Such a string is never read: it is refused for an escape, at that backslash or at one in
front of it. -/
theorem Tape.control_bytes_escaped {ρ : Type} [ByteReader ρ] [LawfulReader ρ] {limits : Limits}
    {r : ρ} {tape : Tape} (h : (Tape.read limits r).1 = .ok tape) {t : Token}
    (ht : t ∈ tape.tokens) (hkind : t.kind = .string) {p q : Bytes} {b : UInt8}
    (hcut : cut (content r) t = p ++ b :: q) (hb : b < 0x20) :
    ∃ front, p = front ++ [backslash] ∧ Inside front ∧
      ∀ source : Source, source.toBytes = content r → ∃ fault : ReadFault,
        Scalar.string source t = .error (.read fault) ∧ fault.cause = .badEscape ∧
          fault.offset ≤ t.start + front.length := by
  have hcontrol : isControl b = true := decide_eq_true hb
  obtain ⟨x, start, rfl, hlies⟩ := (Tape.stands_of_read h t ht).exists_quoted hkind
  have hraw : x.raw = p ++ b :: q :=
    (hlies.tail.left.cut_eq rfl rfl).symm.trans hcut
  obtain ⟨front, rfl, hfront⟩ := x.inside.exists_backslash hraw hcontrol
  refine ⟨front, rfl, hfront, fun source hsource => ?_⟩
  obtain ⟨fault, hfault, hcause, hoffset⟩ :=
    Escape.unescape_control (hraw ▸ x.inside) hcontrol (start + 1)
  rw [← hraw] at hfault
  refine ⟨fault, ?_, hcause, ?_⟩
  · have hinner : Lies source.toBytes (start + 1) x.raw := hsource ▸ hlies.tail.left
    have htext := Source.textOf_of_lies (t := (Lexeme.string x).token start) hinner rfl
    refine (Scalar.withText_eq htext Escape.unescape).trans ?_
    exact congrArg (Except.mapError Fault.read) hfault
  · rw [List.length_append, List.length_singleton] at hoffset
    show fault.offset ≤ start + 1 + front.length
    omega

/-- A name of an `a`, a backslash and a line feed is refused for its escape. -/
theorem Tape.control_bytes_escaped_name :
    ∃ fault : ReadFault,
      Scalar.string (.ofBytes [0x7B, 0x22, 0x61, 0x5C, 0x0A, 0x22, 0x3A, 0x31, 0x7D])
          ⟨.string, 2, 5, 0⟩ = .error (.read fault) ∧
        fault.cause = .badEscape ∧ fault.offset ≤ 3 := by
  have hread : (Tape.read {} (SliceReader.ofSource
      (.ofBytes [0x7B, 0x22, 0x61, 0x5C, 0x0A, 0x22, 0x3A, 0x31, 0x7D]))).1 =
        .ok ⟨[⟨.object, 0, 9, 1⟩, ⟨.string, 2, 5, 0⟩, ⟨.number, 7, 8, 0⟩]⟩ := by
    cbv
  obtain ⟨front, hfront, -, hrefused⟩ := Tape.control_bytes_escaped hread
    (t := ⟨.string, 2, 5, 0⟩) (by decide) rfl (p := [0x61, 0x5C]) (q := []) (b := 0x0A) rfl
    (by decide)
  have hshort : [0x61] ++ [backslash] = front ++ [backslash] := hfront
  obtain rfl := List.append_cancel_right hshort
  exact hrefused _ rfl

/-- The string of a backslash and a line feed has one token, so not every control byte is kept
out of the strings of a tape. -/
theorem Tape.control_byte_taken :
    Tape.ofSource {} (.ofBytes [0x22, 0x5C, 0x0A, 0x22]) = .ok ⟨[⟨.string, 1, 3, 0⟩]⟩ ∧
      cut [0x22, 0x5C, 0x0A, 0x22] ⟨.string, 1, 3, 0⟩ = [0x5C, 0x0A] ∧ (0x0A : UInt8) < 0x20 := by
  refine ⟨?_, rfl, by decide⟩
  cbv

end FlatJson
