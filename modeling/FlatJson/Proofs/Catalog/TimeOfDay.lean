import FlatJson.Catalog.Duration
import FlatJson.Proofs.Catalog.Signed

/-!
# Times of day in durations

What durations are spelled with behind their letter `T`: hours, minutes, and seconds, which
may have a fraction. What is spelled so is scanned as it is spelled
(`Grammar.TimeOfDay.scanTime?_body_eq_some_iff`), and what is scanned is spelled so, as long
as the fraction is not too long (`Grammar.TimeOfDay.exists_of_scanTime?`).
-/

namespace FlatJson

open Ascii

namespace Grammar

/-- A fraction of a second: a mark, and nine digits at most. -/
structure Fraction where
  mark : UInt8
  digits : Bytes
  isMark : mark = dot ∨ mark = comma
  isDigit : ∀ b ∈ digits, isDigit b = true
  short : digits.length ≤ 9

namespace Fraction

/-- What a fraction derives. -/
def text (f : Fraction) : Bytes :=
  f.mark :: f.digits

/-- The nanoseconds of a fraction. -/
def nanoseconds (f : Fraction) : ℕ :=
  decimal f.digits * 10 ^ (9 - f.digits.length)

theorem nanoseconds_lt (f : Fraction) : f.nanoseconds < 10 ^ 9 :=
  calc decimal f.digits * 10 ^ (9 - f.digits.length)
      < 10 ^ f.digits.length * 10 ^ (9 - f.digits.length) :=
        Nat.mul_lt_mul_of_pos_right (decimal_lt f.isDigit) (by positivity)
    _ = 10 ^ 9 := by rw [← pow_add, Nat.add_sub_cancel' f.short]

end Fraction

/-- The seconds: an amount, perhaps a fraction, and the letter of the unit. -/
structure Seconds where
  whole : Amount
  fraction : Option Fraction

namespace Seconds

/-- What the seconds derive. -/
def text (s : Seconds) : Bytes :=
  s.whole.text ++ (s.fraction.elim [] Fraction.text ++ [0x53])

/-- The nanoseconds of the fraction without a sign. -/
def nanos (s : Seconds) : ℕ :=
  s.fraction.elim 0 Fraction.nanoseconds

/-- The nanoseconds of the fraction, with the sign that is written on the seconds. -/
def signedNanos (s : Seconds) : ℤ :=
  s.whole.sign.factor * s.nanos

/-- What is scanned of the seconds. -/
def part (s : Seconds) : Duration.SecondsPart :=
  ⟨s.whole.signed, s.fraction.elim [] Fraction.digits⟩

theorem nanos_lt (s : Seconds) : s.nanos < 10 ^ 9 := by
  unfold nanos
  cases s.fraction with
  | none => simp
  | some f => exact Fraction.nanoseconds_lt f

theorem fraction?_part (s : Seconds) : Duration.fraction? s.part.fraction = some s.nanos := by
  unfold part nanos
  cases s.fraction with
  | none => exact congrArg some (Nat.zero_mul _)
  | some f =>
      show Duration.fraction? f.digits = some f.nanoseconds
      rw [Duration.fraction?, if_pos f.short, numeral_eq_decimal]
      rfl

/-- What is behind the amount of the seconds begins with a mark or with the unit. -/
theorem exists_cons (s : Seconds) : ∃ b rest,
    s.fraction.elim [] Fraction.text ++ [0x53] = b :: rest ∧
      isDigit b = false ∧ (b = dot ∨ b = comma ∨ b = 0x53) := by
  cases s.fraction with
  | none => exact ⟨0x53, [], rfl, by decide, .inr (.inr rfl)⟩
  | some f =>
      refine ⟨f.mark, f.digits ++ [0x53], rfl, ?_, ?_⟩
      · rcases f.isMark with hmark | hmark <;> rw [hmark] <;> decide
      · exact f.isMark.imp_right .inl

theorem scanFraction_append (s : Seconds) :
    Duration.scanFraction (s.fraction.elim [] Fraction.text ++ [0x53]) =
      (s.fraction.elim [] Fraction.digits, [0x53]) := by
  cases s.fraction with
  | none => rfl
  | some f =>
      have hend : NotAhead isDigit [0x53] := notAhead_cons.mpr (by decide)
      show Duration.scanFraction (f.mark :: (f.digits ++ [0x53])) = (f.digits, [0x53])
      rw [Duration.scanFraction, if_pos (by simpa using f.isMark),
        List.takeWhile_append_of_pos f.isDigit, List.dropWhile_append_of_pos f.isDigit,
        takeWhile_of_notAhead hend, dropWhile_of_notAhead hend, List.append_nil]

theorem scanSeconds?_text (x : Option Seconds) :
    Duration.scanSeconds? (x.elim [] text) = some (x.map part, []) := by
  cases x with
  | none => rfl
  | some s =>
      obtain ⟨b, rest, hrest, hdigit, -⟩ := s.exists_cons
      have hscan : Signed.scan? s.text =
          some (s.whole.signed, s.fraction.elim [] Fraction.text ++ [0x53]) :=
        s.whole.scan?_text (by rw [hrest]; exact notAhead_cons.mpr hdigit)
      simp [Duration.scanSeconds?, hscan, s.scanFraction_append, part]

/-- What is taken off the front of a text is a fraction or nothing, if it is short. -/
theorem exists_of_scanFraction {text ds rest : Bytes}
    (h : Duration.scanFraction text = (ds, rest)) (hshort : ds.length ≤ 9) :
    ∃ f : Option Fraction, ds = f.elim [] Fraction.digits ∧
      text = f.elim [] Fraction.text ++ rest := by
  cases text with
  | nil =>
      cases h
      exact ⟨none, rfl, rfl⟩
  | cons b behind =>
      rw [Duration.scanFraction] at h
      split at h
      · next hmark =>
          cases h
          refine ⟨some ⟨b, _, by simpa using hmark, fun c hc => List.mem_takeWhile_imp hc, hshort⟩,
            rfl, ?_⟩
          show b :: behind = b :: (behind.takeWhile isDigit ++ behind.dropWhile isDigit)
          rw [List.takeWhile_append_dropWhile]
      · cases h
        exact ⟨none, rfl, rfl⟩

/-- What is scanned as the seconds is spelled as seconds, if the fraction is short. -/
theorem exists_of_scanSeconds? {text rest : Bytes} {part : Option Duration.SecondsPart}
    (h : Duration.scanSeconds? text = some (part, rest))
    (hshort : ∀ p ∈ part, p.fraction.length ≤ 9) :
    ∃ x : Option Seconds, part = x.map Seconds.part ∧ text = x.elim [] Seconds.text ++ rest := by
  unfold Duration.scanSeconds? at h
  split at h
  · cases h
    exact ⟨none, rfl, rfl⟩
  · next whole behind hwhole =>
      obtain ⟨a, rfl, rfl, -⟩ := Amount.exists_of_scan? hwhole
      rcases hfraction : Duration.scanFraction behind with ⟨ds, left⟩
      rw [hfraction] at h
      cases left with
      | nil => cases h
      | cons b left =>
          simp only [Option.ite_none_right_eq_some, beq_iff_eq, Option.some_inj,
            Prod.mk.injEq] at h
          obtain ⟨rfl, rfl, rfl⟩ := h
          obtain ⟨f, rfl, rfl⟩ := exists_of_scanFraction hfraction (hshort _ rfl)
          refine ⟨some ⟨a, f⟩, rfl, ?_⟩
          simp [text]

/-- In front of the seconds no other unit is found. -/
theorem absent_text {unit : UInt8} (hunit : unit ≠ dot ∧ unit ≠ comma ∧ unit ≠ 0x53)
    (x : Option Seconds) : Component.Absent unit (x.elim [] text) := by
  cases x with
  | none => exact Component.absent_nil
  | some s =>
      obtain ⟨b, rest, hrest, hdigit, hb⟩ := s.exists_cons
      show Component.Absent unit (s.whole.text ++ (s.fraction.elim [] Fraction.text ++ [0x53]))
      rw [hrest]
      refine Component.absent_amount s.whole hdigit ?_
      rintro rfl
      exact hb.elim hunit.1 fun hb => hb.elim hunit.2.1 hunit.2.2

end Seconds

/-- A time of day: its letter in either case, and amounts of hours, minutes and seconds, of
which one is there at least. -/
structure TimeOfDay where
  letter : UInt8
  hours : Option Amount
  minutes : Option Amount
  seconds : Option Seconds
  isLetter : letter = 0x54 ∨ letter = 0x74
  nonempty : hours.isSome ∨ minutes.isSome ∨ seconds.isSome

namespace TimeOfDay

/-- What is behind the letter. -/
def body (t : TimeOfDay) : Bytes :=
  componentText 0x48 t.hours ++ (componentText 0x4D t.minutes ++ t.seconds.elim [] Seconds.text)

/-- What a time of day derives. -/
def text (t : TimeOfDay) : Bytes :=
  t.letter :: t.body

theorem scanTime?_body_eq_some_iff (t : TimeOfDay) {days : Option ℤ} {found : Duration.Parts} :
    Duration.scanTime? days t.body = some found ↔
      Component.Fits t.hours ∧ Component.Fits t.minutes ∧
        found = ⟨days, t.hours.map Amount.value, t.minutes.map Amount.value,
          t.seconds.map Seconds.part⟩ := by
  have hseconds (unit : UInt8) (hunit : unit ≠ dot ∧ unit ≠ comma ∧ unit ≠ 0x53) :=
    Seconds.absent_text hunit t.seconds
  have hminutes : Component.Absent 0x48 (componentText 0x4D t.minutes ++ _) :=
    (hseconds 0x48 (by decide)).component (by decide) (by decide) t.minutes
  have hnonempty := or_assoc.mpr t.nonempty
  rw [Duration.scanTime?, body]
  simp only [Component.take?_bind_eq_some_iff (by decide) hminutes,
    Component.take?_bind_eq_some_iff (by decide) (hseconds 0x4D (by decide)),
    Seconds.scanSeconds?_text]
  simp [hnonempty, eq_comm (a := found)]

/-- What is scanned of a time of day is spelled as one, if the fraction is short. -/
theorem exists_of_scanTime? {days : Option ℤ} {letter : UInt8} {text : Bytes}
    {parts : Duration.Parts} (h : Duration.scanTime? days text = some parts)
    (hletter : letter = 0x54 ∨ letter = 0x74)
    (hshort : ∀ p ∈ parts.seconds, p.fraction.length ≤ 9) :
    ∃ t : TimeOfDay, t.text = letter :: text := by
  simp only [Duration.scanTime?, bind, Option.bind_eq_some_iff, Prod.exists] at h
  obtain ⟨_, _, hhours, _, _, hminutes, _, left, hseconds, hend⟩ := h
  obtain ⟨hours, rfl, rfl⟩ := Component.exists_of_take? hhours
  obtain ⟨minutes, rfl, rfl⟩ := Component.exists_of_take? hminutes
  split at hend
  · next hleft =>
      cases hend
      obtain ⟨seconds, rfl, rfl⟩ := Seconds.exists_of_scanSeconds? hseconds hshort
      simp only [Option.isSome_map, Bool.and_eq_true, Bool.or_eq_true, or_assoc,
        List.isEmpty_iff] at hleft
      obtain ⟨rfl, hnonempty⟩ := hleft
      refine ⟨⟨letter, hours, minutes, seconds, hletter, hnonempty⟩, ?_⟩
      simp only [TimeOfDay.text, TimeOfDay.body, List.append_nil]
  · cases hend

end TimeOfDay

end Grammar

end FlatJson
