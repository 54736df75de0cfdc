import FlatJson.Catalog.ZonedDateTime
import FlatJson.Proofs.Catalog.Clock
import FlatJson.Proofs.Catalog.Strings

/-!
# Date-times as they are read back

The text of a date-time gives the year in four digits only from the year zero to the year
9999, and the offset in whole minutes. A date-time that can be told in this way
(`OffsetDateTime.IsTold`) is what its text is read as. Any other is not: its text is refused,
or is that of another instant (`ZonedDateTime.text_limits`).
-/

namespace FlatJson

open Ascii

theorem Instant.ofParts?_eq_some_iff {seconds : ℤ} {nanos : ℕ} {t : Instant} :
    Instant.ofParts? seconds nanos = some t ↔ t.seconds = seconds ∧ t.nanos = nanos := by
  unfold Instant.ofParts?
  constructor
  · intro h
    split at h
    · cases h
      exact ⟨rfl, rfl⟩
    · cases h
  · rintro ⟨rfl, rfl⟩
    exact dif_pos t.valid

namespace OffsetDateTime

/-! Offsets. -/

/-- An offset to the nearest minute, which is what is written of it. -/
def rounded (offset : ℤ) : ℤ :=
  if offset < 0 then -((offset.natAbs + 30) / 60 * 60 : ℕ) else ((offset.natAbs + 30) / 60 * 60 : ℕ)

theorem rounded_eq_iff {offset : ℤ} : rounded offset = offset ↔ 60 ∣ offset := by
  unfold rounded
  split <;> omega

/-- Half a minute counts as a whole one, and less than that as none. -/
example : rounded 30 = 60 ∧ rounded (-30) = -60 ∧ rounded (-29) = 0 := by
  decide

/-- Hours and minutes with a sign in front. -/
theorem offset?_cons (negative : Bool) {hours minutes : ℕ} (hhours : hours < 100)
    (hminutes : minutes ≤ 59) :
    offset? ((if negative then minus else plus) :: (padded 2 hours ++ colon :: padded 2 minutes)) =
      some (if negative then -((hours * 60 + minutes : ℤ) * 60)
        else (hours * 60 + minutes : ℤ) * 60) := by
  have hlast := ClockTime.scanNumber?_padded (by decide : 0 < 2)
    (hminutes.trans_lt (by decide) : minutes < 10 ^ 2) []
  rw [List.append_nil] at hlast
  have hscan : ∀ rest, scanSign? ((if negative then minus else plus) :: rest) =
      some (negative, rest) := by
    cases negative <;> intro rest <;> rfl
  have hsign : ∀ rest : Bytes, (((if negative then minus else plus) :: rest == [0x5A]) ||
      ((if negative then minus else plus) :: rest == [0x7A])) = false := by
    cases negative <;> intro rest <;> simp +decide
  rw [offset?, hsign, if_neg Bool.false_ne_true, hscan]
  simp only [bind, Option.bind_some, ClockTime.scanNumber?_padded (by decide : 0 < 2) hhours,
    ClockTime.scanMark?_cons (List.mem_singleton_self colon), hlast]
  simp [hminutes]

theorem offset?_offsetText {offset : ℤ} (h : offset.natAbs < Instant.perDay) :
    offset? (offsetText offset) = some (rounded offset) := by
  rw [Instant.perDay] at h
  by_cases hzero : offset = 0
  · rw [hzero]
    rfl
  have hhours : (offset.natAbs + 30) / 60 / 60 < 100 := by omega
  have hminutes : (offset.natAbs + 30) / 60 % 60 ≤ 59 := by omega
  have hsigned := offset?_cons (decide (offset < 0)) hhours hminutes
  simp only [decide_eq_true_eq] at hsigned
  rw [offsetText, if_neg hzero, hsigned, rounded]
  split <;> simp only [Option.some_inj] <;> omega

/-- Nothing in front of an offset can be taken for a part of it. -/
theorem notAhead_offsetText {p : UInt8 → Bool}
    (hp : p 0x5A = false ∧ p plus = false ∧ p minus = false) (offset : ℤ) :
    NotAhead p (offsetText offset) := by
  unfold offsetText
  split
  · exact notAhead_cons.mpr hp.1
  · refine notAhead_cons.mpr ?_
    split
    · exact hp.2.2
    · exact hp.2.1

/-! Date-times. -/

theorem ofParts?_eq_some_iff {instant : Instant} {offset : ℤ} {t : OffsetDateTime} :
    ofParts? instant offset = some t ↔ t.instant = instant ∧ t.offset = offset := by
  unfold ofParts?
  constructor
  · intro h
    split at h
    · cases h
      exact ⟨rfl, rfl⟩
    · cases h
  · rintro ⟨rfl, rfl⟩
    exact dif_pos t.bounded

/-- The year on the clock of a date-time, as the calendar has it. -/
def IsLocalYear (t : OffsetDateTime) (year : ℤ) : Prop :=
  Calendar.InYear year ((t.instant.seconds + t.offset) / Instant.perDay)

/-- A date-time in a year of four digits, on a clock that is off by whole minutes. -/
def IsTold (t : OffsetDateTime) : Prop :=
  (∃ year, t.IsLocalYear year ∧ 0 ≤ year ∧ year ≤ 9999) ∧ 60 ∣ t.offset

variable {t : OffsetDateTime}

theorem year_clock_eq_iff {year : ℤ} : t.clock.date.year = year ↔ t.IsLocalYear year :=
  Calendar.year_dateOf_eq_iff

theorem isTold_iff :
    t.IsTold ↔ (0 ≤ t.clock.date.year ∧ t.clock.date.year ≤ 9999) ∧ 60 ∣ t.offset := by
  simp only [IsTold, ← year_clock_eq_iff, exists_eq_left']

theorem nanos_lt (t : OffsetDateTime) : t.instant.nanos < 2 * Instant.perSecond := by
  have hvalid := t.instant.valid
  simp only [Instant.isValid, Bool.and_eq_true, Bool.or_eq_true, decide_eq_true_eq] at hvalid
  omega

/-- Only the last second of a minute is followed by a leap second. -/
theorem sixtieth_of_leap (h : Instant.perSecond ≤ t.instant.nanos) :
    t.instant.seconds % 60 = 59 := by
  have hvalid := t.instant.valid
  simp only [Instant.isValid, Bool.and_eq_true, Bool.or_eq_true, decide_eq_true_eq,
    beq_iff_eq] at hvalid
  omega

theorem shows_clock (t : OffsetDateTime) : t.clock.Shows :=
  ClockTime.shows_ofSeconds _ t.nanos_lt

theorem ofText?_text_eq_none (hyear : ¬(0 ≤ t.clock.date.year ∧ t.clock.date.year ≤ 9999)) :
    ofText? t.text = none := by
  rw [ofText?, text, ClockTime.scan?_text_eq_none hyear]
  rfl

/-- A year of four digits is read with all that the clock shows, and with the offset as it is
written. -/
theorem ofText?_text_eq_some_iff {u : OffsetDateTime}
    (hyear : 0 ≤ t.clock.date.year ∧ t.clock.date.year ≤ 9999) :
    ofText? t.text = some u ↔
      (u.instant.seconds + u.offset, u.instant.nanos) = t.clock.toSeconds ∧
        u.offset = rounded t.offset := by
  have hscan := ClockTime.scan?_text t.shows_clock hyear
    (notAhead_offsetText (by decide) t.offset) (notAhead_offsetText (by decide) t.offset)
  rw [ofText?, text]
  simp only [bind, hscan, Option.bind_some, offset?_offsetText t.bounded,
    Option.bind_eq_some_iff, Instant.ofParts?_eq_some_iff, ofParts?_eq_some_iff]
  constructor
  · rintro ⟨_, ⟨hseconds, hnanos⟩, rfl, hoffset⟩
    exact ⟨Prod.ext (by rw [hseconds, hoffset, Int.sub_add_cancel]) hnanos, hoffset⟩
  · rintro ⟨hclock, hoffset⟩
    refine ⟨u.instant, ⟨?_, congrArg Prod.snd hclock⟩, rfl, hoffset⟩
    rw [← hclock, ← hoffset, Int.add_sub_cancel]

theorem ofText?_text (h : t.IsTold) : ofText? t.text = some t := by
  obtain ⟨hyear, hwhole⟩ := isTold_iff.mp h
  refine (ofText?_text_eq_some_iff hyear).mpr ⟨?_, (rounded_eq_iff.mpr hwhole).symm⟩
  refine ((ClockTime.toSeconds_ofSeconds _ _).trans (if_neg fun hleap => ?_)).symm
  have hsixtieth := sixtieth_of_leap hleap.1
  omega

/-- Where a date-time is told otherwise than it is, what is read is at another instant. -/
theorem instant_ne_of_ofText?_text {u : OffsetDateTime} (h : ¬t.IsTold)
    (hread : ofText? t.text = some u) : u.instant ≠ t.instant := by
  by_cases hyear : 0 ≤ t.clock.date.year ∧ t.clock.date.year ≤ 9999
  · intro hinstant
    have hrounded : rounded t.offset ≠ t.offset := fun hwhole =>
      h (isTold_iff.mpr ⟨hyear, rounded_eq_iff.mp hwhole⟩)
    obtain ⟨hclock, hoffset⟩ := (ofText?_text_eq_some_iff hyear).mp hread
    rw [clock, ClockTime.toSeconds_ofSeconds, hinstant, hoffset] at hclock
    split at hclock
    · next hleap =>
        -- Of a leap second that is shown as another second a whole second is left.
        have hnanos : t.instant.nanos = t.instant.nanos - Instant.perSecond :=
          congrArg Prod.snd hclock
        have hpos : 0 < Instant.perSecond := by decide
        omega
    · exact hrounded (Int.add_left_cancel (congrArg Prod.fst hclock))
  · rw [ofText?_text_eq_none hyear] at hread
    cases hread

end OffsetDateTime

namespace ZonedDateTime

variable {t : ZonedDateTime}

/-- The text of a date-time has no bracket, so that the first one opens the name of the zone. -/
theorem splitZone?_text (t : ZonedDateTime) :
    splitZone? t.text = t.zone.map fun zone => (t.dateTime.text, zone.name) := by
  have hopen : openBracket ∉ t.dateTime.text :=
    OffsetDateTime.notMem_text (by decide) (by decide) _
  have hclose : closeBracket ∉ t.dateTime.text :=
    OffsetDateTime.notMem_text (by decide) (by decide) _
  cases hzone : t.zone with
  | none =>
      have hlast : t.dateTime.text.getLast? ≠ some closeBracket := fun h =>
        hclose (List.mem_of_getLast? h)
      simp [splitZone?, text, hzone, hlast]
  | some zone =>
      have htext : t.text = t.dateTime.text ++ openBracket :: zone.name ++ [closeBracket] := by
        simp [text, hzone]
      have hbefore : ∀ b ∈ t.dateTime.text, (b != openBracket) = true := by
        intro b hb
        exact bne_iff_ne.mpr fun h => hopen (h ▸ hb)
      rw [splitZone?, htext, List.getLast?_concat, List.dropLast_concat]
      simp only [beq_self_eq_true, if_true]
      rw [List.takeWhile_append_of_pos hbefore, List.dropWhile_append_of_pos hbefore]
      simp

theorem ofText?_text (t : ZonedDateTime) :
    ofText? t.text =
      (OffsetDateTime.ofText? t.dateTime.text).map fun dateTime => ⟨dateTime, t.zone⟩ := by
  rw [ofText?, splitZone?_text]
  cases hzone : t.zone with
  | none =>
      have htext : t.text = t.dateTime.text := by
        simp [text, hzone]
      rw [htext, Option.map_none, Option.map_eq_bind]
      simp only [bind, Function.comp_def]
  | some zone =>
      have hname : ZoneId.ofText? zone.name = some zone := dif_pos zone.valid
      rw [Option.map_some, Option.map_eq_bind]
      simp only [bind, hname, Option.bind_some, Function.comp_def]

end ZonedDateTime

namespace TextForm

/-- Under a condition, and only then, a value is what its text is parsed as. Where the
condition is not met, the text is refused, or is parsed as a value of another instant. -/
structure ReadsBackIf {α : Type} (form : TextForm α) (instant : α → Instant) (x : α)
    (p : Prop) : Prop where
  parse_display_iff : form.parse? (form.display x) = some x ↔ p
  refused_or_other : ¬p → form.parse? (form.display x) = none ∨
    ∃ y, form.parse? (form.display x) = some y ∧ instant y ≠ instant x

theorem readsBackIf {α : Type} {form : TextForm α} {instant : α → Instant} {x : α} {p : Prop}
    (hprinted : Printed (form.text x)) (hback : p → form.parse (form.text x) = some x)
    (hother : ¬p → ∀ y, form.parse (form.text x) = some y → instant y ≠ instant x) :
    form.ReadsBackIf instant x p := by
  rw [← parse?_display hprinted] at hback hother
  refine ⟨⟨fun hread => ?_, hback⟩, fun hp => ?_⟩
  · by_contra hp
    exact hother hp x hread rfl
  · cases hread : form.parse? (form.display x) with
    | none => exact .inl rfl
    | some y => exact .inr ⟨y, rfl, hother hp y hread⟩

end TextForm

/-- An instant, a date-time and a date-time with a zone are what their texts are parsed as if
the clock shows a year from zero to 9999 and is off by whole minutes, and only then. All other
texts are refused, or are those of other instants. -/
theorem ZonedDateTime.text_limits :
    (∀ t : Instant, Instant.form.ReadsBackIf id t t.atUtc.IsTold) ∧
    (∀ t : OffsetDateTime, OffsetDateTime.form.ReadsBackIf (·.instant) t t.IsTold) ∧
    ∀ t : ZonedDateTime, form.ReadsBackIf (·.dateTime.instant) t t.dateTime.IsTold := by
  refine ⟨fun t => ?_, fun t => ?_, fun t => ?_⟩
  · have hparse : Instant.form.parse (Instant.form.text t) =
        (OffsetDateTime.ofText? t.atUtc.text).map OffsetDateTime.instant := by
      simp only [Instant.form]
    refine TextForm.readsBackIf t.atUtc.printed_text (fun htold => ?_) fun htold u hread => ?_
    · rw [hparse, OffsetDateTime.ofText?_text htold]
      rfl
    · rw [hparse, Option.map_eq_some_iff] at hread
      obtain ⟨v, hv, rfl⟩ := hread
      exact OffsetDateTime.instant_ne_of_ofText?_text htold hv
  · exact TextForm.readsBackIf t.printed_text OffsetDateTime.ofText?_text fun htold u hread =>
      OffsetDateTime.instant_ne_of_ofText?_text htold hread
  · have hparse : form.parse (form.text t) = (OffsetDateTime.ofText? t.dateTime.text).map
        fun dateTime => ⟨dateTime, t.zone⟩ := by
      simp only [form, ofText?_text]
    refine TextForm.readsBackIf t.printed_text (fun htold => ?_) fun htold u hread => ?_
    · rw [hparse, OffsetDateTime.ofText?_text htold]
      rfl
    · rw [hparse, Option.map_eq_some_iff] at hread
      obtain ⟨v, hv, rfl⟩ := hread
      exact OffsetDateTime.instant_ne_of_ofText?_text htold hv

end FlatJson
