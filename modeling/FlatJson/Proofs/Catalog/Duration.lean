import Mathlib.Data.List.DropRight
import FlatJson.Proofs.Catalog.Strings
import FlatJson.Proofs.Catalog.TimeOfDay

/-!
# Durations as they are spelled

A text is parsed as a duration if it is spelled as one (`Duration.Spelling`) and nothing
that has to be worked out on the way is too large (`Duration.Spelling.Fits`), and then it
is parsed as the number of nanoseconds that it spells. The fraction of the seconds has the
sign that is written on the seconds. The text of a duration is such a text
(`Duration.exists_spelling_text`), so that every duration has round trips.
-/

namespace FlatJson

open Ascii Grammar

namespace Duration

/-- A text that spells a duration: a heading, and days or a time of day or both. -/
structure Spelling where
  heading : Heading
  days : Option Amount
  time : Option TimeOfDay
  nonempty : days.isSome ∨ time.isSome

namespace Spelling

variable (s : Spelling)

/-- What is behind the heading. -/
def body : Bytes :=
  componentText 0x44 s.days ++ s.time.elim [] TimeOfDay.text

/-- What a spelling derives. -/
def text : Bytes :=
  s.heading.text ++ s.body

def hours : Option Amount :=
  s.time.bind TimeOfDay.hours

def minutes : Option Amount :=
  s.time.bind TimeOfDay.minutes

def seconds : Option Seconds :=
  s.time.bind TimeOfDay.seconds

/-- The seconds without their fraction. -/
def wholeSeconds : Option Amount :=
  s.seconds.map Seconds.whole

/-- A minus is written on the seconds, if only in front of a zero. -/
def hasMinus : Bool :=
  s.seconds.any fun x => decide (x.whole.sign = .minus)

/-- The nanoseconds of the fraction of the seconds, without a sign. -/
def nanos : ℕ :=
  s.seconds.elim 0 Seconds.nanos

/-- The nanoseconds of the fraction of the seconds, with the sign that is written on the
seconds. -/
def fraction : ℤ :=
  s.seconds.elim 0 Seconds.signedNanos

/-- The days, hours, minutes and seconds, all in seconds. -/
def scaled : List ℤ :=
  [86400 * valueOf s.days, 3600 * valueOf s.hours, 60 * valueOf s.minutes, valueOf s.wholeSeconds]

/-- The nanoseconds without the sign of the heading. -/
def total : ℤ :=
  s.scaled.sum * 10 ^ 9 + s.fraction

/-- The nanoseconds that a spelling spells. -/
def nanoseconds : ℤ :=
  s.heading.sign.factor * s.total

/-- Nothing is too large in the course of the computation: the amounts, what they are in
seconds, the sums of the first of these, and the sum of all of them less the second that a
negative fraction borrows, have to be held by 64 bits, and the total by a duration. -/
structure Fits : Prop where
  components : ∀ x ∈ [s.days, s.hours, s.minutes, s.wholeSeconds], Component.Fits x
  scaled : ∀ n ∈ s.scaled, Within 64 n
  sums : ∀ n ∈ s.scaled.scanl (· + ·) 0, Within 64 n
  borrow : s.fraction < 0 → Within 64 (s.scaled.sum - 1)
  total : s.total.natAbs ≤ (2 ^ 63 - 1) * 10 ^ 6

/-- What is scanned of a spelling. -/
def parts : Parts :=
  ⟨s.days.map Amount.value, s.hours.map Amount.value, s.minutes.map Amount.value,
    s.seconds.map Seconds.part⟩

theorem scanParts?_body_eq_some_iff {found : Parts} :
    scanParts? s.body = some found ↔
      (∀ x ∈ [s.days, s.hours, s.minutes], Component.Fits x) ∧ found = s.parts := by
  have htime : Component.Absent 0x44 (s.time.elim [] TimeOfDay.text) := by
    cases s.time with
    | none => exact Component.absent_nil
    | some t =>
        refine Component.absent_cons ?_
        rcases t.isLetter with hletter | hletter <;> rw [hletter] <;> decide
  rw [scanParts?, body]
  simp only [Component.take?_bind_eq_some_iff (by decide) htime, List.forall_mem_cons]
  obtain ⟨heading, days, time, hnonempty⟩ := s
  cases time with
  | none =>
      have hdays : days.isSome = true := by simpa using hnonempty
      simp [takeLetter?, parts, hours, minutes, seconds, hdays, Component.fits_none,
        eq_comm (a := found)]
  | some t =>
      have hletter : takeLetter? 0x54 0x74 t.text = some t.body :=
        takeLetter?_eq_some_iff.mpr ⟨t.letter, t.isLetter, rfl⟩
      simp [hletter, t.scanTime?_body_eq_some_iff, parts, hours, minutes, seconds, and_assoc]

end Spelling

theorem ofNanoseconds?_eq_some_iff {n : ℤ} {d : Duration} :
    ofNanoseconds? n = some d ↔ n.natAbs ≤ bound ∧ d.nanoseconds = n := by
  obtain ⟨k, hk⟩ := d
  unfold ofNanoseconds?
  constructor
  · intro h
    split at h
    · next hn =>
        cases h
        exact ⟨hn, rfl⟩
    · cases h
  · rintro ⟨hn, rfl⟩
    exact dif_pos hn

theorem perSecond_eq : perSecond = 10 ^ 9 :=
  rfl

/-- Whole seconds and less than a second make a duration of their sum. -/
theorem ofParts?_eq_some_iff {seconds : ℤ} {nanos : ℕ} (h : nanos < 10 ^ 9) {d : Duration} :
    ofParts? seconds nanos = some d ↔
      (seconds * 10 ^ 9 + nanos).natAbs ≤ (2 ^ 63 - 1) * 10 ^ 6 ∧
        d.nanoseconds = seconds * 10 ^ 9 + nanos := by
  rw [ofParts?, perSecond_eq, if_pos h, ofNanoseconds?_eq_some_iff]
  rfl

theorem addScaled?_eq_some_iff {total amount : ℤ} {scale : ℕ} {n : ℤ} :
    addScaled? total amount scale = some n ↔
      (Within 64 (scale * amount) ∧ Within 64 (total + scale * amount)) ∧
        n = total + scale * amount := by
  simp only [addScaled?, bind, Option.bind_eq_some_iff, within64?_eq_some_iff, and_assoc,
    exists_and_left, exists_eq_left, Int.mul_comm amount, Int.add_comm _ total]

/-- A fraction below zero borrows a second. -/
theorem borrow_eq_some_iff (negative : Bool) (seconds : ℤ) {nanos : ℕ} (h : nanos < 10 ^ 9)
    {fraction : ℤ} (hfraction : fraction = if negative then -(nanos : ℤ) else nanos)
    {d : Duration} :
    (if negative && 0 < nanos then
        within64? (seconds - 1) >>= fun less => ofParts? less (perSecond - nanos)
      else ofParts? seconds nanos) = some d ↔
      (fraction < 0 → Within 64 (seconds - 1)) ∧
        (seconds * 10 ^ 9 + fraction).natAbs ≤ (2 ^ 63 - 1) * 10 ^ 6 ∧
        d.nanoseconds = seconds * 10 ^ 9 + fraction := by
  by_cases hborrow : (negative && decide (0 < nanos)) = true
  · obtain ⟨rfl, hpos⟩ : negative = true ∧ 0 < nanos := by simpa using hborrow
    have hless : perSecond - nanos < 10 ^ 9 := by
      rw [perSecond_eq]
      omega
    have hsum : (seconds - 1) * 10 ^ 9 + ((perSecond - nanos : ℕ) : ℤ) =
        seconds * 10 ^ 9 + fraction := by
      rw [hfraction, if_pos rfl, perSecond_eq]
      omega
    have hneg : fraction < 0 := by
      rw [hfraction, if_pos rfl]
      omega
    simp only [if_pos hborrow, bind, Option.bind_eq_some_iff, within64?_eq_some_iff, and_assoc,
      exists_and_left, exists_eq_left, ofParts?_eq_some_iff hless, hsum, hneg, true_imp_iff]
  · have hsame : fraction = nanos := by
      rw [hfraction]
      split
      · next hnegative =>
          have hzero : nanos = 0 := by simpa [hnegative] using hborrow
          rw [hzero]
          rfl
      · rfl
    have hnonneg : ¬(nanos : ℤ) < 0 := by omega
    rw [if_neg hborrow, ofParts?_eq_some_iff h, hsame]
    simp only [hnonneg, false_imp_iff, true_and]

namespace Spelling

variable (s : Spelling)

/-- The whole seconds and the fraction are worked out first, as if zero were written where
there are no seconds. -/
theorem total?_parts :
    s.parts.total? = (do
      let whole ← within64? (valueOf s.wholeSeconds)
      let total ← addScaled? 0 (valueOf s.days) 86400
      let total ← addScaled? total (valueOf s.hours) 3600
      let total ← addScaled? total (valueOf s.minutes) 60
      let total ← addScaled? total whole 1
      if s.hasMinus && decide (0 < s.nanos) then
        let total ← within64? (total - 1)
        ofParts? total (perSecond - s.nanos)
      else ofParts? total s.nanos) := by
  unfold Parts.total? parts hasMinus nanos wholeSeconds
  cases hseconds : s.seconds with
  | none =>
      have hzero : within64? 0 = some 0 := within64?_eq_some_iff.mpr ⟨by decide, rfl⟩
      simp [hzero, ← valueOf_eq_getD]
  | some x =>
      have hvalue : x.part.whole.value = valueOf (some x.whole) := x.whole.value_signed
      have hsign : x.part.whole.isNegative = decide (x.whole.sign = .minus) :=
        x.whole.isNegative_signed
      simp only [Option.map_some, x.fraction?_part, hvalue, hsign, ← valueOf_eq_getD,
        Option.any_some, Option.elim_some]
      rfl

theorem nanos_lt : s.nanos < 10 ^ 9 := by
  unfold nanos
  cases s.seconds with
  | none => simp
  | some x => exact x.nanos_lt

theorem fraction_eq : s.fraction = if s.hasMinus then -(s.nanos : ℤ) else s.nanos := by
  unfold fraction hasMinus nanos
  cases s.seconds with
  | none => rfl
  | some x =>
      cases hsign : x.whole.sign <;> simp [hsign, Seconds.signedNanos, Sign.factor]

theorem total?_parts_eq_some_iff {d : Duration} :
    s.parts.total? = some d ↔
      (Component.Fits s.wholeSeconds ∧ (∀ n ∈ s.scaled, Within 64 n) ∧
        (∀ n ∈ s.scaled.scanl (· + ·) 0, Within 64 n) ∧
        (s.fraction < 0 → Within 64 (s.scaled.sum - 1)) ∧
        s.total.natAbs ≤ (2 ^ 63 - 1) * 10 ^ 6) ∧ d.nanoseconds = s.total := by
  have hsum : s.scaled.sum = 86400 * valueOf s.days + 3600 * valueOf s.hours +
      60 * valueOf s.minutes + valueOf s.wholeSeconds := by
    simp only [scaled, List.sum_cons, List.sum_nil, add_zero, add_assoc]
  have hborrow := borrow_eq_some_iff s.hasMinus s.scaled.sum s.nanos_lt s.fraction_eq (d := d)
  rw [total?_parts]
  -- The steps in their order: each sum is checked before the next unit is scaled.
  simp only [bind, Option.bind_eq_some_iff, addScaled?_eq_some_iff, within64?_eq_some_iff,
    and_assoc, exists_and_left, exists_eq_left, Nat.cast_ofNat, zero_add, Nat.cast_one, one_mul,
    ← hsum] at hborrow ⊢
  rw [hborrow, ← total, hsum]
  have hzero : Within 64 0 := by decide
  simp only [scaled, List.scanl_cons, List.scanl_nil, List.forall_mem_cons,
    List.not_mem_nil, false_imp_iff, implies_true, zero_add, hzero, true_and, and_true, and_assoc,
    Component.Fits]
  constructor
  · rintro ⟨hwhole, hdays, -, hhours, htwo, hminutes, hthree, -, hrest⟩
    exact ⟨hwhole, hdays, hhours, hminutes, hwhole, hdays, htwo, hthree, hrest⟩
  · rintro ⟨hwhole, hdays, hhours, hminutes, -, -, htwo, hthree, hrest⟩
    exact ⟨hwhole, hdays, hdays, hhours, htwo, hminutes, hthree, hwhole, hrest⟩

end Spelling

theorem nanoseconds_injective : Function.Injective Duration.nanoseconds := by
  rintro ⟨m, _⟩ ⟨n, _⟩ hnanoseconds
  simpa using hnanoseconds

/-- The sign of the heading turns a duration round. -/
theorem nanoseconds_turned (sign : Sign) (d : Duration) :
    (if decide (sign = .minus) = true then d.negate else d).nanoseconds =
      sign.factor * d.nanoseconds := by
  cases sign <;> simp [Sign.factor, negate]

theorem Spelling.Fits.exists_duration {s : Spelling} (h : s.Fits) :
    ∃ d : Duration, d.nanoseconds = s.nanoseconds :=
  ⟨_, nanoseconds_turned s.heading.sign ⟨s.total, h.total⟩⟩

/-- A spelling is parsed as what it spells, if it fits. -/
theorem Spelling.ofText?_text_eq_some_iff (s : Spelling) {d : Duration} :
    ofText? s.text = some d ↔ s.Fits ∧ d.nanoseconds = s.nanoseconds := by
  have hread : ofText? s.text = (scanParts? s.body).bind fun parts => parts.total?.bind fun d =>
      some (if decide (s.heading.sign = .minus) = true then d.negate else d) := by
    simp only [ofText?, text, Heading.takeOuterSign_text, Heading.takeLetter?_letter]
    rfl
  simp only [hread, Option.bind_eq_some_iff, Option.some_inj]
  constructor
  · rintro ⟨parts, hscan, unsigned, htotal, rfl⟩
    obtain ⟨hcomponents, rfl⟩ := s.scanParts?_body_eq_some_iff.mp hscan
    obtain ⟨⟨hwhole, hscaled, hsums, hborrow, hbound⟩, hunsigned⟩ :=
      s.total?_parts_eq_some_iff.mp htotal
    refine ⟨⟨?_, hscaled, hsums, hborrow, hbound⟩, ?_⟩
    · simpa [hwhole] using hcomponents
    · rw [nanoseconds_turned, hunsigned, nanoseconds]
  · rintro ⟨hfits, hd⟩
    obtain ⟨hcomponents, hscaled, hsums, hborrow, hbound⟩ := hfits
    obtain ⟨hdays, hhours, hminutes, hwhole⟩ : Component.Fits s.days ∧ Component.Fits s.hours ∧
        Component.Fits s.minutes ∧ Component.Fits s.wholeSeconds := by
      simpa using hcomponents
    refine ⟨s.parts, s.scanParts?_body_eq_some_iff.mpr ⟨?_, rfl⟩, ⟨s.total, hbound⟩,
      s.total?_parts_eq_some_iff.mpr ⟨⟨hwhole, hscaled, hsums, hborrow, hbound⟩, rfl⟩, ?_⟩
    · simp [hdays, hhours, hminutes]
    · exact nanoseconds_injective ((nanoseconds_turned _ _).trans hd.symm)

/-- A duration comes of the seconds only if their fraction is short. -/
theorem length_fraction_of_total? {parts : Parts} {d : Duration} (h : parts.total? = some d) :
    ∀ p ∈ parts.seconds, p.fraction.length ≤ 9 := by
  rintro p hp
  simp only [Parts.total?, Option.mem_def.mp hp, bind, Option.bind_eq_some_iff] at h
  obtain ⟨_, -, _, hfraction, -⟩ := h
  unfold fraction? at hfraction
  split at hfraction
  · assumption
  · cases hfraction

/-- What is parsed as a duration is spelled as one. -/
theorem exists_spelling {text : Bytes} {d : Duration} (h : ofText? text = some d) :
    ∃ s : Spelling, s.text = text := by
  simp only [ofText?, bind, Option.bind_eq_some_iff] at h
  obtain ⟨rest, hletter, parts, hscan, _, htotal, -⟩ := h
  -- The scan takes a fraction of any length, and only the sum refuses a long one.
  have hshort := length_fraction_of_total? htotal
  obtain ⟨heading, rfl⟩ := Heading.exists_of_take hletter
  simp only [scanParts?, bind, Option.bind_eq_some_iff, Prod.exists] at hscan
  obtain ⟨_, left, hdays, hend⟩ := hscan
  obtain ⟨days, rfl, rfl⟩ := Component.exists_of_take? hdays
  split at hend
  · next behind hbehind =>
      obtain ⟨b, hb, rfl⟩ := takeLetter?_eq_some_iff.mp hbehind
      obtain ⟨t, ht⟩ := TimeOfDay.exists_of_scanTime? hend hb hshort
      exact ⟨⟨heading, days, some t, .inr rfl⟩, by simp [Spelling.text, Spelling.body, ht]⟩
  · split at hend
    · next hleft =>
        simp only [Option.isSome_map, Bool.and_eq_true, List.isEmpty_iff] at hleft
        obtain ⟨rfl, hnonempty⟩ := hleft
        exact ⟨⟨heading, days, none, .inl hnonempty⟩, by simp [Spelling.text, Spelling.body]⟩
    · cases hend

/-! The text of a duration. -/

theorem partText_eq (sign : Sign) (n : ℕ) (unit : UInt8) :
    partText sign.text n unit = componentText unit (amountOf sign n) := by
  unfold partText amountOf
  split <;> rfl

/-- The digits of a fraction of a second are nine with the zeros that are not written. -/
theorem exists_trimmed {n : ℕ} (h : n < 10 ^ 9) : ∃ ds zeros,
    ds = ((padded 9 n).reverse.dropWhile (· == zero)).reverse ∧
      ds ++ List.replicate zeros zero = padded 9 n ∧ ds.length + zeros = 9 := by
  have hsplit : (padded 9 n).rdropWhile (· == zero) ++ (padded 9 n).rtakeWhile (· == zero) =
      padded 9 n :=
    List.rdropWhile_append_rtakeWhile ..
  have hzeros : (padded 9 n).rtakeWhile (· == zero) =
      List.replicate ((padded 9 n).rtakeWhile (· == zero)).length zero :=
    List.eq_replicate_of_mem fun b hb => by
      simpa using List.mem_rtakeWhile_imp hb
  have hlength : (padded 9 n).length = 9 := by
    rw [length_padded, max_eq_left (length_digits_le (by decide) h)]
  have hsum := congrArg List.length hsplit
  rw [List.length_append, hlength] at hsum
  exact ⟨_, _, rfl, hzeros ▸ hsplit, hsum⟩

/-- The text of a fraction of a second spells it. -/
theorem exists_fraction {n : ℕ} (h : n < 10 ^ 9) : ∃ f : Option Fraction,
    f.elim [] Fraction.text = fractionText n ∧ f.elim 0 Fraction.nanoseconds = n := by
  unfold fractionText
  by_cases hn : n = 0
  · exact ⟨none, (if_pos hn).symm, hn.symm⟩
  · obtain ⟨ds, zeros, hds, hpadded, hlength⟩ := exists_trimmed h
    have hdigits : ∀ b ∈ ds, isDigit b = true := fun b hb =>
      (isDigits_padded 9 n).2 b (hpadded ▸ List.mem_append_left _ hb)
    refine ⟨some ⟨dot, ds, .inl rfl, hdigits, by omega⟩, by rw [if_neg hn, ← hds]; rfl, ?_⟩
    have hzeros : 9 - ds.length = zeros := by omega
    calc decimal ds * 10 ^ (9 - ds.length)
        = numeral (ds ++ List.replicate zeros zero) := by
          rw [numeral_append, numeral_replicate_zero, List.length_replicate, add_zero,
            numeral_eq_decimal, hzeros]
      _ = n := by rw [hpadded, numeral_padded]

/-- Seconds as they are written of a duration, unless there are none. -/
theorem exists_seconds (sign : Sign) (whole : ℕ) {nanos : ℕ} (h : nanos < 10 ^ 9) :
    ∃ x : Option Seconds, (x.isSome = true ↔ ¬(whole = 0 ∧ nanos = 0)) ∧
      x.elim [] Seconds.text = (if whole = 0 ∧ nanos = 0 then []
        else sign.text ++ digits whole ++ fractionText nanos ++ [0x53]) ∧
      valueOf (x.map Seconds.whole) = sign.factor * whole ∧
      x.elim 0 Seconds.signedNanos = sign.factor * nanos := by
  by_cases hzero : whole = 0 ∧ nanos = 0
  · refine ⟨none, by simp [hzero], by rw [if_pos hzero]; rfl, ?_, ?_⟩
    · simp [hzero.1]
    · simp [hzero.2]
  · obtain ⟨f, htext, hnanos⟩ := exists_fraction h
    refine ⟨some ⟨.ofNat sign whole, f⟩, by simp [hzero], ?_, Amount.value_ofNat sign whole, ?_⟩
    · rw [if_neg hzero, ← htext]
      simp [Seconds.text, Amount.text, Amount.ofNat]
    · rw [← hnanos]
      rfl

/-- Hours, minutes and seconds of one sign fit if they make up a duration. -/
theorem Spelling.fits_of_clock {s : Spelling} {sign : Sign} {hours minutes seconds nanos : ℕ}
    (hdays : s.days = none) (hhours : valueOf s.hours = sign.factor * hours)
    (hminutes : valueOf s.minutes = sign.factor * minutes)
    (hseconds : valueOf s.wholeSeconds = sign.factor * seconds)
    (hfraction : s.fraction = sign.factor * nanos)
    (h : (3600 * hours + 60 * minutes + seconds) * 10 ^ 9 + nanos ≤ (2 ^ 63 - 1) * 10 ^ 6) :
    s.Fits ∧ s.total =
      sign.factor * ((3600 * hours + 60 * minutes + seconds) * 10 ^ 9 + nanos : ℕ) := by
  have hscaled : s.scaled =
      [0, 3600 * (sign.factor * hours), 60 * (sign.factor * minutes), sign.factor * seconds] := by
    rw [scaled, hdays, hhours, hminutes, hseconds, valueOf_none, mul_zero]
  have hfits : ∀ x ∈ [s.days, s.hours, s.minutes, s.wholeSeconds], Component.Fits x := by
    simp only [List.forall_mem_cons, Component.Fits, hdays, hhours, hminutes, hseconds, Within]
    rcases sign.factor_eq with hsign | hsign <;> rw [hsign] <;> simp <;> omega
  -- With either factor, what is left are bounds on natural numbers.
  refine ⟨⟨hfits, ?_, ?_, ?_, ?_⟩, ?_⟩ <;> simp only [hscaled, total, hfraction, Within]
  all_goals rcases sign.factor_eq with hsign | hsign <;> rw [hsign] <;> simp <;> omega

/-- Hours, minutes and seconds of one sign spell any number of nanoseconds but zero. -/
theorem exists_clock (sign : Sign) {n : ℕ} (hn : n ≠ 0) (h : n ≤ (2 ^ 63 - 1) * 10 ^ 6) :
    ∃ s : Spelling, s.text = [0x50, 0x54] ++ partText sign.text (n / perSecond / 3600) 0x48 ++
        partText sign.text (n / perSecond % 3600 / 60) 0x4D ++
        (if n / perSecond % 60 = 0 ∧ n % perSecond = 0 then []
          else sign.text ++ digits (n / perSecond % 60) ++ fractionText (n % perSecond) ++ [0x53]) ∧
      s.Fits ∧ s.nanoseconds = sign.factor * n := by
  have hnanos : n % perSecond < 10 ^ 9 := Nat.mod_lt n (Nat.pow_pos (by decide))
  obtain ⟨x, hsome, hx, hwhole, hfraction⟩ := exists_seconds sign (n / perSecond % 60) hnanos
  rw [partText_eq, partText_eq, ← hx]
  rw [perSecond_eq] at *
  let hours := amountOf sign (n / 10 ^ 9 / 3600)
  let minutes := amountOf sign (n / 10 ^ 9 % 3600 / 60)
  have hnonempty : hours.isSome ∨ minutes.isSome ∨ x.isSome := by
    rw [isSome_amountOf, isSome_amountOf, hsome]
    omega
  let s : Spelling := ⟨.plain, none, some ⟨0x54, hours, minutes, x, .inl rfl, hnonempty⟩, .inr rfl⟩
  obtain ⟨hfits, htotal⟩ := Spelling.fits_of_clock (s := s) rfl (valueOf_amountOf _ _)
    (valueOf_amountOf _ _) hwhole hfraction (by omega)
  refine ⟨s, ?_, hfits, ?_⟩
  · simp [Spelling.text, Spelling.body, s, TimeOfDay.text, TimeOfDay.body, Heading.text,
      Heading.plain, Sign.text, Sign.byte?, hours, minutes]
  · rw [Spelling.nanoseconds, htotal, show s.heading.sign.factor = 1 from rfl, one_mul]
    congr 2
    omega

/-- The text of a duration spells it, without days and without a sign in front. -/
theorem exists_spelling_text (d : Duration) :
    ∃ s : Spelling, s.text = d.text ∧ s.Fits ∧ s.nanoseconds = d.nanoseconds := by
  by_cases hzero : d.nanoseconds.natAbs = 0
  · let zeroSeconds : Seconds := ⟨.zero, none⟩
    let s : Spelling := ⟨.plain, none, some ⟨0x54, none, none, some zeroSeconds, .inl rfl, by simp⟩,
      .inr rfl⟩
    have hvalue : (0 : ℤ) = Sign.absent.factor * (0 : ℕ) := rfl
    obtain ⟨hfits, htotal⟩ :=
      Spelling.fits_of_clock (s := s) rfl hvalue hvalue hvalue hvalue (by simp)
    refine ⟨s, ?_, hfits, ?_⟩
    · rw [Duration.text]
      simp only [if_pos hzero]
      decide
    · rw [Int.natAbs_eq_zero.mp hzero, Spelling.nanoseconds, htotal]
      rfl
  · have hclock := exists_clock (.ofInt d.nanoseconds) hzero d.bounded
    rw [Sign.factor_ofInt_mul, Sign.text_ofInt] at hclock
    rw [Duration.text]
    simp only [if_neg hzero]
    exact hclock

theorem ofText?_text (d : Duration) : ofText? d.text = some d := by
  obtain ⟨s, hs, hfits, hspells⟩ := d.exists_spelling_text
  rw [← hs]
  exact s.ofText?_text_eq_some_iff.mpr ⟨hfits, hspells.symm⟩

/-- Every duration is parsed from its text, and read from the string that is written of
it. -/
theorem round_trips (d : Duration) : form.RoundTrips d :=
  TextForm.roundTrips_of_parse d.printed_text d.ofText?_text

/-- A text that spells a duration is parsed as the number of nanoseconds that it spells, if
nothing on the way is too large, and refused otherwise. So is every text that spells no
duration. -/
theorem ofText?_exact :
    (∀ s : Spelling, (s.Fits → ∃ d, ofText? s.text = some d ∧ d.nanoseconds = s.nanoseconds) ∧
      (¬s.Fits → ofText? s.text = none)) ∧
    ∀ text, (∀ s : Spelling, s.text ≠ text) → ofText? text = none :=
  parses_exactly (fun _ hfits => hfits.exists_duration)
    (fun s _ => s.ofText?_text_eq_some_iff) fun _ _ hd => exists_spelling hd

/-- The texts `-P1DT2H-0.5S`, `PT9223372036854775808S` and the empty one. -/
theorem ofText?_exact_borrow :
    (∃ d : Duration, ofText? [0x2D, 0x50, 0x31, 0x44, 0x54, 0x32, 0x48, 0x2D, 0x30, 0x2E, 0x35,
        0x53] = some d ∧ d.nanoseconds = -93599500000000) ∧
    ofText? [0x50, 0x54, 0x39, 0x32, 0x32, 0x33, 0x33, 0x37, 0x32, 0x30, 0x33, 0x36, 0x38, 0x35,
      0x34, 0x37, 0x37, 0x35, 0x38, 0x30, 0x38, 0x53] = none ∧
    ofText? [] = none := by
  let one : Amount := ⟨.absent, [0x31], by decide⟩
  let two : Amount := ⟨.absent, [0x32], by decide⟩
  let half : Seconds :=
    ⟨⟨.minus, [0x30], by decide⟩,
      some ⟨0x2E, [0x35], .inl rfl, List.all_eq_true.mp rfl, by decide⟩⟩
  let excess : Seconds := ⟨⟨.absent, [0x39, 0x32, 0x32, 0x33, 0x33, 0x37, 0x32, 0x30, 0x33, 0x36,
    0x38, 0x35, 0x34, 0x37, 0x37, 0x35, 0x38, 0x30, 0x38], by decide⟩, none⟩
  refine ⟨?_, ?_, ofText?_exact.2 [] fun s hs => ?_⟩
  · obtain ⟨d, hd, hnanoseconds⟩ := (ofText?_exact.1 ⟨⟨.minus, 0x50, .inl rfl⟩, some one,
      some ⟨0x54, some two, none, some half, .inl rfl, by simp⟩, .inl rfl⟩).1
        ⟨by decide, by decide, by decide, by decide, by decide⟩
    exact ⟨d, hd, hnanoseconds.trans (by decide)⟩
  · refine (ofText?_exact.1 ⟨.plain, none,
      some ⟨0x54, none, none, some excess, .inl rfl, by simp⟩, .inr rfl⟩).2 fun hfits => ?_
    exact absurd (hfits.components (some excess.whole) (by simp [Spelling.wholeSeconds,
      Spelling.seconds])) (by decide)
  · simp [Spelling.text, Heading.text] at hs

end Duration

end FlatJson
