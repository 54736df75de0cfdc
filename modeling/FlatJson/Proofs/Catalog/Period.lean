import FlatJson.Catalog.Period
import FlatJson.Proofs.Catalog.Signed
import FlatJson.Proofs.Catalog.Strings

/-!
# Periods as they are spelled

A text is parsed as a period if it is spelled as one (`Period.Spelling`) and nothing that
has to be worked out on the way is too large (`Period.Spelling.Fits`), and then it is
parsed as the period that it spells. The text of a period is such a text
(`Period.exists_spelling_text`), so that every period has round trips.
-/

namespace FlatJson

open Ascii Grammar

namespace Period

/-- A text that spells a period: a heading, and amounts of years, months, weeks and days, of
which one is there at least. -/
structure Spelling where
  heading : Heading
  years : Option Amount
  months : Option Amount
  weeks : Option Amount
  days : Option Amount
  nonempty : years.isSome ∨ months.isSome ∨ weeks.isSome ∨ days.isSome

namespace Spelling

/-- What is behind the heading. -/
def body (s : Spelling) : Bytes :=
  componentText 0x59 s.years ++ (componentText 0x4D s.months ++
    (componentText 0x57 s.weeks ++ componentText 0x44 s.days))

/-- What a spelling derives. -/
def text (s : Spelling) : Bytes :=
  s.heading.text ++ s.body

/-- The days of the weeks and the other days. -/
def allDays (s : Spelling) : ℤ :=
  7 * valueOf s.weeks + valueOf s.days

/-- The years, months and days without the sign of the heading. -/
def fields (s : Spelling) : List ℤ :=
  [valueOf s.years, valueOf s.months, s.allDays]

/-- Nothing is too large for 64 bits in the course of the computation, nor for 32 bits at
its end. -/
structure Fits (s : Spelling) : Prop where
  components : ∀ x ∈ [s.years, s.months, s.weeks, s.days], Component.Fits x
  weeks : Within 64 (7 * valueOf s.weeks)
  allDays : Within 64 s.allDays
  turned : ∀ n ∈ s.fields, Within 64 (s.heading.sign.factor * n)
  fields : ∀ n ∈ s.fields, Within 32 (s.heading.sign.factor * n)

/-- A spelling spells a period. -/
def Spells (s : Spelling) (p : Period) : Prop :=
  [p.years.val, p.months.val, p.days.val] = s.fields.map (s.heading.sign.factor * ·)

end Spelling

/-- What fits is spelled of a period. -/
theorem Spelling.Fits.exists_spells {s : Spelling} (h : s.Fits) : ∃ p, s.Spells p := by
  have hmember (n : ℤ) (hn : n ∈ s.fields) := IntType.exists_member_iff.mpr (h.fields n hn)
  obtain ⟨years, hyears⟩ := hmember (valueOf s.years) (by simp [Spelling.fields])
  obtain ⟨months, hmonths⟩ := hmember (valueOf s.months) (by simp [Spelling.fields])
  obtain ⟨days, hdays⟩ := hmember s.allDays (by simp [Spelling.fields])
  refine ⟨⟨years, months, days⟩, ?_⟩
  rw [Spelling.Spells, hyears, hmonths, hdays]
  rfl

theorem ofParts?_eq_some_iff {years months days : ℤ} {p : Period} :
    ofParts? years months days = some p ↔
      p.years.val = years ∧ p.months.val = months ∧ p.days.val = days := by
  obtain ⟨y, m, d⟩ := p
  simp only [ofParts?, bind, Option.bind_eq_some_iff, IntType.ofInt?_eq_some_iff, Option.some_inj,
    Period.mk.injEq]
  constructor
  · rintro ⟨_, hy, _, hm, _, hd, rfl, rfl, rfl⟩
    exact ⟨hy, hm, hd⟩
  · rintro ⟨hy, hm, hd⟩
    exact ⟨y, hy, m, hm, d, hd, rfl, rfl, rfl⟩

namespace Spelling

variable (s : Spelling)

/-- What is scanned of a spelling. -/
def parts : Parts :=
  ⟨s.years.map Amount.value, s.months.map Amount.value, s.weeks.map Amount.value,
    s.days.map Amount.value⟩

theorem scanParts?_body_eq_some_iff {found : Parts} :
    scanParts? s.body = some found ↔
      (∀ x ∈ [s.years, s.months, s.weeks, s.days], Component.Fits x) ∧ found = s.parts := by
  have hbody : s.body = componentText 0x59 s.years ++ (componentText 0x4D s.months ++
      (componentText 0x57 s.weeks ++ (componentText 0x44 s.days ++ []))) := by
    rw [List.append_nil, body]
  -- No unit is found in front of a later one.
  have hdays (unit : UInt8) (h : 0x44 ≠ unit) :
      Component.Absent unit (componentText 0x44 s.days ++ []) :=
    Component.absent_nil.component (by decide) h s.days
  have hweeks (unit : UInt8) (h : 0x57 ≠ unit) (hrest : 0x44 ≠ unit) :
      Component.Absent unit (componentText 0x57 s.weeks ++ (componentText 0x44 s.days ++ [])) :=
    (hdays unit hrest).component (by decide) h s.weeks
  have hmonths : Component.Absent 0x59 (componentText 0x4D s.months ++ _) :=
    (hweeks 0x59 (by decide) (by decide)).component (by decide) (by decide) s.months
  have hnonempty :
      (s.years.isSome || s.months.isSome || s.weeks.isSome || s.days.isSome) = true := by
    simpa [or_assoc] using s.nonempty
  rw [scanParts?, hbody]
  simp only [Component.take?_bind_eq_some_iff (by decide) hmonths,
    Component.take?_bind_eq_some_iff (by decide) (hweeks 0x4D (by decide) (by decide)),
    Component.take?_bind_eq_some_iff (by decide) (hdays 0x57 (by decide)),
    Component.take?_bind_eq_some_iff (show isDigit 0x44 = false by decide) Component.absent_nil]
  simp [hnonempty, and_assoc, parts, eq_comm (a := found)]

theorem Spells.within {s : Spelling} {p : Period} (h : s.Spells p) :
    ∀ n ∈ s.fields, Within 32 (s.heading.sign.factor * n) := by
  have hmember (k : IntType.int32.Member) : Within 32 k.val :=
    IntType.exists_member_iff.mp ⟨k, rfl⟩
  have hall : ∀ n ∈ s.fields.map (s.heading.sign.factor * ·), Within 32 n := by
    rw [← h]
    simp [hmember]
  exact fun n hn => hall _ (List.mem_map_of_mem hn)

theorem total?_parts_eq_some_iff {p : Period} :
    s.parts.total? (decide (s.heading.sign = .minus)) = some p ↔
      (Within 64 (7 * valueOf s.weeks) ∧ Within 64 s.allDays ∧
        ∀ n ∈ s.fields, Within 64 (s.heading.sign.factor * n)) ∧ s.Spells p := by
  have hsign :
      (if decide (s.heading.sign = .minus) = true then -1 else 1) = s.heading.sign.factor := by
    cases s.heading.sign <;> rfl
  simp only [Parts.total?, hsign, parts, ← valueOf_eq_getD, bind, Option.bind_eq_some_iff,
    within64?_eq_some_iff, ofParts?_eq_some_iff, and_assoc, exists_and_left, exists_eq_left]
  rw [Int.mul_comm (valueOf s.weeks), Int.add_comm (valueOf s.days), ← allDays]
  simp [Spells, fields, Int.mul_comm s.heading.sign.factor, and_assoc]

/-- A spelling is parsed as what it spells, if it fits. -/
theorem ofText?_text_eq_some_iff {p : Period} :
    ofText? s.text = some p ↔ s.Fits ∧ s.Spells p := by
  have hread : ofText? s.text =
      (scanParts? s.body).bind fun parts => parts.total? (decide (s.heading.sign = .minus)) := by
    simp only [ofText?, text, Heading.takeOuterSign_text, Heading.takeLetter?_letter]
    rfl
  rw [hread, Option.bind_eq_some_iff]
  constructor
  · rintro ⟨parts, hscan, htotal⟩
    obtain ⟨hcomponents, rfl⟩ := s.scanParts?_body_eq_some_iff.mp hscan
    obtain ⟨⟨hweeks, hdays, hturned⟩, hspells⟩ := s.total?_parts_eq_some_iff.mp htotal
    exact ⟨⟨hcomponents, hweeks, hdays, hturned, hspells.within⟩, hspells⟩
  · rintro ⟨hfits, hspells⟩
    exact ⟨s.parts, s.scanParts?_body_eq_some_iff.mpr ⟨hfits.components, rfl⟩,
      s.total?_parts_eq_some_iff.mpr ⟨⟨hfits.weeks, hfits.allDays, hfits.turned⟩, hspells⟩⟩

end Spelling

/-- What is parsed as a period is spelled as one. -/
theorem exists_spelling {text : Bytes} {p : Period} (h : ofText? text = some p) :
    ∃ s : Spelling, s.text = text := by
  simp only [ofText?, bind, Option.bind_eq_some_iff] at h
  obtain ⟨rest, hletter, parts, hscan, -⟩ := h
  obtain ⟨heading, rfl⟩ := Heading.exists_of_take hletter
  simp only [scanParts?, bind, Option.bind_eq_some_iff, Prod.exists] at hscan
  obtain ⟨_, _, hyears, _, _, hmonths, _, _, hweeks, _, left, hdays, hend⟩ := hscan
  obtain ⟨years, rfl, rfl⟩ := Component.exists_of_take? hyears
  obtain ⟨months, rfl, rfl⟩ := Component.exists_of_take? hmonths
  obtain ⟨weeks, rfl, rfl⟩ := Component.exists_of_take? hweeks
  obtain ⟨days, rfl, rfl⟩ := Component.exists_of_take? hdays
  split at hend
  · next hleft =>
      simp only [Option.isSome_map, Bool.and_eq_true, Bool.or_eq_true, or_assoc,
        List.isEmpty_iff] at hleft
      obtain ⟨rfl, hnonempty⟩ := hleft
      refine ⟨⟨heading, years, months, weeks, days, hnonempty⟩, ?_⟩
      simp only [Spelling.text, Spelling.body, List.append_nil]
  · cases hend

/-! The text of a period. -/

theorem partText_eq (n : ℤ) (unit : UInt8) :
    partText n unit = componentText unit (amountOf (.ofInt n) n.natAbs) := by
  unfold partText amountOf
  by_cases hn : n = 0
  · rw [if_pos hn, if_pos (Int.natAbs_eq_zero.mpr hn)]
    rfl
  · rw [if_neg hn, if_neg fun hzero => hn (Int.natAbs_eq_zero.mp hzero), componentText,
      Option.elim_some, Amount.text_ofNat_ofInt]

/-- Without weeks and a sign in front there is nothing to work out. -/
theorem Spelling.Spells.fits {s : Spelling} {p : Period} (h : s.Spells p)
    (hsign : s.heading.sign = .absent) (hweeks : s.weeks = none) : s.Fits := by
  have hturned (n : ℤ) : s.heading.sign.factor * n = n := by
    rw [hsign, Sign.factor, one_mul]
  have hfields : ∀ n ∈ s.fields, Within 64 n := fun n hn => by
    rw [← hturned n]
    exact (h.within n hn).mono (by decide)
  have hdays : s.allDays = valueOf s.days := by
    rw [allDays, hweeks, valueOf_none, mul_zero, zero_add]
  obtain ⟨hy, hm, hd⟩ : Within 64 (valueOf s.years) ∧ Within 64 (valueOf s.months) ∧
      Within 64 s.allDays := by
    simpa [Spelling.fields] using hfields
  refine ⟨?_, by rw [hweeks]; decide, hd, fun n hn => ?_, h.within⟩
  · rw [hdays] at hd
    simpa [hweeks, Component.fits_none] using ⟨hy, hm, hd⟩
  · rw [hturned]
    exact hfields n hn

/-- The text of a period spells it, without weeks and without a sign in front. -/
theorem exists_spelling_text (p : Period) :
    ∃ s : Spelling, s.text = p.text ∧ s.Fits ∧ s.Spells p := by
  by_cases hzero : p.years.val = 0 ∧ p.months.val = 0 ∧ p.days.val = 0
  · let s : Spelling := ⟨.plain, none, none, none, some .zero, by simp⟩
    have hspells : s.Spells p := by
      obtain ⟨hyears, hmonths, hdays⟩ := hzero
      rw [Spelling.Spells, hyears, hmonths, hdays]
      decide
    refine ⟨s, ?_, hspells.fits rfl rfl, hspells⟩
    rw [Period.text, if_pos hzero]
    decide
  · let part (n : ℤ) : Option Amount := amountOf (.ofInt n) n.natAbs
    have hpart (n : ℤ) : valueOf (part n) = n :=
      (valueOf_amountOf _ _).trans (Sign.factor_ofInt_mul n)
    have hnonempty : (part p.years.val).isSome ∨ (part p.months.val).isSome ∨
        (none : Option Amount).isSome ∨ (part p.days.val).isSome := by
      simp only [part, isSome_amountOf, Int.natAbs_ne_zero]
      tauto
    let s : Spelling :=
      ⟨.plain, part p.years.val, part p.months.val, none, part p.days.val, hnonempty⟩
    have hspells : s.Spells p := by
      simp [Spelling.Spells, Spelling.fields, Spelling.allDays, s, hpart, Heading.plain,
        Sign.factor]
    refine ⟨s, ?_, hspells.fits rfl rfl, hspells⟩
    rw [Period.text, if_neg hzero, partText_eq, partText_eq, partText_eq]
    simp [Spelling.text, Spelling.body, s, part, Heading.text, Heading.plain, Sign.text, Sign.byte?]

theorem ofText?_text (p : Period) : ofText? p.text = some p := by
  obtain ⟨s, hs, hfits, hspells⟩ := p.exists_spelling_text
  rw [← hs]
  exact s.ofText?_text_eq_some_iff.mpr ⟨hfits, hspells⟩

/-- Every period is parsed from its text, and read from the string that is written of it. A
text that spells a period is parsed as the sign in front of it has the years, the months,
and the days with the weeks, if nothing on the way is too large, and refused otherwise. So
is every text that spells no period. -/
theorem text_exact :
    (∀ p : Period, form.RoundTrips p) ∧
    (∀ s : Spelling, (s.Fits → ∃ p, ofText? s.text = some p ∧ s.Spells p) ∧
      (¬s.Fits → ofText? s.text = none)) ∧
    ∀ text, (∀ s : Spelling, s.text ≠ text) → ofText? text = none := by
  refine ⟨fun p => TextForm.roundTrips_of_parse p.printed_text p.ofText?_text, ?_⟩
  exact parses_exactly (fun _ hfits => hfits.exists_spells)
    (fun s _ => s.ofText?_text_eq_some_iff) fun _ _ hp => exists_spelling hp

/-- The texts `-P1Y2W-3D`, `-P-2147483648Y` and the empty one. -/
theorem text_exact_weeks :
    (∃ p : Period, ofText? [0x2D, 0x50, 0x31, 0x59, 0x32, 0x57, 0x2D, 0x33, 0x44] = some p ∧
      p.years.val = -1 ∧ p.months.val = 0 ∧ p.days.val = -11) ∧
    ofText? [0x2D, 0x50, 0x2D, 0x32, 0x31, 0x34, 0x37, 0x34, 0x38, 0x33, 0x36, 0x34, 0x38,
      0x59] = none ∧
    ofText? [] = none := by
  let one : Amount := ⟨.absent, [0x31], by decide⟩
  let two : Amount := ⟨.absent, [0x32], by decide⟩
  let three : Amount := ⟨.minus, [0x33], by decide⟩
  let least : Amount :=
    ⟨.minus, [0x32, 0x31, 0x34, 0x37, 0x34, 0x38, 0x33, 0x36, 0x34, 0x38], by decide⟩
  let back : Heading := ⟨.minus, 0x50, .inl rfl⟩
  refine ⟨?_, ?_, text_exact.2.2 [] fun s hs => ?_⟩
  · obtain ⟨p, hp, hspells⟩ := (text_exact.2.1
      ⟨back, some one, none, some two, some three, by simp⟩).1
        ⟨by decide, by decide, by decide, by decide, by decide⟩
    have hvalues : [p.years.val, p.months.val, p.days.val] = [-1, 0, -11] :=
      hspells.trans (by decide)
    exact ⟨p, hp, by simpa using hvalues⟩
  · refine (text_exact.2.1 ⟨back, some least, none, none, none, by simp⟩).2 fun hfits => ?_
    exact absurd (hfits.fields _ List.mem_cons_self) (by decide)
  · simp [Spelling.text, Heading.text] at hs

end Period

end FlatJson
