import Mathlib.Data.Int.Notation
import Mathlib.Data.Nat.Notation
import FlatJson.Catalog.Calendar

/-!
# Days and dates

Every day has one date. The years follow one another without a gap, so that each day falls
into one of them (`Calendar.InYear`), and the months do so in each year. The date of the
number of a day is found in that year (`Calendar.year_dateOf_eq_iff`) and in that month: it
exists, and its number is that of the day (`Calendar.dateOf_spec`).
-/

namespace FlatJson

namespace Calendar

/-! Years. -/

/-- The number of days in a year. -/
def yearLength (leap : Bool) : ℕ :=
  if leap then 366 else 365

theorem isLeap_iff {year : ℤ} :
    isLeap year = true ↔ year % 4 = 0 ∧ (year % 100 = 0 → year % 400 = 0) := by
  simp [isLeap, Decidable.or_iff_not_imp_left]

theorem daysBeforeYear_eq (year : ℤ) :
    daysBeforeYear year =
      (year - 1) * 365 + (year - 1) / 4 - (year - 1) / 100 + (year - 1) / 400 :=
  rfl

theorem daysBeforeYear_succ (year : ℤ) :
    daysBeforeYear (year + 1) = daysBeforeYear year + yearLength (isLeap year) := by
  rw [daysBeforeYear_eq, daysBeforeYear_eq, yearLength]
  by_cases hleap : isLeap year = true
  · rw [if_pos hleap]
    rw [isLeap_iff] at hleap
    omega
  · rw [if_neg hleap]
    rw [isLeap_iff] at hleap
    omega

theorem daysBeforeYear_mono {year later : ℤ} (h : year ≤ later) :
    daysBeforeYear year ≤ daysBeforeYear later := by
  rw [daysBeforeYear_eq, daysBeforeYear_eq]
  omega

/-- A year counted in spans of four centuries, centuries, four years and years. -/
def yearAt (quads : ℤ) (centuries fours years : ℕ) : ℤ :=
  quads * 400 + (centuries * 100 + fours * 4 + years : ℕ) + 1

section YearAt

variable {quads : ℤ} {centuries fours years : ℕ}

theorem daysBeforeYear_yearAt (hcenturies : centuries ≤ 3) (hfours : fours ≤ 24)
    (hyears : years ≤ 3) :
    daysBeforeYear (yearAt quads centuries fours years) =
      quads * 146097 + (centuries * 36524 + fours * 1461 + years * 365 : ℕ) := by
  rw [daysBeforeYear_eq, yearAt]
  omega

/-- The last of four years is a leap year, except in the last four of a century that is not
the last of four. -/
theorem isLeap_yearAt (hcenturies : centuries ≤ 3) (hfours : fours ≤ 24) (hyears : years ≤ 3) :
    isLeap (yearAt quads centuries fours years) = true ↔
      years = 3 ∧ (fours = 24 → centuries = 3) := by
  rw [isLeap_iff, yearAt]
  omega

end YearAt

/-- The days before the year of a day, and those of the year before the day, are all the days
before it. -/
theorem yearOf_spec (n : ℤ) :
    daysBeforeYear (yearOf n).1 + (yearOf n).2 = n ∧
      (yearOf n).2 < yearLength (isLeap (yearOf n).1) := by
  have hquad : 0 ≤ n % 146097 ∧ n % 146097 < 146097 := by omega
  obtain ⟨day, hday⟩ := Int.eq_ofNat_of_zero_le hquad.1
  have hcenturies : min (day / 36524) 3 ≤ 3 := Nat.min_le_right _ _
  generalize hcenturies_eq : min (day / 36524) 3 = centuries at hcenturies
  have hfours : (day - centuries * 36524) / 1461 ≤ 24 := by omega
  generalize hfours_eq : (day - centuries * 36524) / 1461 = fours at hfours
  have hyears : min ((day - centuries * 36524) % 1461 / 365) 3 ≤ 3 := Nat.min_le_right _ _
  generalize hyears_eq : min ((day - centuries * 36524) % 1461 / 365) 3 = years at hyears
  have hyearOf : yearOf n = (yearAt (n / 146097) centuries fours years,
      (day - centuries * 36524) % 1461 - years * 365) := by
    simp only [yearOf, hday, Int.toNat_natCast, hcenturies_eq, hfours_eq, hyears_eq, yearAt]
  rw [hyearOf, daysBeforeYear_yearAt hcenturies hfours hyears, yearLength]
  refine ⟨by omega, ?_⟩
  by_cases hleap : isLeap (yearAt (n / 146097) centuries fours years) = true
  · rw [if_pos hleap]
    omega
  · rw [if_neg hleap]
    rw [isLeap_yearAt hcenturies hfours hyears] at hleap
    omega

/-! Months. -/

theorem daysBeforeMonth_succ (leap : Bool) {month : ℕ} (h : 0 < month) :
    daysBeforeMonth leap (month + 1) = daysBeforeMonth leap month + monthLength leap month := by
  obtain ⟨month, rfl⟩ := Nat.exists_eq_add_one_of_ne_zero (Nat.ne_of_gt h)
  rfl

theorem monthLength_le (leap : Bool) (month : ℕ) : monthLength leap month ≤ 31 := by
  unfold monthLength
  split
  · cases leap <;> decide
  all_goals decide

theorem daysBeforeMonth_end (leap : Bool) : daysBeforeMonth leap 13 = yearLength leap := by
  cases leap <;> rfl

/-- The day stays where it is while whole months are taken off in front of it. -/
theorem monthOf_spec (leap : Bool) {month day left : ℕ} (hmonth : 0 < month)
    (h : daysBeforeMonth leap month + day < daysBeforeMonth leap (month + left + 1)) :
    month ≤ (monthOf leap month day left).1 ∧ (monthOf leap month day left).1 ≤ month + left ∧
      (monthOf leap month day left).2 < monthLength leap (monthOf leap month day left).1 ∧
      daysBeforeMonth leap (monthOf leap month day left).1 + (monthOf leap month day left).2 =
        daysBeforeMonth leap month + day := by
  induction left generalizing month day with
  | zero =>
      rw [Nat.add_zero, daysBeforeMonth_succ leap hmonth] at h
      exact ⟨Nat.le_refl _, Nat.le_refl _, Nat.lt_of_add_lt_add_left h, rfl⟩
  | succ left ih =>
      rw [monthOf]
      by_cases hday : day < monthLength leap month
      · rw [if_pos hday]
        exact ⟨Nat.le_refl _, Nat.le_add_right _ _, hday, rfl⟩
      · have hnext := daysBeforeMonth_succ leap hmonth
        have hend : month + (left + 1) + 1 = month + 1 + left + 1 := by omega
        rw [hend] at h
        rw [if_neg hday]
        obtain ⟨hleast, hmost, hlt, hsum⟩ :=
          @ih (month + 1) (day - monthLength leap month) (Nat.succ_pos _) (by omega)
        exact ⟨by omega, by omega, hlt, by omega⟩

/-! Dates. -/

theorem isDate_iff {year : ℤ} {month day : ℕ} :
    isDate year month day = true ↔
      1 ≤ month ∧ month ≤ 12 ∧ 1 ≤ day ∧ day ≤ monthLength (isLeap year) month := by
  simp [isDate, and_assoc]

/-- A day falls into a year. -/
def InYear (year n : ℤ) : Prop :=
  dayNumber year 1 1 ≤ n ∧ n < dayNumber (year + 1) 1 1

theorem dayNumber_first (year : ℤ) : dayNumber year 1 1 = daysBeforeYear year - epoch := by
  rw [dayNumber, daysBeforeMonth]
  omega

theorem inYear_iff {year n : ℤ} :
    InYear year n ↔ daysBeforeYear year ≤ n + epoch ∧
      n + epoch < daysBeforeYear year + yearLength (isLeap year) := by
  rw [InYear, dayNumber_first, dayNumber_first, daysBeforeYear_succ]
  omega

theorem InYear.unique {year other n : ℤ} (h : InYear year n) (hother : InYear other n) :
    year = other := by
  rw [InYear, dayNumber_first, dayNumber_first] at h hother
  rcases Int.lt_trichotomy year other with hlt | heq | hgt
  · have hmono := daysBeforeYear_mono (Int.add_one_le_of_lt hlt)
    omega
  · exact heq
  · have hmono := daysBeforeYear_mono (Int.add_one_le_of_lt hgt)
    omega

theorem year_dateOf (n : ℤ) : (dateOf n).year = (yearOf (n + epoch)).1 := by
  rcases hyearOf : yearOf (n + epoch) with ⟨year, day⟩
  rw [dateOf, hyearOf]

/-- The year of a date is the one that the day falls into. -/
theorem year_dateOf_eq_iff {year n : ℤ} : (dateOf n).year = year ↔ InYear year n := by
  have hyear : InYear (dateOf n).year n := by
    obtain ⟨hsum, hlt⟩ := yearOf_spec (n + epoch)
    rw [year_dateOf, inYear_iff]
    omega
  exact ⟨fun h => h ▸ hyear, hyear.unique⟩

/-- The date of a day exists, and has the number of the day. -/
theorem dateOf_spec (n : ℤ) :
    isDate (dateOf n).year (dateOf n).month (dateOf n).day = true ∧
      dayNumber (dateOf n).year (dateOf n).month (dateOf n).day = n := by
  rcases hyearOf : yearOf (n + epoch) with ⟨year, day⟩
  obtain ⟨hyear, hlt⟩ := yearOf_spec (n + epoch)
  simp only [hyearOf] at hyear hlt
  have hinside : daysBeforeMonth (isLeap year) 1 + day <
      daysBeforeMonth (isLeap year) (1 + 11 + 1) := by
    rw [daysBeforeMonth_end, daysBeforeMonth, Nat.zero_add]
    exact hlt
  obtain ⟨hleast, hmost, hday, hsum⟩ := monthOf_spec _ Nat.one_pos hinside
  rw [daysBeforeMonth, Nat.zero_add] at hsum
  have hdate : dateOf n = ⟨year, (monthOf (isLeap year) 1 day 11).1,
      (monthOf (isLeap year) 1 day 11).2 + 1⟩ := by
    rw [dateOf, hyearOf]
  rw [hdate]
  refine ⟨isDate_iff.mpr ⟨hleast, hmost, Nat.succ_pos _, hday⟩, ?_⟩
  simp only [dayNumber]
  omega

end Calendar

end FlatJson
