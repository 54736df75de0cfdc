import FlatJson.Catalog.Instant
import FlatJson.Proofs.Catalog.Calendar
import FlatJson.Proofs.Number.Digits
import FlatJson.Proofs.Number.Scan

/-!
# What a clock shows, written and read

What a clock shows can be read again if its year has four digits
(`ClockTime.scan?_text`); a year with a sign in front is refused
(`ClockTime.scan?_text_eq_none`). What is read says of the seconds since 1970 what the clock
was set to, unless a leap second is shown in the midst of a minute, as on a clock that is not
off by whole minutes (`ClockTime.toSeconds_ofSeconds`).
-/

namespace FlatJson

open Ascii

/-- A number below a power of ten is padded to as many digits as the power has zeros. -/
theorem Ascii.length_padded_of_lt {width n : ℕ} (hwidth : 0 < width) (h : n < 10 ^ width) :
    (padded width n).length = width := by
  rw [length_padded, max_eq_left (length_digits_le hwidth h)]

namespace ClockTime

/-! The parts of a text. -/

theorem scanNumber?_append {ds : Bytes} (h : ∀ b ∈ ds, isDigit b = true) (rest : Bytes) :
    scanNumber? ds.length (ds ++ rest) = some (numeral ds, rest) := by
  rw [scanNumber?, List.take_left, List.drop_left]
  exact if_pos (by simpa using h)

theorem scanNumber?_padded {width n : ℕ} (hwidth : 0 < width) (h : n < 10 ^ width)
    (rest : Bytes) : scanNumber? width (padded width n ++ rest) = some (n, rest) := by
  have hscan := scanNumber?_append (isDigits_padded width n).2 rest
  rwa [length_padded_of_lt hwidth h, numeral_padded] at hscan

/-- No number begins with another byte than a digit. -/
theorem scanNumber?_cons {b : UInt8} (h : isDigit b = false) (width : ℕ) (rest : Bytes) :
    scanNumber? (width + 1) (b :: rest) = none := by
  simp [scanNumber?, h]

theorem scanMark?_cons {marks : Bytes} {b : UInt8} (h : b ∈ marks) (rest : Bytes) :
    scanMark? marks (b :: rest) = some rest := by
  rw [scanMark?, if_pos (List.contains_iff_mem.mpr h)]

/-- A fraction of nine digits at most is read as its nanoseconds. -/
theorem scanFraction?_cons {ds rest : Bytes} (hds : IsDigits ds) (hshort : ds.length ≤ 9)
    (hrest : NotAhead isDigit rest) :
    scanFraction? (dot :: (ds ++ rest)) = some (numeral ds * 10 ^ (9 - ds.length), rest) := by
  have htake : (ds ++ rest).takeWhile isDigit = ds := by
    rw [List.takeWhile_append_of_pos hds.2, takeWhile_of_notAhead hrest, List.append_nil]
  have hdrop : (ds ++ rest).dropWhile isDigit = rest := by
    rw [List.dropWhile_append_of_pos hds.2, dropWhile_of_notAhead hrest]
  obtain ⟨d, tail, rfl, -⟩ := hds.exists_cons
  rw [scanFraction?, scanMark?_cons (List.mem_singleton_self dot)]
  simp only [htake, hdrop]
  rw [List.take_of_length_le hshort]
  rfl

theorem scanFraction?_padded {width n : ℕ} (hwidth : 0 < width) (hshort : width ≤ 9)
    (hn : n < 10 ^ width) {rest : Bytes} (hrest : NotAhead isDigit rest) :
    scanFraction? (dot :: padded width n ++ rest) = some (n * 10 ^ (9 - width), rest) := by
  have hlength := length_padded_of_lt hwidth hn
  have hscan := scanFraction?_cons (isDigits_padded width n) (hlength.trans_le hshort) hrest
  rwa [hlength, numeral_padded] at hscan

theorem scanFraction?_of_notAhead {rest : Bytes} (h : NotAhead (· == dot) rest) :
    scanFraction? rest = some (0, rest) := by
  cases rest with
  | nil => rfl
  | cons b rest =>
      have hb : (b == dot) = false := h b rfl
      simp [scanFraction?, scanMark?, beq_eq_false_iff_ne.mp hb]

theorem scanFraction?_text {nanos : ℕ} (h : nanos < 10 ^ 9) {rest : Bytes}
    (hdigit : NotAhead isDigit rest) (hdot : NotAhead (· == dot) rest) :
    scanFraction? (fractionText nanos ++ rest) = some (nanos, rest) := by
  unfold fractionText
  split
  · next hzero => rw [List.nil_append, scanFraction?_of_notAhead hdot, hzero]
  split
  · next hmillis =>
      have hn : nanos / 1000000 < 10 ^ 3 := by omega
      rw [scanFraction?_padded (by decide) (by decide) hn hdigit]
      exact congrArg (fun n => some (n, rest))
        (Nat.div_mul_cancel (Nat.dvd_of_mod_eq_zero hmillis))
  split
  · next hmicros =>
      have hn : nanos / 1000 < 10 ^ 6 := by omega
      rw [scanFraction?_padded (by decide) (by decide) hn hdigit]
      exact congrArg (fun n => some (n, rest))
        (Nat.div_mul_cancel (Nat.dvd_of_mod_eq_zero hmicros))
  · rw [scanFraction?_padded (by decide) (by decide) h hdigit]
    exact congrArg (fun n => some (n, rest)) (Nat.mul_one nanos)

/-! Years. -/

theorem scanNumber?_yearText {year : ℤ} (h : 0 ≤ year ∧ year ≤ 9999) (rest : Bytes) :
    scanNumber? 4 (yearText year ++ rest) = some (year.natAbs, rest) := by
  have hsmall : year.natAbs < 10 ^ 4 := by omega
  rw [yearText, if_pos h, scanNumber?_padded (by decide) hsmall]

/-- Any other year has a sign in front. -/
theorem scanNumber?_yearText_eq_none {year : ℤ} (h : ¬(0 ≤ year ∧ year ≤ 9999)) (rest : Bytes) :
    scanNumber? 4 (yearText year ++ rest) = none := by
  rw [yearText, if_neg h, List.cons_append, scanNumber?_cons]
  split <;> decide

/-! All of a clock. -/

/-- What a clock may show of a day, and a leap second besides. -/
structure Shows (c : ClockTime) : Prop where
  date : Calendar.isDate c.date.year c.date.month c.date.day = true
  hour : c.hour ≤ 23
  minute : c.minute ≤ 59
  second : c.second ≤ 60
  nanos : c.nanos < Instant.perSecond

section Text

variable {c : ClockTime} {rest : Bytes}

theorem text_append (c : ClockTime) (rest : Bytes) :
    c.text ++ rest = yearText c.date.year ++ (minus :: (padded 2 c.date.month ++
      minus :: (padded 2 c.date.day ++ 0x54 :: (padded 2 c.hour ++ colon :: (padded 2 c.minute ++
        colon :: (padded 2 c.second ++ (fractionText c.nanos ++ rest))))))) := by
  simp only [text, List.append_assoc, List.cons_append]

theorem scan?_text_eq_none (hyear : ¬(0 ≤ c.date.year ∧ c.date.year ≤ 9999)) :
    scan? (c.text ++ rest) = none := by
  rw [text_append, scan?, scanNumber?_yearText_eq_none hyear]
  rfl

theorem bind_of_eq_some {α β : Type} {outcome : Option α} {x : α} (h : outcome = some x)
    (next : α → Option β) : (outcome >>= next) = next x := by
  rw [h]
  rfl

theorem scan?_text (h : c.Shows) (hyear : 0 ≤ c.date.year ∧ c.date.year ≤ 9999)
    (hdigit : NotAhead isDigit rest) (hdot : NotAhead (· == dot) rest) :
    scan? (c.text ++ rest) = some (c, rest) := by
  obtain ⟨hdate, hhour, hminute, hsecond, hnanos⟩ := h
  obtain ⟨-, hmonth, -, hday⟩ := Calendar.isDate_iff.mp hdate
  replace hday := hday.trans (Calendar.monthLength_le _ _)
  have htwo {n : ℕ} (hn : n < 100) (rest : Bytes) :
      scanNumber? 2 (padded 2 n ++ rest) = some (n, rest) :=
    scanNumber?_padded (by decide) hn rest
  have hnatAbs : (c.date.year.natAbs : ℤ) = c.date.year := Int.natAbs_of_nonneg hyear.1
  have hmarks : minus ∈ [minus] ∧ (0x54 : UInt8) ∈ [0x54, 0x74, 0x20] ∧ colon ∈ [colon] := by
    decide
  have hkept : (Calendar.isDate c.date.year c.date.month c.date.day && c.hour ≤ 23 &&
      c.minute ≤ 59 && c.second ≤ 60) = true := by
    simp [hdate, hhour, hminute, hsecond]
  rw [text_append, scan?]
  refine (bind_of_eq_some (scanNumber?_yearText hyear _) _).trans ?_
  refine (bind_of_eq_some (scanMark?_cons hmarks.1 _) _).trans ?_
  refine (bind_of_eq_some (htwo (hmonth.trans_lt (by decide)) _) _).trans ?_
  refine (bind_of_eq_some (scanMark?_cons hmarks.1 _) _).trans ?_
  refine (bind_of_eq_some (htwo (hday.trans_lt (by decide)) _) _).trans ?_
  refine (bind_of_eq_some (scanMark?_cons hmarks.2.1 _) _).trans ?_
  refine (bind_of_eq_some (htwo (hhour.trans_lt (by decide)) _) _).trans ?_
  refine (bind_of_eq_some (scanMark?_cons hmarks.2.2 _) _).trans ?_
  refine (bind_of_eq_some (htwo (hminute.trans_lt (by decide)) _) _).trans ?_
  refine (bind_of_eq_some (scanMark?_cons hmarks.2.2 _) _).trans ?_
  refine (bind_of_eq_some (htwo (hsecond.trans_lt (by decide)) _) _).trans ?_
  refine (bind_of_eq_some (scanFraction?_text hnanos hdigit hdot) _).trans ?_
  rw [hnatAbs]
  exact if_pos hkept

/-! Seconds. -/

/-- A clock that is set to an ordinary second. -/
theorem ofSeconds_of_lt (seconds : ℤ) {nanos : ℕ} (h : nanos < Instant.perSecond) :
    ofSeconds seconds nanos =
      ⟨Calendar.dateOf (seconds / 86400), (seconds % 86400).toNat / 3600,
        (seconds % 86400).toNat / 60 % 60, (seconds % 86400).toNat % 60, nanos⟩ := by
  simp only [ofSeconds, if_neg (Nat.not_le.mpr h)]
  rfl

/-- A clock that is set to a leap second, one second later. -/
theorem ofSeconds_of_le (seconds : ℤ) {nanos : ℕ} (h : Instant.perSecond ≤ nanos) :
    ofSeconds seconds nanos =
      ⟨Calendar.dateOf (seconds / 86400), (seconds % 86400).toNat / 3600,
        (seconds % 86400).toNat / 60 % 60, (seconds % 86400).toNat % 60 + 1,
        nanos - Instant.perSecond⟩ := by
  simp only [ofSeconds, if_pos h]
  rfl

/-- A clock shows what there is of a day. -/
theorem shows_ofSeconds (seconds : ℤ) {nanos : ℕ} (h : nanos < 2 * Instant.perSecond) :
    (ofSeconds seconds nanos).Shows := by
  have hdate := (Calendar.dateOf_spec (seconds / 86400)).1
  rcases Nat.lt_or_ge nanos Instant.perSecond with hlt | hge
  · rw [ofSeconds_of_lt seconds hlt]
    exact ⟨hdate, by simp only; omega, by simp only; omega, by simp only; omega, hlt⟩
  · rw [ofSeconds_of_le seconds hge]
    exact ⟨hdate, by simp only; omega, by simp only; omega, by simp only; omega,
      by simp only; omega⟩

/-- The seconds are those that the clock was set to, where a leap second is shown as the
sixtieth second of a minute. Elsewhere it is shown as the second after the one that it
belongs to. -/
theorem toSeconds_ofSeconds (seconds : ℤ) (nanos : ℕ) :
    (ofSeconds seconds nanos).toSeconds =
      if Instant.perSecond ≤ nanos ∧ seconds % 60 ≠ 59 then
        (seconds + 1, nanos - Instant.perSecond)
      else (seconds, nanos) := by
  have hnumber := (Calendar.dateOf_spec (seconds / 86400)).2
  rcases Nat.lt_or_ge nanos Instant.perSecond with hlt | hge
  · rw [ofSeconds_of_lt seconds hlt, if_neg fun h => Nat.not_le.mpr hlt h.1, toSeconds]
    simp only [hnumber]
    rw [if_neg (by omega)]
    simp only [Prod.mk.injEq, and_true]
    omega
  · rw [ofSeconds_of_le seconds hge, toSeconds]
    simp only [hnumber]
    by_cases hsixtieth : seconds % 60 = 59
    · rw [if_pos (by omega), if_neg fun h => h.2 hsixtieth, Nat.sub_add_cancel hge]
      simp only [Prod.mk.injEq, and_true]
      omega
    · rw [if_neg (by omega), if_pos ⟨hge, hsixtieth⟩]
      simp only [Prod.mk.injEq, and_true]
      omega

end Text

end ClockTime

end FlatJson
