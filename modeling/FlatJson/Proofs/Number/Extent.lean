import FlatJson.Proofs.Number.Pattern

/-!
# How far a scan of a number comes

A scan that takes a literal off the front of a text comes to the end of that literal, and a
scan that fails comes to the place where a digit is missing (`Literal.extent`). The literal ends
before a byte that could not belong to a longer one (`Literal.EndsAt`). A digit is missing where
the beginning of a literal has come to a place at which a digit has to follow and none does
(`Literal.LacksDigitAt`). A sign is no such fault where it may still stand: at the very front,
and behind the mark of an exponent. With every text it is one or the other, and so a text is
taken as a number exactly if all of it is one literal.
-/

namespace FlatJson

open Ascii

namespace Literal

/-- How far a scan comes: the length of the literal that it takes, or the place of the digit
that it lacks. -/
def extent (text : Bytes) : Except ℕ ℕ :=
  match scan text with
  | .ok (l, _) => .ok l.text.length
  | .error left => .error (text.length - left.length)

/-- The first bytes of a text are a literal, and the byte behind them is none that a longer
literal could have there. -/
def EndsAt (text : Bytes) (n : ℕ) : Prop :=
  n ≤ text.length ∧ text.take n ∈ Pattern.number.matches' ∧ ∀ b ∈ text[n]?,
    isDigit b = false ∧ (text.take n ∈ Pattern.integral.matches' → b ≠ dot) ∧
      (text.take n ∈ Pattern.mantissa.matches' → isExponentMark b = false)

/-- A text is the beginning of a literal and ends where a digit has to follow: at the very
front, or behind a minus, a point, a mark or a sign. -/
def AwaitsDigit (text : Bytes) : Prop :=
  (∃ more, text ++ more ∈ Pattern.number.matches') ∧
    ∀ b ∈ text.getLast?, b = minus ∨ b = dot ∨ isExponentMark b = true ∨ b = plus

/-- The last byte of a text is the mark of an exponent. -/
def EndsInMark (text : Bytes) : Prop :=
  ∃ b ∈ text.getLast?, isExponentMark b = true

/-- Behind the first bytes of a text a digit has to follow and none does, nor the sign of an
exponent. -/
def LacksDigitAt (text : Bytes) (k : ℕ) : Prop :=
  k ≤ text.length ∧ AwaitsDigit (text.take k) ∧ ∀ b ∈ text[k]?,
    isDigit b = false ∧ (EndsInMark (text.take k) → b ≠ plus ∧ b ≠ minus)

theorem getElem?_append_length (p left : Bytes) : (p ++ left)[p.length]? = left.head? := by
  rw [List.getElem?_append_right (Nat.le_refl _), Nat.sub_self, List.head?_eq_getElem?]

/-- A place in a text cuts it into two. -/
theorem exists_append_of_le {text : Bytes} {n : ℕ} (h : n ≤ text.length) :
    ∃ p left, text = p ++ left ∧ p.length = n :=
  ⟨text.take n, text.drop n, (List.take_append_drop n text).symm, List.length_take_of_le h⟩

/-! A scan that takes a literal. -/

section Taken

variable {l : Literal} {text rest : Bytes} {n : ℕ}

theorem stops_nil (l : Literal) : l.Stops [] :=
  Scan.delimited_nil.stops l

theorem text_injective {l' : Literal} (hwell : l.WellFormed) (hwell' : l'.WellFormed)
    (h : l.text = l'.text) : l = l' :=
  Option.some.inj <| (ofText?_eq_some_iff.mpr ⟨hwell, rfl⟩).symm.trans
    (ofText?_eq_some_iff.mpr ⟨hwell', h⟩)

theorem text_mem_mantissa_iff (hwell : l.WellFormed) :
    l.text ∈ Pattern.mantissa.matches' ↔ l.exponent = none := by
  rw [Pattern.mem_mantissa_iff]
  constructor
  · rintro ⟨l', hwell', hexponent, htext⟩
    rwa [text_injective hwell hwell' htext]
  · exact fun h => ⟨l, hwell, h, rfl⟩

theorem text_mem_integral_iff (hwell : l.WellFormed) :
    l.text ∈ Pattern.integral.matches' ↔ l.exponent = none ∧ l.fraction = none := by
  rw [Pattern.mem_integral_iff]
  constructor
  · rintro ⟨l', hwell', hfraction, hexponent, htext⟩
    rw [text_injective hwell hwell' htext]
    exact ⟨hexponent, hfraction⟩
  · exact fun h => ⟨l, hwell, h.2, h.1, rfl⟩

/-- A literal at the front of a text ends there if it stops before what is left. -/
theorem endsAt_append_iff (hwell : l.WellFormed) :
    EndsAt (l.text ++ rest) l.text.length ↔ l.Stops rest := by
  have hlength : l.text.length ≤ (l.text ++ rest).length := by simp
  have hnumber : l.text ∈ Pattern.number.matches' := Pattern.mem_number_iff.mpr ⟨l, hwell, rfl⟩
  rw [EndsAt, List.take_left, getElem?_append_length, text_mem_mantissa_iff hwell,
    text_mem_integral_iff hwell]
  simp only [hlength, hnumber, true_and, Stops, NotAhead, beq_eq_false_iff_ne]
  constructor
  · intro h
    exact ⟨fun b hb => (h b hb).1, fun hexponent b hb => (h b hb).2.2 hexponent,
      fun hexponent hfraction b hb => (h b hb).2.1 ⟨hexponent, hfraction⟩⟩
  · intro h b hb
    exact ⟨h.1 b hb, fun hnone => h.2.2 hnone.1 hnone.2 b hb, fun hnone => h.2.1 hnone b hb⟩

theorem endsAt_iff : EndsAt text n ↔ ∃ l rest, scan text = .ok (l, rest) ∧ l.text.length = n := by
  constructor
  · intro h
    obtain ⟨p, rest, rfl, rfl⟩ := exists_append_of_le h.1
    have hnumber := h.2.1
    rw [List.take_left] at hnumber
    obtain ⟨l, hwell, rfl⟩ := Pattern.mem_number_iff.mp hnumber
    exact ⟨l, rest, scan_append hwell ((endsAt_append_iff hwell).mp h), rfl⟩
  · rintro ⟨l, rest, hscan, rfl⟩
    obtain ⟨hwell, rfl, hstops⟩ := scan_ok hscan
    exact (endsAt_append_iff hwell).mpr hstops

theorem extent_eq_ok_iff : extent text = .ok n ↔ EndsAt text n := by
  rw [endsAt_iff, extent]
  rcases scan text with left | ⟨l, rest⟩ <;> simp

end Taken

/-! A scan that fails. -/

section Missing

variable {l : Literal} {text p left : Bytes} {k : ℕ}

/-- The beginnings of literals that end where a digit has to follow, by the place at which they
end. -/
inductive Wanting : Bytes → Prop
  | whole (negative : Bool) : Wanting (signText negative)
  | fraction {l : Literal} : l.WellFormed → l.exponent = none → l.fraction = none →
      Wanting (l.text ++ [dot])
  | exponent {l : Literal} {mark : UInt8} {sign : Option UInt8} : l.WellFormed →
      l.exponent = none → isExponentMark mark = true → (∀ s ∈ sign, s = plus ∨ s = minus) →
      Wanting (l.text ++ mark :: sign.toList)

/-- Behind such a beginning a text goes on without a digit, and without a sign where one may
still stand. -/
def Breaks (p left : Bytes) : Prop :=
  NotAhead isDigit left ∧ (p = [] → NotAhead (· == minus) left) ∧
    (EndsInMark p → NotAhead (fun b => b == plus || b == minus) left)

theorem breaks_nil (p : Bytes) : Breaks p [] :=
  ⟨notAhead_nil _, fun _ => notAhead_nil _, fun _ => notAhead_nil _⟩

theorem isExponentMark_of_sign {s : UInt8} (h : s = plus ∨ s = minus) :
    isExponentMark s = false := by
  rcases h with rfl | rfl <;> decide

theorem endsInMark_append_singleton {b : UInt8} :
    EndsInMark (p ++ [b]) ↔ isExponentMark b = true := by
  simp [EndsInMark]

theorem endsInMark_append_pair {a b : UInt8} :
    EndsInMark (p ++ [a, b]) ↔ isExponentMark b = true := by
  simp [EndsInMark]

/-- A scan fails where a digit has to follow and none does. -/
theorem scan_wanting (h : Wanting p) (hbreaks : Breaks p left) :
    scan (p ++ left) = .error left := by
  obtain ⟨hdigit, hminus, hsign⟩ := hbreaks
  rw [scan_eq_error_iff]
  cases h with
  | whole negative =>
      rw [scanMinus_append fun hfalse => hminus (by rw [hfalse]; rfl)]
      exact .inl (scanDigits_eq_error_iff.mpr ⟨hdigit, rfl⟩)
  | @fraction l hwell hexponent hfraction =>
      rw [List.append_assoc, scanMinus_text hwell, hexponent, hfraction]
      refine .inr ⟨l.whole, _, scanDigits_append hwell.whole (notAhead_isDigit_dot left), .inl ?_⟩
      exact scanFraction_eq_error_iff.mpr ⟨hdigit, rfl⟩
  | @exponent l mark sign hwell hexponent hmark hsigns =>
      have hback : NotAhead isDigit (mark :: sign.toList ++ left) :=
        notAhead_cons.mpr (isDigit_of_isExponentMark hmark)
      have hnoDot : NotAhead (· == dot) (mark :: sign.toList ++ left) := by
        refine notAhead_cons.mpr (beq_eq_false_iff_ne.mpr ?_)
        rintro rfl
        exact absurd hmark (by decide)
      have hscan : scanSign (sign.toList ++ left) = (sign, left) := by
        refine scanSign_append hsigns fun hnone => hsign ?_
        rw [hnone]
        exact endsInMark_append_singleton.mpr hmark
      rw [List.append_assoc, scanMinus_text hwell, hexponent]
      refine .inr ⟨l.whole, _, scanDigits_append hwell.whole
        (@notAhead_isDigit_fraction l.fraction none _ (by simp) hback), .inr ⟨l.fraction, _,
          scanFraction_append (fun ds hds => ⟨hwell.fraction ds hds, hback⟩) fun _ => hnoDot, ?_⟩⟩
      exact scanExponent_eq_error_iff.mpr ⟨hdigit, mark, _, sign, rfl, hmark, hscan⟩

/-- Where a scan fails, a digit has to follow and none does. -/
theorem exists_wanting_of_scan_error (h : scan text = .error left) :
    ∃ p, Wanting p ∧ text = p ++ left ∧ Breaks p left := by
  rcases hm : scanMinus text with ⟨negative, r₁⟩
  have htext := scanMinus_eq hm
  rw [scan_eq_error_iff, hm] at h
  rcases h with hd | ⟨ds, r₂, hd, hf | ⟨fraction, r₃, hf, he⟩⟩
  · obtain ⟨hdigit, rfl⟩ := scanDigits_eq_error_iff.mp hd
    refine ⟨signText negative, .whole negative, htext, hdigit, fun hnil => ?_, fun hmark => ?_⟩
    · cases negative with
      | true => cases hnil
      | false => exact notAhead_of_scanMinus hm
    · obtain ⟨b, hb, hmark⟩ := hmark
      cases negative with
      | true => cases hb; cases hmark
      | false => cases hb
  · obtain ⟨hds, rfl, -⟩ := scanDigits_ok hd
    obtain ⟨hdigit, rfl⟩ := scanFraction_eq_error_iff.mp hf
    refine ⟨_, .fraction (l := ⟨negative, ds, none, none⟩)
      ⟨hds, by simp, by simp, by simp, by simp⟩ rfl rfl, ?_, hdigit, by simp, fun hmark => ?_⟩
    · rw [htext, text_of_isInteger rfl]
      simp
    · cases endsInMark_append_singleton.mp hmark
  · obtain ⟨hds, rfl, -⟩ := scanDigits_ok hd
    obtain ⟨rfl, hfraction, -⟩ := scanFraction_ok hf
    obtain ⟨hdigit, mark, rest, sign, rfl, hmark, hs⟩ := scanExponent_eq_error_iff.mp he
    obtain ⟨rfl, hsign⟩ := scanSign_eq hs
    refine ⟨_, .exponent (l := ⟨negative, ds, fraction, none⟩)
      ⟨hds, fun ds hds => (hfraction ds hds).1, by simp, by simp, by simp⟩ rfl hmark hsign, ?_,
      hdigit, by simp, fun hmark => ?_⟩
    · rw [htext, text_eq]
      simp [exponentText]
    · cases sign with
      | none => exact notAhead_of_scanSign hs
      | some s =>
          have hs : isExponentMark s = true := endsInMark_append_pair.mp hmark
          rw [isExponentMark_of_sign (hsign s rfl)] at hs
          cases hs

/-- A literal ends with a run of digits. -/
theorem exists_text_eq_append (hwell : l.WellFormed) :
    ∃ front ds, IsDigits ds ∧ l.text = front ++ ds := by
  rw [text_eq]
  cases hexponent : l.exponent with
  | some e =>
      refine ⟨signText l.negative ++ (l.whole ++ (fractionText l.fraction ++
        e.mark :: e.sign.toList)), e.digits, hwell.digits e hexponent, ?_⟩
      simp [exponentText, Exponent.text]
  | none =>
      cases hfraction : l.fraction with
      | some ds =>
          refine ⟨signText l.negative ++ (l.whole ++ [dot]), ds, hwell.fraction ds hfraction, ?_⟩
          simp [fractionText, exponentText]
      | none =>
          refine ⟨signText l.negative, l.whole, hwell.whole, ?_⟩
          simp [fractionText, exponentText]

theorem exists_digit_getLast? (hwell : l.WellFormed) :
    ∃ b ∈ l.text.getLast?, isDigit b = true := by
  obtain ⟨front, ds, hds, htext⟩ := exists_text_eq_append hwell
  refine ⟨ds.getLast hds.1, ?_, hds.2 _ (List.getLast_mem hds.1)⟩
  rw [htext, List.getLast?_append_of_ne_nil front hds.1]
  exact List.getLast?_eq_getLast_of_ne_nil hds.1

/-- The bytes behind which a digit has to follow are no digits. -/
theorem isDigit_of_awaited {b : UInt8}
    (h : b = minus ∨ b = dot ∨ isExponentMark b = true ∨ b = plus) : isDigit b = false := by
  rcases h with rfl | rfl | hmark | rfl
  · decide
  · decide
  · exact isDigit_of_isExponentMark hmark
  · decide

theorem Wanting.getLast? (h : Wanting p) :
    ∀ b ∈ p.getLast?, b = minus ∨ b = dot ∨ isExponentMark b = true ∨ b = plus := by
  cases h with
  | whole negative => cases negative <;> simp [signText]
  | fraction => simp
  | @exponent l mark sign _ _ hmark hsign =>
      cases sign with
      | none => simp [hmark]
      | some s => rcases hsign s rfl with rfl | rfl <;> simp

/-- The texts that are the beginning of a literal and end where a digit has to follow. -/
theorem awaitsDigit_iff : AwaitsDigit p ↔ Wanting p := by
  constructor
  · rintro ⟨⟨more, hnumber⟩, hlast⟩
    obtain ⟨l, hwell, htext⟩ := Pattern.mem_number_iff.mp hnumber
    have hwhole : scan (p ++ more) = .ok (l, []) := by
      have hscan := scan_append hwell (stops_nil l)
      rwa [List.append_nil, ← htext] at hscan
    -- A scan of the beginning either fails at its end, or it would not go on as that of the
    -- literal does.
    rcases hscan : scan p with left | ⟨l', rest⟩
    · cases left with
      | nil =>
          obtain ⟨q, hq, hsplit, -⟩ := exists_wanting_of_scan_error hscan
          rw [hsplit, List.append_nil]
          exact hq
      | cons b left =>
          rw [scan_error_extend hscan (List.cons_ne_nil b left)] at hwhole
          cases hwhole
    · cases rest with
      | nil =>
          obtain ⟨hwell', hsplit, -⟩ := scan_ok hscan
          obtain ⟨b, hb, hdigit⟩ := exists_digit_getLast? hwell'
          rw [hsplit, List.append_nil] at hlast
          rw [isDigit_of_awaited (hlast b hb)] at hdigit
          cases hdigit
      | cons b rest =>
          rw [scan_extend hscan (List.cons_ne_nil b rest)] at hwhole
          cases hwhole
  · intro h
    have hscan := scan_wanting h (breaks_nil p)
    rw [List.append_nil] at hscan
    obtain ⟨l, hwell, htext⟩ := exists_literal_of_scan_error hscan
    exact ⟨⟨[zero], Pattern.mem_number_iff.mpr ⟨l, hwell, htext.symm⟩⟩, h.getLast?⟩

/-- A text lacks a digit behind a beginning where it breaks, and there alone, if it is not a
minus at the very front. -/
theorem lacksDigitAt_append_iff :
    (LacksDigitAt (p ++ left) p.length ∧ ¬(p.length = 0 ∧ (p ++ left).head? = some minus)) ↔
      Wanting p ∧ Breaks p left := by
  have hlength : p.length ≤ (p ++ left).length := by simp
  rw [LacksDigitAt, List.take_left, getElem?_append_length, awaitsDigit_iff, Breaks,
    List.length_eq_zero_iff]
  simp only [hlength, true_and, NotAhead, Bool.or_eq_false_iff, beq_eq_false_iff_ne]
  constructor
  · rintro ⟨⟨hwanting, hbreaks⟩, hfront⟩
    refine ⟨hwanting, fun b hb => (hbreaks b hb).1, ?_, fun hmark b hb => (hbreaks b hb).2 hmark⟩
    rintro rfl b hb rfl
    exact hfront ⟨rfl, hb⟩
  · rintro ⟨hwanting, hdigit, hminus, hsign⟩
    refine ⟨⟨hwanting, fun b hb => ⟨hdigit b hb, fun hmark => hsign hmark b hb⟩⟩, ?_⟩
    rintro ⟨rfl, hhead⟩
    exact hminus rfl minus hhead rfl

theorem extent_of_error (h : scan text = .error left) :
    extent text = .error (text.length - left.length) := by
  rw [extent, h]

theorem extent_eq_error_iff : extent text = .error k ↔
    LacksDigitAt text k ∧ ¬(k = 0 ∧ text.head? = some minus) := by
  constructor
  · intro h
    rcases hscan : scan text with left | ⟨l, rest⟩
    · obtain ⟨p, hwanting, rfl, hbreaks⟩ := exists_wanting_of_scan_error hscan
      rw [extent_of_error hscan, List.length_append, Nat.add_sub_cancel] at h
      cases h
      exact lacksDigitAt_append_iff.mpr ⟨hwanting, hbreaks⟩
    · rw [extent, hscan] at h
      cases h
  · intro h
    obtain ⟨p, left, rfl, rfl⟩ := exists_append_of_le h.1.1
    obtain ⟨hwanting, hbreaks⟩ := lacksDigitAt_append_iff.mp h
    rw [extent_of_error (scan_wanting hwanting hbreaks), List.length_append, Nat.add_sub_cancel]

end Missing

/-- A scan takes a literal exactly if the text begins with one that ends there, and it fails at a
place exactly if a digit is missing there, save for the very front, where a minus may stand as
well. With every text it is one or the other, and a text is taken as a number exactly if all of it
matches the pattern of one. -/
theorem extent_exact (text : Bytes) :
    (∀ n, extent text = .ok n ↔ EndsAt text n) ∧
    (∀ k, extent text = .error k ↔
      LacksDigitAt text k ∧ ¬(k = 0 ∧ text.head? = some minus)) ∧
    ((∃ n, EndsAt text n) ∨ ∃ k, LacksDigitAt text k ∧ ¬(k = 0 ∧ text.head? = some minus)) ∧
    ∀ offset, (∃ l, Scalar.literal text offset = .ok l) ↔ text ∈ Pattern.number.matches' := by
  refine ⟨fun n => extent_eq_ok_iff, fun k => extent_eq_error_iff, ?_, fun offset => ?_⟩
  · rcases hextent : extent text with k | n
    · exact .inr ⟨k, extent_eq_error_iff.mp hextent⟩
    · exact .inl ⟨n, extent_eq_ok_iff.mp hextent⟩
  · rw [Pattern.mem_number_iff]
    constructor
    · rintro ⟨l, h⟩
      by_contra hnumber
      by_cases hhex : BeginsHexadecimal text
      · rw [Scalar.literal_of_beginsHexadecimal hhex] at h
        cases h
      · rw [Scalar.literal_of_not_isNumber hhex hnumber] at h
        cases h
    · rintro ⟨l, hwell, rfl⟩
      exact ⟨l, Scalar.literal_numeral ⟨l, hwell⟩ offset⟩

/-- A scan of `1.e5` is bound to a fraction by the point, and lacks its digit. -/
example : extent [0x31, 0x2E, 0x65, 0x35] = .error 2 := rfl

/-- At the very front of a single minus a digit has to follow and none does, and still that is not
the place a scan comes to: it goes on behind the minus. -/
theorem extent_minus : extent [minus] = .error 1 ∧
    ¬(extent [minus] = .error 0 ↔ LacksDigitAt [minus] 0) := by
  have hextent : extent [minus] = .error 1 := rfl
  have hlacks : LacksDigitAt [minus] 0 := by
    refine ⟨Nat.zero_le _, awaitsDigit_iff.mpr (.whole false), ?_⟩
    rintro b ⟨⟩
    exact ⟨by decide, fun ⟨c, hc, _⟩ => by cases hc⟩
  refine ⟨hextent, fun h => ?_⟩
  have herror := h.mpr hlacks
  rw [hextent] at herror
  cases herror

end Literal

end FlatJson
