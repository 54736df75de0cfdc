import FlatJson.Proofs.Grammar
import Mathlib.Data.List.TakeWhile

/-!
# Scanning number literals

A scan takes a number literal off the front of a text, and it takes the longest
one: what is left does not go on with a digit, nor with a point or a mark where
the literal could still have had a fraction or an exponent (`Literal.Stops`).
Every reader of a part has two lemmas, one for what it found when it succeeds
and one for a text with that part at its front. `Literal.scan_eq_ok_iff` puts
them together.
-/

namespace FlatJson

open Ascii

namespace Ascii

theorem notAhead_nil (p : UInt8 → Bool) : NotAhead p [] := by
  intro b hb
  cases hb

theorem notAhead_cons {p : UInt8 → Bool} {b : UInt8} {bs : Bytes} :
    NotAhead p (b :: bs) ↔ p b = false := by
  simp [NotAhead]

theorem notAhead_dropWhile (p : UInt8 → Bool) (bs : Bytes) : NotAhead p (bs.dropWhile p) := by
  induction bs with
  | nil => exact notAhead_nil p
  | cons b bs ih =>
      by_cases hb : p b = true
      · rw [List.dropWhile_cons_of_pos hb]
        exact ih
      · rw [List.dropWhile_cons_of_neg hb, notAhead_cons]
        exact Bool.eq_false_iff.mpr hb

theorem NotAhead.append {p : UInt8 → Bool} {bs : Bytes} (h : NotAhead p bs) (hne : bs ≠ [])
    (more : Bytes) : NotAhead p (bs ++ more) := by
  obtain ⟨b, bs, rfl⟩ := List.exists_cons_of_ne_nil hne
  exact notAhead_cons.mpr (notAhead_cons.mp h)

theorem dropWhile_of_notAhead {p : UInt8 → Bool} {bs : Bytes} (h : NotAhead p bs) :
    bs.dropWhile p = bs := by
  cases bs with
  | nil => rfl
  | cons b bs =>
      rw [notAhead_cons] at h
      exact List.dropWhile_cons_of_neg (Bool.eq_false_iff.mp h)

theorem takeWhile_of_notAhead {p : UInt8 → Bool} {bs : Bytes} (h : NotAhead p bs) :
    bs.takeWhile p = [] := by
  cases bs with
  | nil => rfl
  | cons b bs =>
      rw [notAhead_cons] at h
      exact List.takeWhile_cons_of_neg (Bool.eq_false_iff.mp h)

theorem notAhead_isDigit_dot (bs : Bytes) : NotAhead isDigit (dot :: bs) :=
  notAhead_cons.mpr (by decide)

theorem isDigit_of_isExponentMark {b : UInt8} (h : isExponentMark b = true) :
    isDigit b = false := by
  simp only [isExponentMark, Bool.or_eq_true, beq_iff_eq] at h
  rcases h with rfl | rfl <;> decide

/-- A run of digits begins with one. -/
theorem IsDigits.exists_cons {ds : Bytes} (h : IsDigits ds) :
    ∃ d rest, ds = d :: rest ∧ isDigit d = true := by
  obtain ⟨d, rest, rfl⟩ := List.exists_cons_of_ne_nil h.1
  exact ⟨d, rest, rfl, h.2 d List.mem_cons_self⟩

end Ascii

namespace Literal

/-- A literal ends before a text: no byte at the front of the text could belong
to a longer literal. -/
def Stops (l : Literal) (rest : Bytes) : Prop :=
  NotAhead isDigit rest ∧ (l.exponent = none → NotAhead isExponentMark rest) ∧
    (l.exponent = none → l.fraction = none → NotAhead (· == dot) rest)

/-- The text of a minus, where there is one. -/
def signText (negative : Bool) : Bytes :=
  if negative then [minus] else []

/-- The text of a fraction, where there is one. -/
def fractionText (fraction : Option Bytes) : Bytes :=
  fraction.elim [] fun ds => dot :: ds

/-- The text of an exponent, where there is one. -/
def exponentText (exponent : Option Exponent) : Bytes :=
  exponent.elim [] Exponent.text

theorem text_eq (l : Literal) :
    l.text = signText l.negative ++
      (l.whole ++ (fractionText l.fraction ++ exponentText l.exponent)) := by
  simp [text, signText, fractionText, exponentText, List.append_assoc]

theorem scanDigits_ok {bs ds rest : Bytes} (h : scanDigits bs = .ok (ds, rest)) :
    IsDigits ds ∧ bs = ds ++ rest ∧ NotAhead isDigit rest := by
  unfold scanDigits at h
  split at h
  · cases h
  · next hne =>
      cases h
      refine ⟨⟨hne, fun b hb => List.mem_takeWhile_imp hb⟩, ?_, notAhead_dropWhile isDigit bs⟩
      exact List.takeWhile_append_dropWhile.symm

theorem scanDigits_append {ds rest : Bytes} (hds : IsDigits ds) (hrest : NotAhead isDigit rest) :
    scanDigits (ds ++ rest) = .ok (ds, rest) := by
  unfold scanDigits
  rw [List.takeWhile_append_of_pos hds.2, List.dropWhile_append_of_pos hds.2,
    takeWhile_of_notAhead hrest, dropWhile_of_notAhead hrest, List.append_nil]
  obtain ⟨d, ds, rfl, -⟩ := hds.exists_cons
  rfl

theorem scanMinus_eq {bs rest : Bytes} {negative : Bool} (h : scanMinus bs = (negative, rest)) :
    bs = signText negative ++ rest := by
  unfold scanMinus at h
  split at h
  · cases h; rfl
  · next b bs =>
      split at h
      · next hb => cases h; rw [beq_iff_eq] at hb; subst hb; rfl
      · cases h; rfl

theorem notAhead_of_scanMinus {bs rest : Bytes} (h : scanMinus bs = (false, rest)) :
    NotAhead (· == minus) rest := by
  unfold scanMinus at h
  split at h
  · cases h
    exact notAhead_nil _
  · split at h
    · cases h
    · next hb =>
        cases h
        exact notAhead_cons.mpr (Bool.eq_false_iff.mpr hb)

theorem scanMinus_append {rest : Bytes} {negative : Bool}
    (hfalse : negative = false → NotAhead (· == minus) rest) :
    scanMinus (signText negative ++ rest) = (negative, rest) := by
  cases negative with
  | true => rfl
  | false =>
      have hrest := hfalse rfl
      cases rest with
      | nil => rfl
      | cons b rest =>
          rw [notAhead_cons] at hrest
          simp [signText, scanMinus, hrest]

theorem scanSign_eq {bs rest : Bytes} {sign : Option UInt8} (h : scanSign bs = (sign, rest)) :
    bs = sign.toList ++ rest ∧ ∀ s ∈ sign, s = plus ∨ s = minus := by
  unfold scanSign at h
  split at h
  · cases h; simp
  · next b bs =>
      split at h
      · next hb =>
          cases h
          refine ⟨rfl, ?_⟩
          rintro s ⟨⟩
          simpa using hb
      · cases h; simp

theorem notAhead_of_scanSign {bs rest : Bytes} (h : scanSign bs = (none, rest)) :
    NotAhead (fun b => b == plus || b == minus) rest := by
  unfold scanSign at h
  split at h
  · cases h
    exact notAhead_nil _
  · split at h
    · cases h
    · next hb =>
        cases h
        exact notAhead_cons.mpr (Bool.eq_false_iff.mpr hb)

theorem scanSign_append {sign : Option UInt8} {rest : Bytes}
    (hsome : ∀ s ∈ sign, s = plus ∨ s = minus)
    (hnone : sign = none → NotAhead (fun b => b == plus || b == minus) rest) :
    scanSign (sign.toList ++ rest) = (sign, rest) := by
  cases sign with
  | some s =>
      have hs := hsome s rfl
      simp [scanSign, hs]
  | none =>
      have hrest := hnone rfl
      cases rest with
      | nil => rfl
      | cons b rest =>
          rw [notAhead_cons] at hrest
          simp only [Option.toList_none, List.nil_append, scanSign, hrest]
          rfl

theorem scanFraction_ok {bs rest : Bytes} {fraction : Option Bytes}
    (h : scanFraction bs = .ok (fraction, rest)) :
    bs = fractionText fraction ++ rest ∧
      (∀ ds ∈ fraction, IsDigits ds ∧ NotAhead isDigit rest) ∧
      (fraction = none → NotAhead (· == dot) rest) := by
  unfold scanFraction at h
  split at h
  · cases h
    exact ⟨rfl, by simp, fun _ => notAhead_nil _⟩
  · next b bs =>
      split at h
      · next hb =>
          split at h
          · next ds left hscan =>
              cases h
              obtain ⟨hds, rfl, hleft⟩ := scanDigits_ok hscan
              rw [beq_iff_eq] at hb
              subst hb
              exact ⟨rfl, by simpa using ⟨hds, hleft⟩, by simp⟩
          · cases h
      · next hb =>
          cases h
          exact ⟨rfl, by simp, fun _ => notAhead_cons.mpr (Bool.eq_false_iff.mpr hb)⟩

theorem scanFraction_append {fraction : Option Bytes} {rest : Bytes}
    (hsome : ∀ ds ∈ fraction, IsDigits ds ∧ NotAhead isDigit rest)
    (hnone : fraction = none → NotAhead (· == dot) rest) :
    scanFraction (fractionText fraction ++ rest) = .ok (fraction, rest) := by
  cases fraction with
  | some ds =>
      obtain ⟨hds, hrest⟩ := hsome ds rfl
      simp [fractionText, scanFraction, scanDigits_append hds hrest]
  | none =>
      have hrest := hnone rfl
      cases rest with
      | nil => rfl
      | cons b rest =>
          rw [notAhead_cons] at hrest
          simp only [fractionText, Option.elim_none, List.nil_append, scanFraction, hrest]
          rfl

theorem scanExponent_ok {bs rest : Bytes} {exponent : Option Exponent}
    (h : scanExponent bs = .ok (exponent, rest)) :
    bs = exponentText exponent ++ rest ∧
      (∀ e ∈ exponent, isExponentMark e.mark = true ∧ (∀ s ∈ e.sign, s = plus ∨ s = minus) ∧
        IsDigits e.digits ∧ NotAhead isDigit rest) ∧
      (exponent = none → NotAhead isExponentMark rest) := by
  unfold scanExponent at h
  split at h
  · cases h
    exact ⟨rfl, by simp, fun _ => notAhead_nil _⟩
  · next b bs =>
      split at h
      · next hb =>
          split at h
          next sign left hs =>
          obtain ⟨rfl, hsign⟩ := scanSign_eq hs
          split at h
          · next ds rest hscan =>
              cases h
              obtain ⟨hds, rfl, hrest⟩ := scanDigits_ok hscan
              refine ⟨?_, by simpa using ⟨hb, hsign, hds, hrest⟩, by simp⟩
              simp [exponentText, Exponent.text]
          · cases h
      · next hb =>
          cases h
          exact ⟨rfl, by simp, fun _ => notAhead_cons.mpr (Bool.eq_false_iff.mpr hb)⟩

/-- Digits do not begin with a sign. -/
theorem notAhead_sign_of_isDigits {ds rest : Bytes} (h : IsDigits ds) :
    NotAhead (fun b => b == plus || b == minus) (ds ++ rest) := by
  obtain ⟨d, ds, rfl, hd⟩ := h.exists_cons
  rw [List.cons_append, notAhead_cons, Bool.or_eq_false_iff, beq_eq_false_iff_ne,
    beq_eq_false_iff_ne]
  constructor <;>
    · rintro rfl
      exact absurd hd (by decide)

theorem scanExponent_append {exponent : Option Exponent} {rest : Bytes}
    (hsome : ∀ e ∈ exponent, isExponentMark e.mark = true ∧
      (∀ s ∈ e.sign, s = plus ∨ s = minus) ∧ IsDigits e.digits ∧ NotAhead isDigit rest)
    (hnone : exponent = none → NotAhead isExponentMark rest) :
    scanExponent (exponentText exponent ++ rest) = .ok (exponent, rest) := by
  cases exponent with
  | some e =>
      obtain ⟨hmark, hsign, hds, hrest⟩ := hsome e rfl
      have htext : exponentText (some e) ++ rest =
          e.mark :: (e.sign.toList ++ (e.digits ++ rest)) := by
        simp [exponentText, Exponent.text, List.append_assoc]
      rw [htext, scanExponent, if_pos hmark,
        scanSign_append hsign fun _ => notAhead_sign_of_isDigits hds]
      simp [scanDigits_append hds hrest]
  | none =>
      have hrest := hnone rfl
      cases rest with
      | nil => rfl
      | cons b rest =>
          rw [notAhead_cons] at hrest
          simp only [exponentText, Option.elim_none, List.nil_append, scanExponent, hrest]
          rfl

/-- The four readers of a scan, one after the other. -/
theorem scan_eq_ok {bs rest : Bytes} {l : Literal} :
    scan bs = .ok (l, rest) ↔
      ∃ r₁ r₂ r₃, scanMinus bs = (l.negative, r₁) ∧ scanDigits r₁ = .ok (l.whole, r₂) ∧
        scanFraction r₂ = .ok (l.fraction, r₃) ∧ scanExponent r₃ = .ok (l.exponent, rest) := by
  obtain ⟨negative, whole, fraction, exponent⟩ := l
  constructor
  · intro h
    cases hm : scanMinus bs with
    | mk negative' r₁ =>
    cases hd : scanDigits r₁ with
    | error _ => simp [scan, hm, hd, bind, Except.bind] at h
    | ok d =>
    cases hf : scanFraction d.2 with
    | error _ => simp [scan, hm, hd, hf, bind, Except.bind] at h
    | ok f =>
    cases he : scanExponent f.2 with
    | error _ => simp [scan, hm, hd, hf, he, bind, Except.bind] at h
    | ok e =>
        simp only [scan, hm, hd, hf, he, bind, Except.bind, Except.ok.injEq, Prod.mk.injEq,
          Literal.mk.injEq] at h
        obtain ⟨⟨rfl, rfl, rfl, rfl⟩, rfl⟩ := h
        exact ⟨r₁, d.2, f.2, rfl, hd, hf, he⟩
  · intro h
    rcases h with ⟨r₁, r₂, r₃, hm, hd, hf, he⟩
    simp only at hm hd hf he
    simp [scan, hm, hd, hf, he, bind, Except.bind]

/-- What comes after the whole part of a literal is no digit. -/
theorem notAhead_isDigit_fraction (fraction : Option Bytes) {exponent : Option Exponent}
    {rest : Bytes} (hmark : ∀ e ∈ exponent, isExponentMark e.mark = true)
    (hrest : NotAhead isDigit rest) :
    NotAhead isDigit (fractionText fraction ++ (exponentText exponent ++ rest)) := by
  cases fraction with
  | some ds => exact notAhead_isDigit_dot _
  | none =>
      cases exponent with
      | some e => exact notAhead_cons.mpr (isDigit_of_isExponentMark (hmark e rfl))
      | none => exact hrest

theorem scan_ok {bs rest : Bytes} {l : Literal} (h : scan bs = .ok (l, rest)) :
    l.WellFormed ∧ bs = l.text ++ rest ∧ l.Stops rest := by
  obtain ⟨r₁, r₂, r₃, hm, hd, hf, he⟩ := scan_eq_ok.mp h
  obtain ⟨hwhole, rfl, hnext⟩ := scanDigits_ok hd
  obtain ⟨rfl, hfraction, hdot⟩ := scanFraction_ok hf
  obtain ⟨rfl, hexponent, hmark⟩ := scanExponent_ok he
  have hwell : l.WellFormed :=
    ⟨hwhole, fun ds hds => (hfraction ds hds).1, fun e he => (hexponent e he).1,
      fun e he => (hexponent e he).2.1, fun e he => (hexponent e he).2.2.1⟩
  refine ⟨hwell, ?_, ?_, hmark, ?_⟩
  · rw [scanMinus_eq hm, text_eq]
    simp only [List.append_assoc]
  · cases hexp : l.exponent with
    | some e => exact (hexponent e hexp).2.2.2
    | none =>
        rw [hexp] at hfraction hnext
        cases hfrac : l.fraction with
        | some ds => exact (hfraction ds hfrac).2
        | none =>
            rw [hfrac] at hnext
            exact hnext
  · intro hexp hfrac
    rw [hexp] at hdot
    exact hdot hfrac

/-- The minus of a literal is taken off its front. -/
theorem scanMinus_text {l : Literal} (hwell : l.WellFormed) (rest : Bytes) :
    scanMinus (l.text ++ rest) = (l.negative, l.whole ++ (fractionText l.fraction ++
      (exponentText l.exponent ++ rest))) := by
  rw [text_eq]
  simp only [List.append_assoc]
  refine scanMinus_append fun _ => ?_
  obtain ⟨d, ds, hds, hd⟩ := hwell.whole.exists_cons
  rw [hds, List.cons_append, notAhead_cons, beq_eq_false_iff_ne]
  intro hminus
  rw [hminus] at hd
  exact absurd hd (by decide)

theorem scan_append {l : Literal} (hwell : l.WellFormed) {rest : Bytes} (hstops : l.Stops rest) :
    scan (l.text ++ rest) = .ok (l, rest) := by
  obtain ⟨hdigit, hmark, hdot⟩ := hstops
  refine scan_eq_ok.mpr ⟨_, _, exponentText l.exponent ++ rest, scanMinus_text hwell rest,
    scanDigits_append hwell.whole ?_, scanFraction_append ?_ ?_, scanExponent_append ?_ hmark⟩
  · exact notAhead_isDigit_fraction l.fraction hwell.mark hdigit
  · intro ds hds
    refine ⟨hwell.fraction ds hds, ?_⟩
    exact notAhead_isDigit_fraction none hwell.mark hdigit
  · intro hfrac
    cases hexp : l.exponent with
    | some e =>
        refine notAhead_cons.mpr ?_
        rw [beq_eq_false_iff_ne]
        intro heq
        have hmarked := hwell.mark e hexp
        rw [heq] at hmarked
        exact absurd hmarked (by decide)
    | none => exact hdot hexp hfrac
  · intro e he
    exact ⟨hwell.mark e he, hwell.sign e he, hwell.digits e he, hdigit⟩

/-- A scan succeeds on the texts that begin with a literal, and takes a literal
that ends before what is left. -/
theorem scan_eq_ok_iff {bs rest : Bytes} {l : Literal} :
    scan bs = .ok (l, rest) ↔ l.WellFormed ∧ bs = l.text ++ rest ∧ l.Stops rest := by
  constructor
  · exact scan_ok
  · intro h
    rcases h with ⟨hwell, rfl, hstops⟩
    exact scan_append hwell hstops

/-! A scan that fails. It commits itself by the bytes that it has taken, so that
a longer text fails at the same place, unless the text has ended there. -/

theorem Stops.append {l : Literal} {rest : Bytes} (h : l.Stops rest) (hne : rest ≠ [])
    (more : Bytes) : l.Stops (rest ++ more) :=
  ⟨h.1.append hne more, fun he => (h.2.1 he).append hne more,
    fun he hf => (h.2.2 he hf).append hne more⟩

theorem scan_extend {bs rest : Bytes} {l : Literal} (h : scan bs = .ok (l, rest))
    (hne : rest ≠ []) (more : Bytes) : scan (bs ++ more) = .ok (l, rest ++ more) := by
  obtain ⟨hwell, rfl, hstops⟩ := scan_eq_ok_iff.mp h
  exact scan_eq_ok_iff.mpr ⟨hwell, List.append_assoc _ _ _, hstops.append hne more⟩

theorem scanMinus_extend {bs rest : Bytes} {negative : Bool}
    (h : scanMinus bs = (negative, rest)) (hne : rest ≠ []) (more : Bytes) :
    scanMinus (bs ++ more) = (negative, rest ++ more) := by
  cases bs with
  | nil =>
      cases h
      exact absurd rfl hne
  | cons b bs =>
      rw [List.cons_append, scanMinus]
      rw [scanMinus] at h
      split at h
      · next hb =>
          cases h
          rw [if_pos hb]
      · next hb =>
          cases h
          rw [if_neg hb]
          rfl

theorem scanDigits_eq_error_iff {bs left : Bytes} :
    scanDigits bs = .error left ↔ NotAhead isDigit bs ∧ left = bs := by
  unfold scanDigits
  constructor
  · intro h
    split at h
    · next hnone =>
        cases h
        refine ⟨?_, rfl⟩
        rw [← List.takeWhile_append_dropWhile (p := isDigit) (l := bs), hnone]
        exact notAhead_dropWhile isDigit bs
    · cases h
  · intro h
    rcases h with ⟨hbs, rfl⟩
    rw [takeWhile_of_notAhead hbs]

theorem scanDigits_extend {bs ds rest : Bytes} (h : scanDigits bs = .ok (ds, rest))
    (hne : rest ≠ []) (more : Bytes) : scanDigits (bs ++ more) = .ok (ds, rest ++ more) := by
  obtain ⟨hds, rfl, hrest⟩ := scanDigits_ok h
  rw [List.append_assoc]
  exact scanDigits_append hds (hrest.append hne more)

theorem scanFraction_eq_error_iff {bs left : Bytes} :
    scanFraction bs = .error left ↔ NotAhead isDigit left ∧ bs = dot :: left := by
  constructor
  · intro h
    unfold scanFraction at h
    split at h
    · cases h
    · next b bs =>
        split at h
        · next hb =>
            split at h
            · cases h
            · next hscan =>
                cases h
                obtain ⟨hleft, rfl⟩ := scanDigits_eq_error_iff.mp hscan
                rw [beq_iff_eq] at hb
                exact ⟨hleft, congrArg (· :: _) hb⟩
        · cases h
  · intro h
    rcases h with ⟨hleft, rfl⟩
    rw [scanFraction, if_pos (beq_self_eq_true dot), scanDigits_eq_error_iff.mpr ⟨hleft, rfl⟩]

theorem scanFraction_extend {bs rest : Bytes} {fraction : Option Bytes}
    (h : scanFraction bs = .ok (fraction, rest)) (hne : rest ≠ []) (more : Bytes) :
    scanFraction (bs ++ more) = .ok (fraction, rest ++ more) := by
  obtain ⟨rfl, hsome, hnone⟩ := scanFraction_ok h
  rw [List.append_assoc]
  exact scanFraction_append (fun ds hds => ⟨(hsome ds hds).1, (hsome ds hds).2.append hne more⟩)
    fun hfrac => (hnone hfrac).append hne more

theorem scanSign_extend {bs rest : Bytes} {sign : Option UInt8} (h : scanSign bs = (sign, rest))
    (hne : rest ≠ []) (more : Bytes) : scanSign (bs ++ more) = (sign, rest ++ more) := by
  cases bs with
  | nil =>
      cases h
      exact absurd rfl hne
  | cons b bs =>
      rw [List.cons_append, scanSign]
      rw [scanSign] at h
      split at h
      · next hb =>
          cases h
          rw [if_pos hb]
      · next hb =>
          cases h
          rw [if_neg hb]
          rfl

theorem scanExponent_eq_error_iff {bs left : Bytes} :
    scanExponent bs = .error left ↔
      NotAhead isDigit left ∧ ∃ mark rest sign, bs = mark :: rest ∧ isExponentMark mark = true ∧
        scanSign rest = (sign, left) := by
  constructor
  · intro h
    unfold scanExponent at h
    split at h
    · cases h
    · next b bs =>
        split at h
        · next hb =>
            split at h
            next sign rest hsign =>
            split at h
            · cases h
            · next hscan =>
                cases h
                obtain ⟨hleft, rfl⟩ := scanDigits_eq_error_iff.mp hscan
                exact ⟨hleft, b, bs, sign, rfl, hb, hsign⟩
        · cases h
  · intro h
    rcases h with ⟨hleft, mark, rest, sign, rfl, hmark, hsign⟩
    rw [scanExponent, if_pos hmark, hsign]
    simp only [scanDigits_eq_error_iff.mpr ⟨hleft, rfl⟩]

/-- The digit that a scan misses is one of the whole part, of the fraction or of
the exponent. -/
theorem scan_eq_error_iff {bs left : Bytes} :
    scan bs = .error left ↔
      scanDigits (scanMinus bs).2 = .error left ∨
        ∃ whole r₂, scanDigits (scanMinus bs).2 = .ok (whole, r₂) ∧
          (scanFraction r₂ = .error left ∨
            ∃ fraction r₃, scanFraction r₂ = .ok (fraction, r₃) ∧
              scanExponent r₃ = .error left) := by
  rcases hd : scanDigits (scanMinus bs).2 with e | ⟨whole, r₂⟩
  · simp [scan, hd, bind, Except.bind]
  rcases hf : scanFraction r₂ with e | ⟨fraction, r₃⟩
  · simp [scan, hd, hf, bind, Except.bind, and_assoc]
  rcases he : scanExponent r₃ with e | ⟨exponent, rest⟩
  · simp [scan, hd, hf, he, bind, Except.bind, and_assoc]
  · simp [scan, hd, hf, he, bind, Except.bind, and_assoc]

/-- Where the text has ended, a digit makes it a literal. -/
theorem exists_literal_of_scan_error {bs : Bytes} (h : scan bs = .error []) :
    ∃ l : Literal, l.WellFormed ∧ l.text = bs ++ [zero] := by
  rcases hm : scanMinus bs with ⟨negative, r₁⟩
  rw [scan_eq_error_iff, hm] at h
  rw [scanMinus_eq hm]
  rcases h with hd | ⟨whole, r₂, hd, hf | ⟨fraction, r₃, hf, he⟩⟩
  · obtain ⟨-, rfl⟩ := scanDigits_eq_error_iff.mp hd
    refine ⟨⟨negative, [zero], none, none⟩, ⟨isDigits_zero, ?_, ?_, ?_, ?_⟩, ?_⟩ <;>
      simp [text_eq, fractionText, exponentText]
  · obtain ⟨hwhole, rfl, -⟩ := scanDigits_ok hd
    obtain ⟨-, rfl⟩ := scanFraction_eq_error_iff.mp hf
    refine ⟨⟨negative, whole, some [zero], none⟩, ⟨hwhole, ?_, ?_, ?_, ?_⟩, ?_⟩ <;>
      simp [text_eq, fractionText, exponentText, isDigits_zero]
  · obtain ⟨hwhole, rfl, -⟩ := scanDigits_ok hd
    obtain ⟨rfl, hfraction, -⟩ := scanFraction_ok hf
    obtain ⟨-, mark, rest, sign, rfl, hmark, hs⟩ := scanExponent_eq_error_iff.mp he
    obtain ⟨rfl, hsign⟩ := scanSign_eq hs
    refine ⟨⟨negative, whole, fraction, some ⟨mark, sign, [zero]⟩⟩,
      ⟨hwhole, fun ds hds => (hfraction ds hds).1, ?_, ?_, ?_⟩, ?_⟩
    · simpa using hmark
    · simpa using hsign
    · simpa using isDigits_zero
    · simp [text_eq, exponentText, Exponent.text]

/-- Where another byte stands in place of the digit, every longer text lacks it
too. -/
theorem scan_error_extend {bs left : Bytes} (h : scan bs = .error left) (hne : left ≠ [])
    (more : Bytes) : scan (bs ++ more) = .error (left ++ more) := by
  rcases hm : scanMinus bs with ⟨negative, r₁⟩
  rw [scan_eq_error_iff, hm] at h
  have hextend (hrest : r₁ ≠ []) : (scanMinus (bs ++ more)).2 = r₁ ++ more := by
    rw [scanMinus_extend hm hrest]
  rw [scan_eq_error_iff]
  rcases h with hd | ⟨whole, r₂, hd, hf | ⟨fraction, r₃, hf, he⟩⟩
  · obtain ⟨hleft, rfl⟩ := scanDigits_eq_error_iff.mp hd
    rw [hextend hne]
    exact .inl (scanDigits_eq_error_iff.mpr ⟨hleft.append hne more, rfl⟩)
  · obtain ⟨-, rfl, -⟩ := scanDigits_ok hd
    obtain ⟨hleft, rfl⟩ := scanFraction_eq_error_iff.mp hf
    rw [hextend (by simp)]
    refine .inr ⟨whole, _, scanDigits_extend hd (by simp) more, .inl ?_⟩
    exact scanFraction_eq_error_iff.mpr ⟨hleft.append hne more, rfl⟩
  · obtain ⟨-, rfl, -⟩ := scanDigits_ok hd
    obtain ⟨rfl, -, -⟩ := scanFraction_ok hf
    obtain ⟨hleft, mark, rest, sign, rfl, hmark, hs⟩ := scanExponent_eq_error_iff.mp he
    rw [hextend (by simp)]
    refine .inr ⟨whole, _, scanDigits_extend hd (by simp) more, .inr
      ⟨fraction, _, scanFraction_extend hf (by simp) more, ?_⟩⟩
    exact scanExponent_eq_error_iff.mpr
      ⟨hleft.append hne more, mark, _, sign, rfl, hmark, scanSign_extend hs hne more⟩

end Literal

end FlatJson
