import FlatJson.Ascii

/-!
# Number literals

A number literal is an optional minus, digits, an optional fraction and an
optional exponent; a fraction and an exponent have digits of their own. Leading
zeros are allowed. `Literal.scan` takes the literal at the front of a text and
returns its parts and what is left. It commits to a fraction at the point and to
an exponent at the mark, and where a digit is then missing it fails with what is
left of the text at the place of that digit.

`Literal.text` is the literal that the parts were read from.
-/

namespace FlatJson

open Ascii

/-- The exponent of a number: its mark, its sign if it has one, its digits. -/
structure Exponent where
  mark : UInt8
  sign : Option UInt8
  digits : Bytes
  deriving DecidableEq, Repr

/-- A number as it is written. -/
structure Literal where
  negative : Bool
  whole : Bytes
  fraction : Option Bytes
  exponent : Option Exponent
  deriving DecidableEq, Repr

namespace Exponent

/-- The text of an exponent. -/
def text (e : Exponent) : Bytes :=
  e.mark :: (e.sign.toList ++ e.digits)

/-- How far the digits of an exponent are counted. -/
def cap : Nat := Nat.pow 2 16

/-- The number that the digits of an exponent stand for. They are counted from
the first on; once the number has reached the cap, which is far beyond every
format, the digits that follow add nothing. -/
def size (ds : Bytes) : Nat :=
  ds.foldl (fun n b => if n < cap then 10 * n + digitValue b else n) 0

/-- The power of ten that an exponent stands for. -/
def value (e : Exponent) : Int :=
  if e.sign = some minus then -(size e.digits : Int) else size e.digits

end Exponent

namespace Literal

/-- The text of a literal. -/
def text (l : Literal) : Bytes :=
  (if l.negative then [minus] else []) ++ l.whole ++
    (l.fraction.elim [] fun ds => dot :: ds) ++
    (l.exponent.elim [] Exponent.text)

/-- A literal without fraction and exponent. -/
def isInteger (l : Literal) : Bool :=
  l.fraction.isNone && l.exponent.isNone

/-- The digits at the front of a text and what is left after them. Where there
is no digit, the text itself is handed back as a failure. -/
def scanDigits (bs : Bytes) : Except Bytes (Bytes × Bytes) :=
  match bs.takeWhile isDigit with
  | [] => .error bs
  | ds => .ok (ds, bs.dropWhile isDigit)

/-- Takes a minus off the front of a text. -/
def scanMinus : Bytes → Bool × Bytes
  | [] => (false, [])
  | b :: rest => if b == minus then (true, rest) else (false, b :: rest)

/-- Takes a sign off the front of a text. -/
def scanSign : Bytes → Option UInt8 × Bytes
  | [] => (none, [])
  | b :: rest => if b == plus || b == minus then (some b, rest) else (none, b :: rest)

/-- Takes a fraction off the front of a text, if a point stands there. -/
def scanFraction : Bytes → Except Bytes (Option Bytes × Bytes)
  | [] => .ok (none, [])
  | b :: rest =>
    if b == dot then
      match scanDigits rest with
      | .ok (ds, rest) => .ok (some ds, rest)
      | .error left => .error left
    else .ok (none, b :: rest)

/-- Takes an exponent off the front of a text, if its mark stands there. -/
def scanExponent : Bytes → Except Bytes (Option Exponent × Bytes)
  | [] => .ok (none, [])
  | b :: rest =>
    if isExponentMark b then
      match scanSign rest with
      | (sign, rest) =>
        match scanDigits rest with
        | .ok (ds, rest) => .ok (some ⟨b, sign, ds⟩, rest)
        | .error left => .error left
    else .ok (none, b :: rest)

/-- Takes the longest literal off the front of a text. -/
def scan (bs : Bytes) : Except Bytes (Literal × Bytes) := do
  let (negative, rest) := scanMinus bs
  let (whole, rest) ← scanDigits rest
  let (fraction, rest) ← scanFraction rest
  let (exponent, rest) ← scanExponent rest
  .ok (⟨negative, whole, fraction, exponent⟩, rest)

/-- The literal that a text is, if it is one from its first byte to its last. -/
def ofText? (bs : Bytes) : Option Literal :=
  match scan bs with
  | .ok (l, []) => some l
  | _ => none

/-- Whether a text starts as a hexadecimal number does in other notations. -/
def looksHexadecimal (bs : Bytes) : Bool :=
  match (scanMinus bs).2 with
  | b :: c :: _ => b == zero && (c == 0x78 || c == 0x58)
  | _ => false

/-- A literal is a text of one byte at least, so that scanning one leaves less. -/
theorem length_scanDigits_lt {bs ds left : Bytes} (h : scanDigits bs = .ok (ds, left)) :
    left.length < bs.length := by
  unfold scanDigits at h
  split at h
  · cases h
  · next hne =>
    cases h
    have hsplit := List.takeWhile_append_dropWhile (p := isDigit) (l := bs)
    have hlen := congrArg List.length hsplit
    rw [List.length_append] at hlen
    have hpos := List.length_pos_iff.2 hne
    omega

theorem length_scanMinus_le (bs : Bytes) : (scanMinus bs).2.length ≤ bs.length := by
  unfold scanMinus
  split
  · exact Nat.le_refl _
  · split
    · exact Nat.le_succ _
    · exact Nat.le_refl _

theorem length_scanSign_le (bs : Bytes) : (scanSign bs).2.length ≤ bs.length := by
  unfold scanSign
  split
  · exact Nat.le_refl _
  · split
    · exact Nat.le_succ _
    · exact Nat.le_refl _

theorem length_scanFraction_le {bs left : Bytes} {fraction : Option Bytes}
    (h : scanFraction bs = .ok (fraction, left)) : left.length ≤ bs.length := by
  unfold scanFraction at h
  split at h
  · cases h; exact Nat.le_refl _
  · split at h
    · split at h
      · next hd =>
        cases h
        have := length_scanDigits_lt hd
        simp only [List.length_cons]
        omega
      · cases h
    · cases h; exact Nat.le_refl _

theorem length_scanExponent_le {bs left : Bytes} {exponent : Option Exponent}
    (h : scanExponent bs = .ok (exponent, left)) : left.length ≤ bs.length := by
  unfold scanExponent at h
  split at h
  · cases h; exact Nat.le_refl _
  · next b rest =>
    split at h
    · split at h
      next sign rest' hs =>
      split at h
      · next hd =>
        cases h
        have hsign := length_scanSign_le rest
        have := length_scanDigits_lt hd
        simp only [hs, List.length_cons] at hsign ⊢
        omega
      · cases h
    · cases h; exact Nat.le_refl _

/-- Scanning a literal leaves less than it was given. -/
theorem length_scan_lt {bs left : Bytes} {l : Literal} (h : scan bs = .ok (l, left)) :
    left.length < bs.length := by
  unfold scan at h
  have hminus := length_scanMinus_le bs
  cases hd : scanDigits (scanMinus bs).2 with
  | error _ => simp [hd, bind, Except.bind] at h
  | ok whole =>
    cases hf : scanFraction whole.2 with
    | error _ => simp [hd, hf, bind, Except.bind] at h
    | ok fraction =>
      cases he : scanExponent fraction.2 with
      | error _ => simp [hd, hf, he, bind, Except.bind] at h
      | ok exponent =>
        simp only [hd, hf, he, bind, Except.bind, Except.ok.injEq, Prod.mk.injEq] at h
        have h1 := length_scanDigits_lt hd
        have h2 := length_scanFraction_le hf
        have h3 := length_scanExponent_le he
        rw [← h.2]
        omega

end Literal

end FlatJson
