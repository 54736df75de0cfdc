import FlatJson.Emission

/-!
# Escapes in strings

A string is written between quotes, with an escape for every quote, backslash
and control byte; all other bytes stand for themselves, so that the escaped text
of UTF-8 is UTF-8. It is written run by run: what stands between two escapes is
one write, and so is each escape.

Reading goes from left to right. Each escape stands for one character, a
numbered one for the character of that number, or for a replacement where there
is no such character: two halves of a pair are not put together. Whether the
outcome is UTF-8 is asked at the end, when every escape has been understood.
-/

namespace FlatJson

namespace Escape

open Ascii

/-- The letter that stands after the backslash of the short escape of a byte. -/
def short? (b : UInt8) : Option UInt8 :=
  if b == quote then some quote
  else if b == backslash then some backslash
  else if b == 0x08 then some 0x62
  else if b == 0x0C then some 0x66
  else if b == 0x0A then some 0x6E
  else if b == 0x0D then some 0x72
  else if b == 0x09 then some 0x74
  else none

/-- Whether a byte has to be escaped. -/
def needed (b : UInt8) : Bool :=
  isControl b || b == quote || b == backslash

/-- The escape of a byte: the short one if it has one, and its number if not. -/
def ofByte (b : UInt8) : Bytes :=
  match short? b with
  | some letter => [backslash, letter]
  | none =>
    [backslash, 0x75, zero, zero, hexDigit (b.toNat / 16), hexDigit (b.toNat % 16)]

/-- The bytes that stand for one byte inside a string. -/
def written (b : UInt8) : Bytes :=
  if needed b then ofByte b else [b]

/-- The first run of a text, and the writes after it: an escape and a run each
time. -/
def runs (text : Bytes) : Bytes × Emission :=
  text.foldr
    (fun b (run, more) =>
      if needed b then ([], .bytes (ofByte b) :: .bytes run :: more) else (b :: run, more))
    ([], [])

/-- The writes of a string. -/
def emit (text : Bytes) : Emission :=
  let (run, more) := runs text
  .bytes [quote] :: .bytes run :: more ++ [.bytes [quote]]

/-- What the letter after a backslash stands for, a number apart. -/
def meaning? (letter : UInt8) : Option UInt8 :=
  if letter == quote then some quote
  else if letter == backslash then some backslash
  else if letter == 0x2F then some 0x2F
  else if letter == 0x62 then some 0x08
  else if letter == 0x66 then some 0x0C
  else if letter == 0x6E then some 0x0A
  else if letter == 0x72 then some 0x0D
  else if letter == 0x74 then some 0x09
  else none

/-- The letter of an escape by number. -/
abbrev numbered : UInt8 := 0x75

/-- The number of four hexadecimal digits. -/
def codeUnit? (a b c d : UInt8) : Option Nat := do
  let a ← hexValue? a
  let b ← hexValue? b
  let c ← hexValue? c
  let d ← hexValue? d
  some (a * 0x1000 + b * 0x100 + c * 0x10 + d)

/-- The character of a number, or a replacement where there is none. -/
def character (n : Nat) : Char :=
  if h : n.isValidChar then Char.ofNatAux n h else Utf8.replacement

/-- What an escape stands for, and what is left after it, given what follows the
backslash. -/
def read? : Bytes → Option (Bytes × Bytes)
  | [] => none
  | letter :: rest =>
    if letter == numbered then
      match rest with
      | a :: b :: c :: d :: rest =>
        (codeUnit? a b c d).map fun n => (Utf8.encode [character n], rest)
      | _ => none
    else (meaning? letter).map fun b => ([b], rest)

/-- The number of bytes of an escape, given what follows the backslash. -/
def width (rest : Bytes) : Nat :=
  if rest.head? == some numbered then 6 else 2

theorem length_read?_lt {rest meaning left : Bytes} (h : read? rest = some (meaning, left)) :
    left.length < rest.length := by
  unfold read? at h
  split at h
  · cases h
  · split at h
    · split at h
      · obtain ⟨n, _, hn⟩ := Option.map_eq_some_iff.1 h
        cases hn
        simp only [List.length_cons]
        omega
      · cases h
    · obtain ⟨n, _, hn⟩ := Option.map_eq_some_iff.1 h
      cases hn
      exact Nat.lt_succ_self _

/-- The bytes that a raw text stands for. A backslash that starts no escape is a
failure, with its offset and the text from it on. -/
def resolve (offset : Nat) : Bytes → Except (Nat × Bytes) Bytes
  | [] => .ok []
  | b :: rest =>
    if b == backslash then
      match h : read? rest with
      | some (meaning, left) =>
        have := length_read?_lt h
        match resolve (offset + width rest) left with
        | .ok bs => .ok (meaning ++ bs)
        | .error e => .error e
      | none => .error (offset, b :: rest)
    else
      match resolve (offset + 1) rest with
      | .ok bs => .ok (b :: bs)
      | .error e => .error e
termination_by bs => bs.length
decreasing_by all_goals (simp only [List.length_cons]; omega)

/-- The same, read on from the bytes `acc`, of which the last comes first: this
is how a long text is read. -/
def resolveOnto (acc : Bytes) (offset : Nat) : Bytes → Except (Nat × Bytes) Bytes
  | [] => .ok acc.reverse
  | b :: rest =>
    if b == backslash then
      match h : read? rest with
      | some (meaning, left) =>
        have := length_read?_lt h
        resolveOnto (meaning.reverse ++ acc) (offset + width rest) left
      | none => .error (offset, b :: rest)
    else resolveOnto (b :: acc) (offset + 1) rest
termination_by bs => bs.length
decreasing_by all_goals (simp only [List.length_cons]; omega)

theorem resolveOnto_eq (acc : Bytes) (offset : Nat) (bs : Bytes) :
    resolveOnto acc offset bs = (resolve offset bs).map (acc.reverse ++ ·) := by
  fun_induction resolveOnto acc offset bs with
  | case1 acc offset => simp [resolve, Except.map]
  | case2 acc offset b rest hb meaning left h _ ih =>
    rw [ih, resolve, if_pos hb]
    split
    · next h' =>
      rw [h] at h'
      cases h'
      cases resolve (offset + width rest) left <;> simp [Except.map]
    · next h' => rw [h] at h'; cases h'
  | case3 acc offset b rest hb h =>
    rw [resolve, if_pos hb]
    split
    · next h' => rw [h] at h'; cases h'
    · rfl
  | case4 acc offset b rest hb ih =>
    rw [ih, resolve, if_neg hb]
    cases resolve (offset + 1) rest <;> simp [Except.map]

/-- What a fault shows of an escape that means nothing, without cutting a
character. -/
def shown (text : Bytes) : Bytes :=
  let n := width text.tail
  text.take n ++ (text.drop n).takeWhile Utf8.isTail

/-- The text that a raw text at `offset` stands for. -/
def unescape (raw : Bytes) (offset : Nat) : Except ReadFault String :=
  match resolveOnto [] offset raw with
  | .error (at_, text) => .error (.of .badEscape (shown text) at_)
  | .ok bs =>
    match Utf8.toString? bs with
    | some s => .ok s
    | none => .error (.of .invalidUtf8 raw offset)

end Escape

end FlatJson
