import FlatJson.Ascii

/-!
# UTF-8

A text is stored as UTF-8. `split` takes one character off the front of a list
of bytes, or says that none starts there and takes off the longest start of a
character that could still have become one. Reading a text in full is then a
single recursion, `sound`: the characters up to the first byte at which no
character starts, and what is left from that byte on.

`decode?` accepts a list of bytes of which nothing is left, and `lossy` reads
every list of bytes, writing one replacement character for each piece that is
no character.
-/

namespace FlatJson

namespace Utf8

/-- What stands for a piece of text that is no character. -/
abbrev replacement : Char := '\uFFFD'

/-- The bytes of a list of characters. -/
def encode (cs : List Char) : Bytes :=
  cs.flatMap String.utf8EncodeChar

/-- The bytes of a text. -/
def ofString (s : String) : Bytes :=
  encode s.toList

/-- A byte that continues a character. -/
def isTail (b : UInt8) : Bool :=
  0x80 ≤ b && b ≤ 0xBF

/-- Whether `b` may follow the lead byte `lead`: after four of the lead bytes
part of the continuation bytes would spell an overlong form, a surrogate or a
number beyond the last character. -/
def follows (lead b : UInt8) : Bool :=
  if lead == 0xE0 then 0xA0 ≤ b && b ≤ 0xBF
  else if lead == 0xED then 0x80 ≤ b && b ≤ 0x9F
  else if lead == 0xF0 then 0x90 ≤ b && b ≤ 0xBF
  else if lead == 0xF4 then 0x80 ≤ b && b ≤ 0x8F
  else isTail b

/-- The six bits that a continuation byte carries. -/
def low (b : UInt8) : Nat :=
  b.toNat % 0x40

/-- Takes the character that starts with the byte `lead` off the front of the
text. Where there is none, the lead byte and the bytes after it that fit it are
taken off instead. -/
def split (lead : UInt8) (rest : Bytes) : Option Char × Bytes :=
  if lead < 0x80 then (some (Char.ofNat lead.toNat), rest)
  else if lead < 0xC2 || 0xF4 < lead then (none, rest)
  else
    match rest with
    | [] => (none, [])
    | b :: rest =>
      if !follows lead b then (none, b :: rest)
      else if lead < 0xE0 then
        (some (Char.ofNat (lead.toNat % 0x20 * 0x40 + low b)), rest)
      else
        match rest with
        | [] => (none, [])
        | c :: rest =>
          if !isTail c then (none, c :: rest)
          else if lead < 0xF0 then
            (some (Char.ofNat (lead.toNat % 0x10 * 0x1000 + low b * 0x40 + low c)), rest)
          else
            match rest with
            | [] => (none, [])
            | d :: rest =>
              if !isTail d then (none, d :: rest)
              else
                (some (Char.ofNat
                  (lead.toNat % 0x08 * 0x40000 + low b * 0x1000 + low c * 0x40 + low d)), rest)

/-- Taking a character off never lengthens what is left. -/
theorem length_split_le (lead : UInt8) (rest : Bytes) :
    (split lead rest).2.length ≤ rest.length := by
  unfold split
  repeat' split
  all_goals simp only [List.length_cons, List.length_nil]; omega

/-- Taking a character off leaves less than there was. -/
theorem length_left_lt {lead : UInt8} {rest left : Bytes} {c? : Option Char}
    (h : split lead rest = (c?, left)) : left.length < (lead :: rest).length := by
  have hle := length_split_le lead rest
  rw [h] at hle
  exact Nat.lt_succ_of_le hle

/-- The characters at the front of the text, and what is left from the first
byte at which no character starts. -/
def sound : Bytes → List Char × Bytes
  | [] => ([], [])
  | lead :: rest =>
    match h : split lead rest with
    | (some c, left) =>
      have := length_left_lt h
      (c :: (sound left).1, (sound left).2)
    | (none, _) => ([], lead :: rest)
termination_by bs => bs.length
decreasing_by exact this

/-- The same, read on from the characters `acc`, of which the last comes first:
this is how a long text is read. -/
def soundOnto (acc : List Char) : Bytes → List Char × Bytes
  | [] => (acc.reverse, [])
  | lead :: rest =>
    match h : split lead rest with
    | (some c, left) =>
      have := length_left_lt h
      soundOnto (c :: acc) left
    | (none, _) => (acc.reverse, lead :: rest)
termination_by bs => bs.length
decreasing_by exact this

theorem soundOnto_eq (acc : List Char) (bs : Bytes) :
    soundOnto acc bs = (acc.reverse ++ (sound bs).1, (sound bs).2) := by
  fun_induction soundOnto acc bs with
  | case1 acc => simp [sound]
  | case2 acc lead rest c left h _ ih =>
    rw [ih, sound]
    split <;> simp_all
  | case3 acc lead rest left h =>
    rw [sound]
    split <;> simp_all

/-- The characters of a text, if all of it is UTF-8. -/
def decode? (bs : Bytes) : Option (List Char) :=
  match soundOnto [] bs with
  | (cs, []) => some cs
  | (_, _ :: _) => none

/-- The text that some bytes store, if all of them are UTF-8. -/
def toString? (bs : Bytes) : Option String :=
  (decode? bs).map String.ofList

/-- The number of bytes before the first one at which no character starts. -/
def soundLength (bs : Bytes) : Nat :=
  bs.length - (soundOnto [] bs).2.length

/-- The characters of a text, with a replacement for each piece that is none. -/
def lossy : Bytes → List Char
  | [] => []
  | lead :: rest =>
    match h : split lead rest with
    | (c?, left) =>
      have := length_left_lt h
      c?.getD replacement :: lossy left
termination_by bs => bs.length
decreasing_by exact this

/-- The same, read on from the characters `acc`, of which the last comes first. -/
def lossyOnto (acc : List Char) : Bytes → List Char
  | [] => acc.reverse
  | lead :: rest =>
    match h : split lead rest with
    | (c?, left) =>
      have := length_left_lt h
      lossyOnto (c?.getD replacement :: acc) left
termination_by bs => bs.length
decreasing_by exact this

theorem lossyOnto_eq (acc : List Char) (bs : Bytes) :
    lossyOnto acc bs = acc.reverse ++ lossy bs := by
  fun_induction lossyOnto acc bs with
  | case1 acc => simp [lossy]
  | case2 acc lead rest c? left h _ ih =>
    rw [ih, lossy]
    split
    simp_all

/-- The text that some bytes store, read as `lossy` reads it. -/
def lossyString (bs : Bytes) : String :=
  String.ofList (lossyOnto [] bs)

theorem decode?_eq (bs : Bytes) :
    decode? bs = if (sound bs).2 = [] then some (sound bs).1 else none := by
  rw [decode?, soundOnto_eq]
  split <;> simp_all

theorem lossyString_eq (bs : Bytes) : lossyString bs = String.ofList (lossy bs) := by
  rw [lossyString, lossyOnto_eq, List.reverse_nil, List.nil_append]

@[simp] theorem encode_nil : encode [] = [] := rfl

@[simp] theorem encode_cons (c : Char) (cs : List Char) :
    encode (c :: cs) = String.utf8EncodeChar c ++ encode cs := rfl

theorem encode_append (p q : List Char) : encode (p ++ q) = encode p ++ encode q :=
  List.flatMap_append

end Utf8

end FlatJson
