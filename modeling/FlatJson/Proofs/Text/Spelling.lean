import FlatJson.Text.Escape
import FlatJson.Proofs.Grammar
import FlatJson.Proofs.Utf8

/-!
# What a raw text spells

`Spells raw cs` is the strict reading of what stands between the quotes of a
string: characters that stand for themselves, in UTF-8, and escapes, of which
each stands for one character. A raw text of the grammar is unescaped to the
characters that it spells, and it is refused if it spells none.

The escapes are resolved before anything is decoded, so a character of the
outcome might be put together from a byte of the text and from bytes of an
escape. It never is, since no escape begins with a byte that continues a
character (`resolve_tail`).
-/

namespace FlatJson

namespace Escape

open Ascii Grammar

/-- The letters of the short escapes, with what they stand for. -/
def shortEscapes : List (UInt8 × Char) :=
  [(0x22, '\x22'), (0x5C, '\x5C'), (0x2F, '/'), (0x62, '\x08'), (0x66, '\x0C'), (0x6E, '\n'),
    (0x72, '\r'), (0x74, '\t')]

/-- The character of a number of sixteen bits. A half of a pair is none, and is
replaced. -/
def unitChar (n : Nat) : Char :=
  if 0xD800 ≤ n ∧ n ≤ 0xDFFF then '\uFFFD' else Char.ofNat n

/-- What stands behind a backslash, and the character that the escape stands
for. -/
inductive Escaped : Bytes → Char → Prop
  | short {letter : UInt8} {c : Char} : (letter, c) ∈ shortEscapes → Escaped [letter] c
  | numbered {a b c d : UInt8} {i j k l : Nat} : hexValue? a = some i → hexValue? b = some j →
      hexValue? c = some k → hexValue? d = some l →
      Escaped [0x75, a, b, c, d] (unitChar (i * 0x1000 + j * 0x100 + k * 0x10 + l))

/-- A raw text spells some characters. -/
inductive Spells : Bytes → List Char → Prop
  | nil : Spells [] []
  | plain {c : Char} {rest : Bytes} {cs : List Char} : 0x20 ≤ c.toNat → c ≠ '\x22' → c ≠ '\x5C' →
      Spells rest cs → Spells (String.utf8EncodeChar c ++ rest) (c :: cs)
  | escape {e : Bytes} {c : Char} {rest : Bytes} {cs : List Char} : Escaped e c →
      Spells rest cs → Spells (backslash :: (e ++ rest)) (c :: cs)

/-- The letter of a short escape means the character of the table. -/
theorem meaning?_eq_some_iff {letter b : UInt8} :
    meaning? letter = some b ↔
      ∃ c, (letter, c) ∈ shortEscapes ∧ String.utf8EncodeChar c = [b] := by
  constructor
  · intro h
    unfold meaning? at h
    simp only [beq_iff_eq] at h
    repeat' split at h
    all_goals cases h
    all_goals
      subst_vars
      exact ⟨_, by decide, Utf8.utf8EncodeChar_ofNat (by decide)⟩
  · intro h
    rcases h with ⟨c, hc, hb⟩
    simp only [shortEscapes, List.mem_cons, Prod.mk.injEq, List.not_mem_nil, or_false] at hc
    rcases hc with ⟨rfl, rfl⟩ | ⟨rfl, rfl⟩ | ⟨rfl, rfl⟩ | ⟨rfl, rfl⟩ | ⟨rfl, rfl⟩ |
      ⟨rfl, rfl⟩ | ⟨rfl, rfl⟩ | ⟨rfl, rfl⟩
    all_goals
      cases hb
      rfl

theorem exists_byte_of_mem {letter : UInt8} {c : Char} (h : (letter, c) ∈ shortEscapes) :
    letter ≠ numbered ∧ ∃ b, String.utf8EncodeChar c = [b] := by
  simp only [shortEscapes, List.mem_cons, Prod.mk.injEq, List.not_mem_nil, or_false] at h
  rcases h with ⟨rfl, rfl⟩ | ⟨rfl, rfl⟩ | ⟨rfl, rfl⟩ | ⟨rfl, rfl⟩ | ⟨rfl, rfl⟩ | ⟨rfl, rfl⟩ |
    ⟨rfl, rfl⟩ | ⟨rfl, rfl⟩
  all_goals exact ⟨by decide, _, rfl⟩

theorem hexValue?_lt {b : UInt8} {n : Nat} (h : hexValue? b = some n) : n < 16 := by
  unfold hexValue? isDigit at h
  simp only [Bool.and_eq_true, decide_eq_true_eq, UInt8.le_iff_toNat_le,
    UInt8.reduceToNat] at h
  repeat' split at h
  all_goals
    cases h
  all_goals omega

/-- A hexadecimal digit stands alone in a string. -/
theorem plain_of_hexValue? {b : UInt8} {n : Nat} (h : hexValue? b = some n) :
    isControl b = false ∧ b ≠ quote ∧ b ≠ backslash := by
  unfold hexValue? isDigit at h
  rw [Ne, Ne, ← UInt8.toNat_inj, ← UInt8.toNat_inj]
  simp only [isControl, quote, backslash, Bool.and_eq_true, decide_eq_true_eq,
    decide_eq_false_iff_not, UInt8.le_iff_toNat_le, UInt8.lt_iff_toNat_lt,
    UInt8.reduceToNat] at h ⊢
  repeat' split at h
  all_goals
    cases h
  all_goals omega

theorem codeUnit?_eq_some_iff {a b c d : UInt8} {n : Nat} :
    codeUnit? a b c d = some n ↔
      ∃ i j k l, hexValue? a = some i ∧ hexValue? b = some j ∧ hexValue? c = some k ∧
        hexValue? d = some l ∧ n = i * 0x1000 + j * 0x100 + k * 0x10 + l := by
  simp only [codeUnit?, Option.bind_eq_bind, Option.bind_eq_some_iff, Option.some.injEq]
  constructor
  · intro h
    rcases h with ⟨i, hi, j, hj, k, hk, l, hl, rfl⟩
    exact ⟨i, j, k, l, hi, hj, hk, hl, rfl⟩
  · intro h
    rcases h with ⟨i, j, k, l, hi, hj, hk, hl, rfl⟩
    exact ⟨i, hi, j, hj, k, hk, l, hl, rfl⟩

theorem character_eq {n : Nat} (h : n < 0x10000) : character n = unitChar n := by
  unfold character unitChar
  by_cases hhalf : 0xD800 ≤ n ∧ n ≤ 0xDFFF
  · have hn : ¬n.isValidChar := by
      unfold Nat.isValidChar
      omega
    rw [dif_neg hn, if_pos hhalf]
  · have hn : n.isValidChar := by
      unfold Nat.isValidChar
      omega
    rw [dif_pos hn, if_neg hhalf, Char.ofNat, dif_pos hn]

/-- What an escape stands for is the encoding of a character. -/
theorem read?_eq_some_iff {rest meaning left : Bytes} :
    read? rest = some (meaning, left) ↔
      ∃ e c, Escaped e c ∧ rest = e ++ left ∧ meaning = String.utf8EncodeChar c := by
  constructor
  · intro h
    unfold read? at h
    split at h
    · cases h
    · next letter rest =>
        split at h
        · next hletter =>
            split at h
            · next a b c d rest =>
                obtain ⟨n, hn, hpair⟩ := Option.map_eq_some_iff.mp h
                obtain ⟨i, j, k, l, hi, hj, hk, hl, rfl⟩ := codeUnit?_eq_some_iff.mp hn
                have := hexValue?_lt hi
                have := hexValue?_lt hj
                have := hexValue?_lt hk
                have := hexValue?_lt hl
                cases hpair
                rw [beq_iff_eq] at hletter
                refine ⟨_, _, .numbered hi hj hk hl, by rw [hletter]; rfl, ?_⟩
                rw [character_eq (by omega), Utf8.encode_cons, Utf8.encode_nil, List.append_nil]
            · cases h
        · obtain ⟨b, hb, hpair⟩ := Option.map_eq_some_iff.mp h
          obtain ⟨c, hc, hbytes⟩ := meaning?_eq_some_iff.mp hb
          cases hpair
          exact ⟨_, c, .short hc, rfl, hbytes.symm⟩
  · intro h
    rcases h with ⟨e, c, he, rfl, rfl⟩
    cases he with
    | short hc =>
        obtain ⟨hletter, b, hb⟩ := exists_byte_of_mem hc
        rw [List.singleton_append, read?.eq_def]
        simp only [beq_iff_eq, hletter, if_false, meaning?_eq_some_iff.mpr ⟨c, hc, hb⟩, hb,
          Option.map_some]
    | numbered hi hj hk hl =>
        have hunit := codeUnit?_eq_some_iff.mpr ⟨_, _, _, _, hi, hj, hk, hl, rfl⟩
        have := hexValue?_lt hi
        have := hexValue?_lt hj
        have := hexValue?_lt hk
        have := hexValue?_lt hl
        simp only [List.cons_append, List.nil_append, read?, BEq.rfl, if_true, hunit,
          Option.map_some, Utf8.encode_cons, Utf8.encode_nil, List.append_nil]
        rw [character_eq (by omega)]

theorem toNat_lt_of_hexValue? {b : UInt8} {n : Nat} (h : hexValue? b = some n) :
    b.toNat < 0x80 := by
  unfold hexValue? isDigit at h
  simp only [Bool.and_eq_true, decide_eq_true_eq, UInt8.le_iff_toNat_le,
    UInt8.reduceToNat] at h
  repeat' split at h
  all_goals
    cases h
  all_goals omega

/-- The bytes of an escape are a letter of the table, the letter of the escapes by number, and
hexadecimal digits. -/
theorem Escaped.forall_mem {P : UInt8 → Prop} (hletter : ∀ short ∈ shortEscapes, P short.1)
    (hnumbered : P 0x75) (hdigit : ∀ {b : UInt8} {n : Nat}, hexValue? b = some n → P b)
    {e : Bytes} {c : Char} (h : Escaped e c) : ∀ b ∈ e, P b := by
  intro b hb
  cases h with
  | short hc =>
      obtain rfl := List.mem_singleton.mp hb
      exact hletter _ hc
  | numbered hi hj hk hl =>
      simp only [List.mem_cons, List.not_mem_nil, or_false] at hb
      rcases hb with rfl | rfl | rfl | rfl | rfl
      · exact hnumbered
      · exact hdigit hi
      · exact hdigit hj
      · exact hdigit hk
      · exact hdigit hl

/-- Every byte of an escape is a character of its own. -/
theorem Escaped.toNat_lt {e : Bytes} {c : Char} (h : Escaped e c) : ∀ b ∈ e, b.toNat < 0x80 :=
  h.forall_mem (by decide) (by decide) toNat_lt_of_hexValue?

/-- An escape is as wide as what it is made of. -/
theorem Escaped.width_eq {e : Bytes} {c : Char} (h : Escaped e c) (left : Bytes) :
    width (e ++ left) = e.length + 1 := by
  cases h with
  | short hc =>
      have hletter := (exists_byte_of_mem hc).1
      simp [width, hletter]
  | numbered => rfl

/-! Resolving, from left to right. -/

theorem map_eq_ok_iff {α β ε : Type} {f : α → β} {outcome : Except ε α} {y : β} :
    outcome.map f = .ok y ↔ ∃ x, outcome = .ok x ∧ y = f x := by
  cases outcome with
  | ok x => simp [Except.map, eq_comm]
  | error e => simp [Except.map]

/-- A byte that is no backslash stands for itself. -/
theorem resolve_cons {b : UInt8} (hb : b ≠ backslash) (offset : Nat) (rest : Bytes) :
    resolve offset (b :: rest) = (resolve (offset + 1) rest).map (b :: ·) := by
  rw [resolve, if_neg (by rwa [beq_iff_eq])]
  cases resolve (offset + 1) rest <;> rfl

/-- An escape stands for its character. -/
theorem resolve_escape {e : Bytes} {c : Char} (he : Escaped e c) (offset : Nat) (left : Bytes) :
    resolve offset (backslash :: (e ++ left)) =
      (resolve (offset + (e.length + 1)) left).map (String.utf8EncodeChar c ++ ·) := by
  have hread : read? (e ++ left) = some (String.utf8EncodeChar c, left) :=
    read?_eq_some_iff.mpr ⟨e, c, he, rfl, rfl⟩
  rw [resolve, if_pos BEq.rfl]
  split
  · next h =>
      cases hread.symm.trans h
      rw [he.width_eq]
      cases resolve (offset + (e.length + 1)) left <;> rfl
  · next h => cases hread.symm.trans h

/-- A backslash that starts no escape is a failure. -/
theorem resolve_none {rest : Bytes} (h : read? rest = none) (offset : Nat) :
    resolve offset (backslash :: rest) = .error (offset, backslash :: rest) := by
  rw [resolve, if_pos BEq.rfl]
  split
  · next hread => cases h.symm.trans hread
  · rfl

/-- Bytes without a backslash stand for themselves. -/
theorem resolve_append {run : Bytes} (hrun : backslash ∉ run) (offset : Nat) (rest : Bytes) :
    resolve offset (run ++ rest) = (resolve (offset + run.length) rest).map (run ++ ·) := by
  induction run generalizing offset with
  | nil => cases h : resolve offset rest <;> simp [h, Except.map]
  | cons b run ih =>
      rw [List.mem_cons, not_or] at hrun
      rw [List.cons_append, resolve_cons (Ne.symm hrun.1), ih hrun.2, List.length_cons,
        Nat.add_comm run.length, ← Nat.add_assoc]
      cases resolve (offset + 1 + run.length) rest <;> rfl

/-- What is resolved behind a backslash begins with an escape. -/
theorem resolve_escape_ok {offset : Nat} {rest bs : Bytes}
    (h : resolve offset (backslash :: rest) = .ok bs) :
    ∃ e c left outcome, Escaped e c ∧ rest = e ++ left ∧
      resolve (offset + (e.length + 1)) left = .ok outcome ∧
      bs = String.utf8EncodeChar c ++ outcome := by
  cases hread : read? rest with
  | none => cases (resolve_none hread offset).symm.trans h
  | some escape =>
      obtain ⟨e, c, he, rfl, -⟩ := read?_eq_some_iff.mp hread
      obtain ⟨outcome, hleft, hbytes⟩ :=
        map_eq_ok_iff.mp ((resolve_escape he offset _).symm.trans h)
      exact ⟨e, c, _, outcome, he, rfl, hleft, hbytes⟩

/-- Bytes that continue a character come from the same bytes of the raw text: no
escape begins with one. -/
theorem resolve_tail {tail : Bytes} (htail : ∀ b ∈ tail, Utf8.isTail b = true) {offset : Nat}
    {raw bs : Bytes} (h : resolve offset raw = .ok (tail ++ bs)) :
    ∃ rest, raw = tail ++ rest ∧ resolve (offset + tail.length) rest = .ok bs := by
  induction tail generalizing offset raw with
  | nil => exact ⟨raw, rfl, h⟩
  | cons t tail ih =>
      have ht : Utf8.isTail t = true := htail t List.mem_cons_self
      cases raw with
      | nil =>
          rw [resolve] at h
          cases h
      | cons b rest =>
          by_cases hb : b = backslash
          · rw [hb] at h
            obtain ⟨e, c, left, outcome, -, -, -, hbytes⟩ := resolve_escape_ok h
            obtain ⟨lead, others, hc, -⟩ := Utf8.completes_utf8EncodeChar c
            have hlead := (Utf8.isTail_utf8EncodeChar hc).1
            rw [hc] at hbytes
            rw [← (List.cons.inj hbytes).1, ht] at hlead
            cases hlead
          · obtain ⟨outcome, hrest, hbytes⟩ :=
              map_eq_ok_iff.mp ((resolve_cons hb offset rest).symm.trans h)
            cases hbytes
            obtain ⟨left, rfl, hleft⟩ :=
              ih (fun b hb => htail b (List.mem_cons_of_mem _ hb)) hrest
            refine ⟨left, rfl, ?_⟩
            rwa [List.length_cons, Nat.add_comm tail.length, ← Nat.add_assoc]

/-! What stands between the quotes of a string may be taken apart. -/

theorem inside_append {run rest : Bytes}
    (hrun : ∀ b ∈ run, isControl b = false ∧ b ≠ quote ∧ b ≠ backslash) :
    Inside (run ++ rest) ↔ Inside rest := by
  induction run with
  | nil => exact Iff.rfl
  | cons b run ih =>
      obtain ⟨hcontrol, hquote, hbackslash⟩ := hrun b List.mem_cons_self
      have hrest := ih fun b hb => hrun b (List.mem_cons_of_mem _ hb)
      rw [List.cons_append, ← hrest]
      generalize run ++ rest = bs
      constructor
      · intro h
        cases h with
        | plain _ _ _ h => exact h
        | escaped b h => exact absurd rfl hbackslash
      · exact .plain hcontrol hquote hbackslash

theorem inside_plain {b : UInt8} (hb : b ≠ backslash) {rest : Bytes} (h : Inside (b :: rest)) :
    (isControl b = false ∧ b ≠ quote ∧ b ≠ backslash) ∧ Inside rest := by
  cases h with
  | plain hcontrol hquote _ h => exact ⟨⟨hcontrol, hquote, hb⟩, h⟩
  | escaped b h => exact absurd rfl hb

theorem inside_escape {e : Bytes} {c : Char} (he : Escaped e c) {rest : Bytes} :
    Inside (backslash :: (e ++ rest)) ↔ Inside rest := by
  have hopen (letter : UInt8) (left : Bytes) :
      Inside (backslash :: letter :: left) ↔ Inside left := by
    constructor
    · intro h
      cases h with
      | plain _ _ hbackslash _ => exact absurd rfl hbackslash
      | escaped _ h => exact h
    · exact .escaped letter
  cases he with
  | short hc => exact hopen _ rest
  | @numbered a b c d _ _ _ _ hi hj hk hl =>
      refine (hopen _ _).trans (@inside_append [a, b, c, d] rest ?_)
      intro x hx
      simp only [List.mem_cons, List.not_mem_nil, or_false] at hx
      rcases hx with rfl | rfl | rfl | rfl
      · exact plain_of_hexValue? hi
      · exact plain_of_hexValue? hj
      · exact plain_of_hexValue? hk
      · exact plain_of_hexValue? hl

theorem plain_of_isTail {b : UInt8} (h : Utf8.isTail b = true) :
    isControl b = false ∧ b ≠ quote ∧ b ≠ backslash := by
  rw [Utf8.isTail_iff] at h
  rw [Ne, Ne, ← UInt8.toNat_inj, ← UInt8.toNat_inj]
  simp only [isControl, quote, backslash, decide_eq_false_iff_not, UInt8.lt_iff_toNat_lt,
    UInt8.reduceToNat]
  omega

/-- A character may stand for itself if its first byte may. -/
theorem plain_lead_iff {c : Char} {lead : UInt8} {tail : Bytes}
    (h : String.utf8EncodeChar c = lead :: tail) :
    (isControl lead = false ∧ lead ≠ quote ∧ lead ≠ backslash) ↔
      0x20 ≤ c.toNat ∧ c ≠ '\x22' ∧ c ≠ '\x5C' := by
  have hchar (d : Char) : c = d ↔ c.toNat = d.toNat := by
    rw [Char.ext_iff, ← UInt32.toNat_inj]
    rfl
  obtain ⟨_, _, heq, hcompletes⟩ := Utf8.completes_utf8EncodeChar c
  obtain ⟨rfl, rfl⟩ := List.cons.inj (h.symm.trans heq)
  rw [Ne, Ne, Ne, Ne, hchar, hchar, ← UInt8.toNat_inj, ← UInt8.toNat_inj]
  simp only [isControl, quote, backslash, decide_eq_false_iff_not, UInt8.lt_iff_toNat_lt,
    UInt8.reduceToNat]
  change _ ↔ 0x20 ≤ c.toNat ∧ ¬c.toNat = 0x22 ∧ ¬c.toNat = 0x5C
  generalize c.toNat = n at hcompletes
  cases hcompletes with
  | one hlead => omega
  | two hleast hmost hb => omega
  | three hleast hmost hb hc =>
      have hb := Utf8.follows_iff.mp hb
      simp only [Utf8.low]
      omega
  | four hleast hmost hb hc hd =>
      have hb := Utf8.follows_iff.mp hb
      simp only [Utf8.low]
      omega

theorem plain_utf8EncodeChar {c : Char} (hleast : 0x20 ≤ c.toNat) (hquote : c ≠ '\x22')
    (hbackslash : c ≠ '\x5C') :
    ∀ b ∈ String.utf8EncodeChar c, isControl b = false ∧ b ≠ quote ∧ b ≠ backslash := by
  obtain ⟨lead, tail, hbytes, -⟩ := Utf8.completes_utf8EncodeChar c
  intro b hb
  rw [hbytes, List.mem_cons] at hb
  rcases hb with rfl | hb
  · exact (plain_lead_iff hbytes).mpr ⟨hleast, hquote, hbackslash⟩
  · exact plain_of_isTail ((Utf8.isTail_utf8EncodeChar hbytes).2 b hb)

/-- A backslash stands in no other character. -/
theorem backslash_notMem {c : Char} (hc : c ≠ '\x5C') : backslash ∉ String.utf8EncodeChar c := by
  obtain ⟨lead, tail, hbytes, -⟩ := Utf8.completes_utf8EncodeChar c
  intro h
  rw [hbytes, List.mem_cons] at h
  rcases h with rfl | h
  · exact hc (Utf8.eq_ofNat_of_lt hbytes (by decide)).1
  · exact (plain_of_isTail ((Utf8.isTail_utf8EncodeChar hbytes).2 _ h)).2.2 rfl

/-- A text that spells some characters may stand in a string. -/
theorem Spells.inside {raw : Bytes} {cs : List Char} (h : Spells raw cs) : Inside raw := by
  induction h with
  | nil => exact .nil
  | plain hleast hquote hbackslash _ ih =>
      exact (inside_append (plain_utf8EncodeChar hleast hquote hbackslash)).mpr ih
  | escape he _ ih => exact (inside_escape he).mpr ih

/-- A text is resolved to the encoding of what it spells. -/
theorem Spells.resolve {raw : Bytes} {cs : List Char} (h : Spells raw cs) (offset : Nat) :
    resolve offset raw = .ok (Utf8.encode cs) := by
  induction h generalizing offset with
  | nil => rw [Escape.resolve, Utf8.encode_nil]
  | plain hleast hquote hbackslash _ ih =>
      rw [resolve_append (backslash_notMem hbackslash), ih]
      rfl
  | escape he _ ih =>
      rw [resolve_escape he, ih]
      rfl

/-- A text spells one list of characters at most. -/
theorem Spells.unique {raw : Bytes} {cs ds : List Char} (hcs : Spells raw cs)
    (hds : Spells raw ds) : cs = ds := by
  have hresolve := (hcs.resolve 0).symm.trans (hds.resolve 0)
  exact Utf8.encode_injective (Except.ok.inj hresolve)

/-- Where an encoded text begins with a character, that is its first one. -/
theorem encode_eq_append {cs : List Char} {c : Char} {bs : Bytes}
    (h : Utf8.encode cs = String.utf8EncodeChar c ++ bs) :
    ∃ others, cs = c :: others ∧ bs = Utf8.encode others := by
  cases cs with
  | nil =>
      obtain ⟨lead, tail, hbytes, -⟩ := Utf8.completes_utf8EncodeChar c
      rw [hbytes] at h
      cases h
  | cons d others =>
      obtain ⟨rfl, rfl⟩ := Utf8.utf8EncodeChar_append_inj h
      exact ⟨others, rfl, rfl⟩

/-- The characters of a text, with one character in the place of each escape. -/
inductive Replaced : List Char → List Char → Prop
  | nil : Replaced [] []
  | plain {c : Char} {cs ds : List Char} : c ≠ '\x5C' → Replaced cs ds →
      Replaced (c :: cs) (c :: ds)
  | escape {es : List Char} {c : Char} {cs ds : List Char} : Escaped (Utf8.encode es) c →
      Replaced cs ds → Replaced ('\x5C' :: (es ++ cs)) (c :: ds)

theorem encode_escape (es cs : List Char) :
    Utf8.encode ('\x5C' :: (es ++ cs)) = backslash :: (Utf8.encode es ++ Utf8.encode cs) := by
  rw [Utf8.encode_cons, Utf8.encode_append]
  rfl

/-- A text is the encoding of some characters if what it is resolved to is: no byte of an escape
completes a character. -/
theorem replaced_of_resolve {raw : Bytes} {offset : Nat} {ds : List Char}
    (h : resolve offset raw = .ok (Utf8.encode ds)) :
    ∃ cs, raw = Utf8.encode cs ∧ Replaced cs ds := by
  induction hlength : raw.length using Nat.strongRecOn generalizing raw offset ds with
  | ind n ih =>
      cases raw with
      | nil =>
          rw [resolve] at h
          cases ds with
          | nil => exact ⟨[], rfl, .nil⟩
          | cons d ds =>
              obtain ⟨lead, tail, hbytes, -⟩ := Utf8.completes_utf8EncodeChar d
              rw [Utf8.encode_cons, hbytes] at h
              cases h
      | cons b rest =>
          rw [List.length_cons] at hlength
          by_cases hb : b = backslash
          · subst hb
            obtain ⟨e, c, left, outcome, he, rfl, hleft, hbytes⟩ := resolve_escape_ok h
            obtain ⟨others, rfl, rfl⟩ := encode_eq_append hbytes
            rw [List.length_append] at hlength
            obtain ⟨cs, rfl, hreplaced⟩ := ih left.length (by omega) hleft rfl
            obtain ⟨es, rfl⟩ := Utf8.exists_encode_of_lt he.toNat_lt
            exact ⟨'\x5C' :: (es ++ cs), (encode_escape es cs).symm, .escape he hreplaced⟩
          · obtain ⟨outcome, hrest, hbytes⟩ :=
              map_eq_ok_iff.mp ((resolve_cons hb offset rest).symm.trans h)
            cases ds with
            | nil => cases hbytes
            | cons d others =>
                obtain ⟨lead, tail, hd, -⟩ := Utf8.completes_utf8EncodeChar d
                rw [Utf8.encode_cons, hd] at hbytes
                cases hbytes
                obtain ⟨left, rfl, hleft⟩ :=
                  resolve_tail (Utf8.isTail_utf8EncodeChar hd).2 hrest
                rw [List.length_append] at hlength
                obtain ⟨cs, rfl, hreplaced⟩ := ih left.length (by omega) hleft rfl
                refine ⟨d :: cs, by rw [Utf8.encode_cons, hd]; rfl, .plain ?_ hreplaced⟩
                rintro rfl
                cases hd
                exact hb rfl

/-- What a text in a string is resolved to, if it is the encoding of some
characters, is what the text spells. -/
theorem spells_of_resolve {raw : Bytes} (h : Inside raw) {offset : Nat} {ds : List Char}
    (hresolve : resolve offset raw = .ok (Utf8.encode ds)) : Spells raw ds := by
  obtain ⟨cs, rfl, hreplaced⟩ := replaced_of_resolve hresolve
  clear hresolve
  induction hreplaced with
  | nil => exact .nil
  | @plain c cs ds hc _ ih =>
      obtain ⟨lead, tail, hbytes, -⟩ := Utf8.completes_utf8EncodeChar c
      rw [Utf8.encode_cons, hbytes] at h ⊢
      have hlead : lead ≠ backslash := by
        rintro rfl
        exact hc (Utf8.eq_ofNat_of_lt hbytes (by decide)).1
      obtain ⟨hplain, hinside⟩ := inside_plain hlead h
      have htail := (Utf8.isTail_utf8EncodeChar hbytes).2
      have hrest := (inside_append fun b hb => plain_of_isTail (htail b hb)).mp hinside
      obtain ⟨hleast, hquote, hbackslash⟩ := (plain_lead_iff hbytes).mp hplain
      have hspells := Spells.plain hleast hquote hbackslash (ih hrest)
      rwa [hbytes] at hspells
  | @escape es c cs ds he _ ih =>
      rw [encode_escape] at h ⊢
      exact .escape he (ih ((inside_escape he).mp h))

theorem unescape_eq_ok_iff_resolve {raw : Bytes} {offset : Nat} {s : String} :
    unescape raw offset = .ok s ↔ resolve offset raw = .ok (Utf8.encode s.toList) := by
  rw [unescape, resolveOnto_eq]
  cases resolve offset raw with
  | error e => simp [Except.map]
  | ok bs =>
      have htext := @Utf8.toString?_eq_some_iff bs s
      simp only [Except.map, List.reverse_nil, List.nil_append, Except.ok.injEq]
      rw [← Utf8.ofString, ← htext]
      cases Utf8.toString? bs <;> simp

/-- A text in a string is unescaped to what it spells. -/
theorem unescape_eq_ok_iff {raw : Bytes} (h : Inside raw) {offset : Nat} {s : String} :
    unescape raw offset = .ok s ↔ Spells raw s.toList :=
  unescape_eq_ok_iff_resolve.trans ⟨spells_of_resolve h, fun hspells => hspells.resolve offset⟩

end Escape

end FlatJson
