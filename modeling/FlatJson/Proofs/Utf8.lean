import FlatJson.Utf8

/-!
# Characters and their bytes

`Completes` says which bytes complete a lead byte to a character. `split` takes
off exactly those, and they are the bytes that encode the character, so that
decoding a text gives the characters that it is the encoding of and no others.
-/

namespace FlatJson

namespace Utf8

theorem isTail_iff {b : UInt8} : isTail b = true ↔ 0x80 ≤ b.toNat ∧ b.toNat ≤ 0xBF := by
  simp only [isTail, Bool.and_eq_true, decide_eq_true_eq, UInt8.le_iff_toNat_le,
    UInt8.reduceToNat]

theorem follows_iff {lead b : UInt8} :
    follows lead b = true ↔
      (0x80 ≤ b.toNat ∧ b.toNat ≤ 0xBF) ∧ (lead.toNat = 0xE0 → 0xA0 ≤ b.toNat) ∧
        (lead.toNat = 0xED → b.toNat ≤ 0x9F) ∧ (lead.toNat = 0xF0 → 0x90 ≤ b.toNat) ∧
        (lead.toNat = 0xF4 → b.toNat ≤ 0x8F) := by
  have heq (k : UInt8) : (lead == k) = true ↔ lead.toNat = k.toNat := by
    rw [beq_iff_eq, UInt8.toNat_inj]
  unfold follows
  simp only [heq, UInt8.reduceToNat]
  repeat' split
  all_goals
    simp only [isTail, Bool.and_eq_true, decide_eq_true_eq, UInt8.le_iff_toNat_le,
      UInt8.reduceToNat]
    omega

/-- The bytes after a lead byte that complete a character, and the number of that
character. -/
inductive Completes (lead : UInt8) : Bytes → Nat → Prop
  | one : lead.toNat < 0x80 → Completes lead [] lead.toNat
  | two {b : UInt8} : 0xC2 ≤ lead.toNat → lead.toNat < 0xE0 → follows lead b = true →
      Completes lead [b] (lead.toNat % 0x20 * 0x40 + low b)
  | three {b c : UInt8} : 0xE0 ≤ lead.toNat → lead.toNat < 0xF0 → follows lead b = true →
      isTail c = true →
      Completes lead [b, c] (lead.toNat % 0x10 * 0x1000 + low b * 0x40 + low c)
  | four {b c d : UInt8} : 0xF0 ≤ lead.toNat → lead.toNat ≤ 0xF4 → follows lead b = true →
      isTail c = true → isTail d = true →
      Completes lead [b, c, d]
        (lead.toNat % 0x08 * 0x40000 + low b * 0x1000 + low c * 0x40 + low d)

theorem split_of_completes {lead : UInt8} {tail : Bytes} {n : Nat} (h : Completes lead tail n)
    (left : Bytes) : split lead (tail ++ left) = (some (Char.ofNat n), left) := by
  rw [split.eq_def]
  simp only [UInt8.lt_iff_toNat_lt, UInt8.reduceToNat, Bool.or_eq_true, decide_eq_true_eq,
    Bool.not_eq_true']
  cases h with
  | one hlead => exact if_pos hlead
  | two hleast hmost hb =>
      rw [if_neg (by omega), if_neg (by omega)]
      simp [hb, hmost]
  | three hleast hmost hb hc =>
      rw [if_neg (by omega), if_neg (by omega)]
      simp [hb, hc, hmost, Nat.not_lt.mpr hleast]
  | four hleast hmost hb hc hd =>
      have hlead : ¬lead.toNat < 0xE0 := by omega
      rw [if_neg (by omega), if_neg (by omega)]
      simp [hb, hc, hd, hlead, Nat.not_lt.mpr hleast]

theorem completes_of_split {lead : UInt8} {rest left : Bytes} {c : Char}
    (h : split lead rest = (some c, left)) :
    ∃ tail n, Completes lead tail n ∧ rest = tail ++ left ∧ c = Char.ofNat n := by
  revert h
  fun_cases split lead rest with
  | case1 _ hlead =>
      intro h
      cases h
      exact ⟨[], _, .one hlead, rfl, rfl⟩
  | case5 hascii hlead b rest hb hmost =>
      intro h
      cases h
      simp only [UInt8.lt_iff_toNat_lt, UInt8.reduceToNat, Bool.or_eq_true, decide_eq_true_eq,
        Bool.not_eq_true', Bool.not_eq_false] at hascii hlead hb hmost
      exact ⟨[b], _, .two (by omega) hmost hb, rfl, rfl⟩
  | case8 hascii hlead b hb hleast c rest hc hmost =>
      intro h
      cases h
      simp only [UInt8.lt_iff_toNat_lt, UInt8.reduceToNat, Bool.not_eq_true',
        Bool.not_eq_false] at hb hleast hc hmost
      exact ⟨[b, c], _, .three (by omega) hmost hb hc, rfl, rfl⟩
  | case11 hascii hlead b hb _ c hc hleast d rest hd =>
      intro h
      cases h
      simp only [UInt8.lt_iff_toNat_lt, UInt8.reduceToNat, Bool.or_eq_true, decide_eq_true_eq,
        Bool.not_eq_true', Bool.not_eq_false] at hlead hb hc hleast hd
      exact ⟨[b, c, d], _, .four (by omega) (by omega) hb hc hd, rfl, rfl⟩
  | case2 | case3 | case4 | case6 | case7 | case9 | case10 => rintro ⟨⟩

/-- The bytes that complete a lead byte continue the character. -/
theorem Completes.isTail {lead : UInt8} {tail : Bytes} {n : Nat} (h : Completes lead tail n) :
    ∀ b ∈ tail, isTail b = true := by
  have hfollows {b : UInt8} (hb : follows lead b = true) : Utf8.isTail b = true :=
    isTail_iff.mpr (follows_iff.mp hb).1
  cases h <;> simp_all

theorem Completes.not_isTail {lead : UInt8} {tail : Bytes} {n : Nat}
    (h : Completes lead tail n) : Utf8.isTail lead = false := by
  rw [← Bool.not_eq_true, isTail_iff]
  cases h <;> omega

theorem toNat_ofNat {n : Nat} (h : n.isValidChar) : (Char.ofNat n).val.toNat = n := by
  rw [Char.ofNat, dif_pos h]
  rfl

theorem ofNat_eq_iff {n : Nat} {b : UInt8} : UInt8.ofNat n = b ↔ n % 256 = b.toNat := by
  rw [← UInt8.toNat_inj, UInt8.toNat_ofNat']

/-- The bytes of a character are its lead byte and those that complete it. -/
theorem Completes.utf8EncodeChar {lead : UInt8} {tail : Bytes} {n : Nat}
    (h : Completes lead tail n) :
    n.isValidChar ∧ String.utf8EncodeChar (Char.ofNat n) = lead :: tail := by
  have hvalid : n.isValidChar := by
    unfold Nat.isValidChar
    cases h with
    | one hlead => omega
    | two hleast hmost hb =>
        simp only [low]
        omega
    | three hleast hmost hb hc =>
        have hb := follows_iff.mp hb
        simp only [low]
        omega
    | four hleast hmost hb hc hd =>
        have hb := follows_iff.mp hb
        simp only [low]
        omega
  refine ⟨hvalid, ?_⟩
  rw [String.utf8EncodeChar, toNat_ofNat hvalid]
  cases h with
  | one hlead =>
      rw [if_pos (by omega), UInt8.ofNat_toNat]
  | two hleast hmost hb =>
      have hb := follows_iff.mp hb
      rw [if_neg (by simp only [low]; omega), if_pos (by simp only [low]; omega)]
      simp only [List.cons.injEq, ofNat_eq_iff, low, and_true]
      omega
  | three hleast hmost hb hc =>
      have hb := follows_iff.mp hb
      have hc := isTail_iff.mp hc
      rw [if_neg (by simp only [low]; omega), if_neg (by simp only [low]; omega),
        if_pos (by simp only [low]; omega)]
      simp only [List.cons.injEq, ofNat_eq_iff, low, and_true]
      omega
  | four hleast hmost hb hc hd =>
      have hb := follows_iff.mp hb
      have hc := isTail_iff.mp hc
      have hd := isTail_iff.mp hd
      rw [if_neg (by simp only [low]; omega), if_neg (by simp only [low]; omega),
        if_neg (by simp only [low]; omega)]
      simp only [List.cons.injEq, ofNat_eq_iff, low, and_true]
      omega

/-- Every character has a lead byte and bytes that complete it. -/
theorem exists_completes {n : Nat} (h : n.isValidChar) :
    ∃ lead tail, String.utf8EncodeChar (Char.ofNat n) = lead :: tail ∧
      Completes lead tail n := by
  have hbyte {m : Nat} (h : m < 256) : (UInt8.ofNat m).toNat = m :=
    UInt8.toNat_ofNat_of_lt' h
  rw [String.utf8EncodeChar, toNat_ofNat h]
  unfold Nat.isValidChar at h
  split
  · have hone := @Completes.one (UInt8.ofNat n)
    rw [hbyte (by omega)] at hone
    exact ⟨_, _, rfl, hone (by omega)⟩
  · split
    · have htwo := @Completes.two (UInt8.ofNat (n / 64 % 0x20 + 0xC0))
        (UInt8.ofNat (n % 0x40 + 0x80))
      have hnumber : (n / 64 % 0x20 + 0xC0) % 0x20 * 0x40 + (n % 0x40 + 0x80) % 0x40 = n := by
        omega
      simp only [follows_iff, low] at htwo
      rw [hbyte (by omega), hbyte (by omega), hnumber] at htwo
      exact ⟨_, _, rfl, htwo (by omega) (by omega) (by omega)⟩
    · split
      · have hthree := @Completes.three (UInt8.ofNat (n / 4096 % 0x10 + 0xE0))
          (UInt8.ofNat (n / 64 % 0x40 + 0x80)) (UInt8.ofNat (n % 0x40 + 0x80))
        have hnumber : (n / 4096 % 0x10 + 0xE0) % 0x10 * 0x1000 +
            (n / 64 % 0x40 + 0x80) % 0x40 * 0x40 + (n % 0x40 + 0x80) % 0x40 = n := by
          omega
        simp only [follows_iff, isTail_iff, low] at hthree
        rw [hbyte (by omega), hbyte (by omega), hbyte (by omega), hnumber] at hthree
        exact ⟨_, _, rfl, hthree (by omega) (by omega) (by omega) (by omega)⟩
      · have hfour := @Completes.four (UInt8.ofNat (n / 262144 % 0x08 + 0xF0))
          (UInt8.ofNat (n / 4096 % 0x40 + 0x80)) (UInt8.ofNat (n / 64 % 0x40 + 0x80))
          (UInt8.ofNat (n % 0x40 + 0x80))
        have hnumber : (n / 262144 % 0x08 + 0xF0) % 0x08 * 0x40000 +
            (n / 4096 % 0x40 + 0x80) % 0x40 * 0x1000 + (n / 64 % 0x40 + 0x80) % 0x40 * 0x40 +
            (n % 0x40 + 0x80) % 0x40 = n := by
          omega
        simp only [follows_iff, isTail_iff, low] at hfour
        rw [hbyte (by omega), hbyte (by omega), hbyte (by omega), hbyte (by omega),
          hnumber] at hfour
        exact ⟨_, _, rfl, hfour (by omega) (by omega) (by omega) (by omega) (by omega)⟩

theorem completes_utf8EncodeChar (c : Char) :
    ∃ lead tail, String.utf8EncodeChar c = lead :: tail ∧ Completes lead tail c.toNat := by
  have hvalid : c.toNat.isValidChar := c.valid
  have h := exists_completes hvalid
  rwa [Char.ofNat_toNat] at h

/-- A character is taken off where its bytes stand, and nowhere else. -/
theorem split_eq_some_iff {lead : UInt8} {rest left : Bytes} {c : Char} :
    split lead rest = (some c, left) ↔
      ∃ tail, String.utf8EncodeChar c = lead :: tail ∧ rest = tail ++ left := by
  constructor
  · intro h
    obtain ⟨tail, n, hcompletes, rfl, rfl⟩ := completes_of_split h
    exact ⟨tail, hcompletes.utf8EncodeChar.2, rfl⟩
  · intro h
    rcases h with ⟨tail, hbytes, rfl⟩
    obtain ⟨_, _, heq, hcompletes⟩ := completes_utf8EncodeChar c
    obtain ⟨rfl, rfl⟩ := List.cons.inj (hbytes.symm.trans heq)
    rw [split_of_completes hcompletes, Char.ofNat_toNat]

/-- Where two texts that begin with a character agree, the characters do. -/
theorem utf8EncodeChar_append_inj {c d : Char} {p q : Bytes}
    (h : String.utf8EncodeChar c ++ p = String.utf8EncodeChar d ++ q) : c = d ∧ p = q := by
  obtain ⟨lead, tail, hc, -⟩ := completes_utf8EncodeChar c
  obtain ⟨lead', tail', hd, -⟩ := completes_utf8EncodeChar d
  rw [hc, hd, List.cons_append, List.cons_append] at h
  obtain ⟨rfl, htail⟩ := List.cons.inj h
  have hfirst : split lead (tail ++ p) = (some c, p) := split_eq_some_iff.mpr ⟨tail, hc, rfl⟩
  have hsecond : split lead (tail ++ p) = (some d, q) := split_eq_some_iff.mpr ⟨tail', hd, htail⟩
  rw [hfirst] at hsecond
  cases hsecond
  exact ⟨rfl, rfl⟩

/-- The bytes of a character behind its lead byte continue it, and the lead byte
continues none. -/
theorem isTail_utf8EncodeChar {c : Char} {lead : UInt8} {tail : Bytes}
    (h : String.utf8EncodeChar c = lead :: tail) :
    isTail lead = false ∧ ∀ b ∈ tail, isTail b = true := by
  obtain ⟨_, _, heq, hcompletes⟩ := completes_utf8EncodeChar c
  obtain ⟨rfl, rfl⟩ := List.cons.inj (h.symm.trans heq)
  exact ⟨hcompletes.not_isTail, hcompletes.isTail⟩

/-- A character below 128 is one byte. -/
theorem utf8EncodeChar_ofNat {b : UInt8} (h : b.toNat < 0x80) :
    String.utf8EncodeChar (Char.ofNat b.toNat) = [b] :=
  (Completes.one h).utf8EncodeChar.2

theorem eq_ofNat_of_lt {c : Char} {lead : UInt8} {tail : Bytes}
    (h : String.utf8EncodeChar c = lead :: tail) (hlead : lead.toNat < 0x80) :
    c = Char.ofNat lead.toNat ∧ tail = [] := by
  have hbytes : String.utf8EncodeChar c ++ [] =
      String.utf8EncodeChar (Char.ofNat lead.toNat) ++ tail := by
    rw [utf8EncodeChar_ofNat hlead, h, List.append_nil, List.singleton_append]
  obtain ⟨hc, htail⟩ := utf8EncodeChar_append_inj hbytes
  exact ⟨hc, htail.symm⟩

theorem sound_encode (cs : List Char) : sound (encode cs) = (cs, []) := by
  induction cs with
  | nil => rw [encode_nil, sound]
  | cons c cs ih =>
      obtain ⟨lead, tail, hbytes, -⟩ := completes_utf8EncodeChar c
      have hsplit : split lead (tail ++ encode cs) = (some c, encode cs) :=
        split_eq_some_iff.mpr ⟨tail, hbytes, rfl⟩
      rw [encode_cons, hbytes, List.cons_append, sound]
      split
      · next d left h =>
          rw [hsplit] at h
          cases h
          rw [ih]
      · next h =>
          rw [hsplit] at h
          cases h

theorem encode_sound (bs : Bytes) : encode (sound bs).1 ++ (sound bs).2 = bs := by
  fun_induction sound bs with
  | case1 => rfl
  | case2 lead rest c left h _ ih =>
      obtain ⟨tail, hbytes, rfl⟩ := split_eq_some_iff.mp h
      rw [encode_cons, hbytes, List.cons_append, List.cons_append, List.append_assoc, ih]
  | case3 lead rest left h => rfl

/-- A text stores the characters that it is the encoding of. -/
theorem decode?_eq_some_iff {bs : Bytes} {cs : List Char} :
    decode? bs = some cs ↔ bs = encode cs := by
  rw [decode?_eq]
  constructor
  · intro h
    split at h
    · next hnil =>
        cases h
        rw [← List.append_nil (encode _), ← hnil, encode_sound]
    · cases h
  · rintro rfl
    rw [sound_encode, if_pos rfl]

theorem encode_injective : Function.Injective encode := by
  intro cs ds h
  have hdecode := decode?_eq_some_iff.mpr h
  rw [decode?_eq_some_iff.mpr rfl] at hdecode
  exact Option.some.inj hdecode

theorem toString?_eq_some_iff {bs : Bytes} {s : String} :
    toString? bs = some s ↔ bs = ofString s := by
  rw [toString?, Option.map_eq_some_iff, ofString, ← decode?_eq_some_iff]
  constructor
  · intro h
    rcases h with ⟨cs, hcs, rfl⟩
    rwa [String.toList_ofList]
  · intro h
    exact ⟨s.toList, h, String.ofList_toList⟩

/-! An encoded text may be cut in front of every byte that continues no character. -/

theorem encode_cut {cs : List Char} {front rest : Bytes} {b : UInt8}
    (h : encode cs = front ++ b :: rest) (hb : isTail b = false) :
    ∃ ps qs, front = encode ps ∧ b :: rest = encode qs := by
  induction cs generalizing front with
  | nil => simp at h
  | cons c cs ih =>
      obtain ⟨lead, tail, hbytes, -⟩ := completes_utf8EncodeChar c
      cases front with
      | nil => exact ⟨[], c :: cs, rfl, h.symm⟩
      | cons f front =>
          rw [encode_cons, hbytes] at h
          obtain ⟨rfl, hrest⟩ := List.cons.inj h
          rcases List.append_eq_append_iff.mp hrest with ⟨more, rfl, hcs⟩ | ⟨more, htail, hcs⟩
          · obtain ⟨ps, qs, rfl, hqs⟩ := ih hcs
            exact ⟨c :: ps, qs, by rw [encode_cons, hbytes]; rfl, hqs⟩
          · cases more with
            | nil =>
                have hnil : encode cs = [] ++ b :: rest := hcs.symm
                obtain ⟨ps, qs, hps, hqs⟩ := ih hnil
                refine ⟨c :: ps, qs, ?_, hqs⟩
                rw [encode_cons, ← hps, hbytes, htail, List.append_nil, List.append_nil]
            | cons m more =>
                -- The cut would be behind the first byte of the character.
                obtain ⟨rfl, -⟩ := List.cons.inj hcs
                have hmore : b ∈ tail := htail ▸ List.mem_append_right _ List.mem_cons_self
                rw [(isTail_utf8EncodeChar hbytes).2 b hmore] at hb
                cases hb

/-- Characters of one byte are UTF-8. -/
theorem exists_encode_of_lt {bs : Bytes} (h : ∀ b ∈ bs, b.toNat < 0x80) :
    ∃ cs, bs = encode cs := by
  induction bs with
  | nil => exact ⟨[], rfl⟩
  | cons b bs ih =>
      obtain ⟨hb, hbs⟩ := List.forall_mem_cons.mp h
      obtain ⟨cs, rfl⟩ := ih hbs
      exact ⟨Char.ofNat b.toNat :: cs, by rw [encode_cons, utf8EncodeChar_ofNat hb]; rfl⟩

/-- What follows some bytes below 128 in an encoded text is encoded itself, and so are they. -/
theorem exists_encode_of_append {cs : List Char} {front rest : Bytes}
    (hfront : ∀ b ∈ front, b.toNat < 0x80) (h : encode cs = front ++ rest) :
    ∃ es ds, cs = es ++ ds ∧ front = encode es ∧ rest = encode ds := by
  induction front generalizing cs with
  | nil => exact ⟨[], cs, rfl, rfl, h.symm⟩
  | cons b front ih =>
      cases cs with
      | nil => cases h
      | cons c cs =>
          obtain ⟨lead, tail, hbytes, -⟩ := completes_utf8EncodeChar c
          rw [encode_cons, hbytes] at h
          obtain ⟨rfl, hrest⟩ := List.cons.inj h
          obtain ⟨-, rfl⟩ := eq_ofNat_of_lt hbytes (hfront lead List.mem_cons_self)
          obtain ⟨es, ds, rfl, rfl, rfl⟩ :=
            ih (fun b hb => hfront b (List.mem_cons_of_mem _ hb)) hrest
          exact ⟨c :: es, ds, rfl, by rw [encode_cons, hbytes]; rfl, rfl⟩

end Utf8

end FlatJson
