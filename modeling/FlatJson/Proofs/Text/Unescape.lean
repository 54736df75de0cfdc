import FlatJson.Proofs.Text.Spelling

/-!
# Unescaping any text

Whatever stands in a raw text, one of three things comes of it (`Unescapes`). Read from left
to right, a backslash may start no escape: the text is refused there, be it UTF-8 or not. If
all escapes are understood, UTF-8 is unescaped to its characters, with one character in the
place of each escape, and what is no UTF-8 is refused as a whole.

The outcome is decoded after the escapes have been replaced. That makes no difference: an
escape is made of whole characters, and so is what stands for it, so that the text in front
of an escape and the text behind it are unescaped on their own.
-/

namespace FlatJson

namespace Escape

open Ascii Grammar

/-- Read from left to right, every backslash of a raw text starts an escape. -/
inductive Understood : Bytes → Prop
  | nil : Understood []
  | plain {b : UInt8} {rest : Bytes} : b ≠ backslash → Understood rest → Understood (b :: rest)
  | escape {e : Bytes} {c : Char} {rest : Bytes} : Escaped e c → Understood rest →
      Understood (backslash :: (e ++ rest))

/-- Read from left to right, a raw text is understood up to a backslash that starts no
escape. -/
structure Stuck (raw before rest : Bytes) : Prop where
  split : raw = before ++ backslash :: rest
  understood : Understood before
  noEscape : ∀ e c left, Escaped e c → rest ≠ e ++ left

/-- What comes of a raw text at an offset: a refusal at its first backslash that starts no
escape, or else, if it is UTF-8, its characters with the escapes replaced, and if not, a refusal
of the whole. -/
inductive Unescapes (raw : Bytes) (offset : Nat) : Except ReadFault String → Prop
  | refused {before rest : Bytes} : Stuck raw before rest →
      Unescapes raw offset
        (.error (.of .badEscape (shown (backslash :: rest)) (offset + before.length)))
  | replaced {cs ds : List Char} : raw = Utf8.encode cs → Replaced cs ds →
      Unescapes raw offset (.ok (String.ofList ds))
  | undecodable : Understood raw → (∀ cs, raw ≠ Utf8.encode cs) →
      Unescapes raw offset (.error (.of .invalidUtf8 raw offset))

theorem read?_eq_none_iff {rest : Bytes} :
    read? rest = none ↔ ∀ e c left, Escaped e c → rest ≠ e ++ left := by
  constructor
  · rintro h e c left he rfl
    cases h.symm.trans (read?_eq_some_iff.mpr ⟨e, c, he, rfl, rfl⟩)
  · intro h
    cases hread : read? rest with
    | none => rfl
    | some escape =>
        obtain ⟨e, c, he, hrest, -⟩ := read?_eq_some_iff.mp hread
        exact absurd hrest (h e c _ he)

/-- Every raw text is understood, or understood up to some backslash. -/
theorem understood_or_stuck : (raw : Bytes) →
    Understood raw ∨ ∃ before rest, Stuck raw before rest
  | [] => .inl .nil
  | b :: rest => by
      by_cases hb : b = backslash
      · subst hb
        cases hread : read? rest with
        | none => exact .inr ⟨[], rest, rfl, .nil, read?_eq_none_iff.mp hread⟩
        | some escape =>
            obtain ⟨meaning, left⟩ := escape
            have hshort : left.length < rest.length := length_read?_lt hread
            obtain ⟨e, c, he, hrest, -⟩ := read?_eq_some_iff.mp hread
            rw [hrest]
            rcases understood_or_stuck left with h | ⟨before, more, h⟩
            · exact .inl (.escape he h)
            · refine .inr ⟨backslash :: (e ++ before), more, ?_, .escape he h.understood,
                h.noEscape⟩
              rw [h.split, List.cons_append, List.append_assoc]
      · rcases understood_or_stuck rest with h | ⟨before, more, h⟩
        · exact .inl (.plain hb h)
        · exact .inr ⟨b :: before, more, congrArg _ h.split, .plain hb h.understood, h.noEscape⟩
termination_by raw => raw.length
decreasing_by
  · exact Nat.lt_succ_of_lt hshort
  · exact Nat.lt_succ_self _

/-- What is understood is resolved on its own, whatever follows. -/
theorem Understood.resolve_append {before : Bytes} (h : Understood before) :
    ∃ bs, ∀ offset rest, resolve offset (before ++ rest) =
      (resolve (offset + before.length) rest).map (bs ++ ·) := by
  induction h with
  | nil =>
      refine ⟨[], fun offset rest => ?_⟩
      cases hrest : resolve offset rest <;> simp [hrest, Except.map]
  | @plain b rest hb _ ih =>
      obtain ⟨bs, hbs⟩ := ih
      refine ⟨b :: bs, fun offset after => ?_⟩
      rw [List.cons_append, resolve_cons hb, hbs, List.length_cons, Nat.add_comm rest.length,
        ← Nat.add_assoc]
      cases resolve (offset + 1 + rest.length) after <;> rfl
  | @escape e c rest he _ ih =>
      obtain ⟨bs, hbs⟩ := ih
      refine ⟨String.utf8EncodeChar c ++ bs, fun offset after => ?_⟩
      have hlength : offset + (backslash :: (e ++ rest)).length =
          offset + (e.length + 1) + rest.length := by
        rw [List.length_cons, List.length_append]
        omega
      rw [List.cons_append, List.append_assoc, resolve_escape he, hbs, hlength]
      cases resolve (offset + (e.length + 1) + rest.length) after <;> simp [Except.map]

theorem Understood.exists_resolved {before : Bytes} (h : Understood before) :
    ∃ bs, (∀ offset, resolve offset before = .ok bs) ∧
      ∀ offset rest, resolve offset (before ++ rest) =
        (resolve (offset + before.length) rest).map (bs ++ ·) := by
  obtain ⟨bs, hbs⟩ := h.resolve_append
  refine ⟨bs, fun offset => ?_, hbs⟩
  have hbefore := hbs offset []
  rwa [List.append_nil, resolve, Except.map, List.append_nil] at hbefore

theorem Stuck.resolve {raw before rest : Bytes} (h : Stuck raw before rest) (offset : Nat) :
    resolve offset raw = .error (offset + before.length, backslash :: rest) := by
  obtain ⟨bs, hbs⟩ := h.understood.resolve_append
  rw [h.split, hbs, resolve_none (read?_eq_none_iff.mpr h.noEscape)]
  rfl

theorem Replaced.resolve {cs ds : List Char} (h : Replaced cs ds) (offset : Nat) :
    resolve offset (Utf8.encode cs) = .ok (Utf8.encode ds) := by
  induction h generalizing offset with
  | nil => rw [Utf8.encode_nil, Escape.resolve]
  | plain hc _ ih =>
      rw [Utf8.encode_cons, resolve_append (backslash_notMem hc), ih]
      rfl
  | escape he _ ih =>
      rw [encode_escape, resolve_escape he, ih]
      rfl

theorem Understood.of_append {run rest : Bytes} (hrun : backslash ∉ run)
    (h : Understood (run ++ rest)) : Understood rest := by
  induction run with
  | nil => exact h
  | cons b run ih =>
      rw [List.mem_cons, not_or] at hrun
      rw [List.cons_append] at h
      generalize hbytes : run ++ rest = bs at h
      cases h with
      | plain _ h => exact ih hrun.2 (hbytes ▸ h)
      | escape _ _ => exact absurd rfl hrun.1

/-- Where all escapes of some characters are understood, they can be replaced. -/
theorem exists_replaced : (cs : List Char) → Understood (Utf8.encode cs) → ∃ ds, Replaced cs ds
  | [], _ => ⟨[], .nil⟩
  | c :: cs, h => by
      by_cases hc : c = '\x5C'
      · subst hc
        have hescape : Understood (backslash :: Utf8.encode cs) := h
        generalize hbytes : Utf8.encode cs = bs at hescape
        cases hescape with
        | plain hb _ => exact absurd rfl hb
        | escape he hrest =>
            -- An escape takes whole characters along, so characters are left behind it.
            obtain ⟨es, qs, hsplit, rfl, rfl⟩ := Utf8.exists_encode_of_append he.toNat_lt hbytes
            have hshort : qs.length ≤ cs.length := by
              rw [hsplit, List.length_append]
              exact Nat.le_add_left _ _
            rw [hsplit]
            obtain ⟨ds, hds⟩ := exists_replaced qs hrest
            exact ⟨_, .escape he hds⟩
      · obtain ⟨ds, hds⟩ := exists_replaced cs (h.of_append (backslash_notMem hc))
        exact ⟨c :: ds, .plain hc hds⟩
termination_by cs => cs.length
decreasing_by
  · exact Nat.lt_succ_of_le hshort
  · exact Nat.lt_succ_self _

/-- What can come of a raw text is what comes of it. -/
theorem Unescapes.eq {raw : Bytes} {offset : Nat} {outcome : Except ReadFault String}
    (h : Unescapes raw offset outcome) : unescape raw offset = outcome := by
  cases h with
  | refused h =>
      rw [unescape, resolveOnto_eq, h.resolve]
      rfl
  | replaced hraw h =>
      rw [hraw, unescape_eq_ok_iff_resolve, String.toList_ofList]
      exact h.resolve offset
  | undecodable h hnone =>
      obtain ⟨bs, hbs, -⟩ := h.exists_resolved
      rw [unescape, resolveOnto_eq, hbs]
      cases htext : Utf8.toString? bs with
      | none => simp [Except.map, htext]
      | some s =>
          -- Then the raw text would have been UTF-8 as well.
          obtain rfl := Utf8.toString?_eq_some_iff.mp htext
          obtain ⟨cs, hcs, -⟩ := replaced_of_resolve (hbs offset)
          exact absurd hcs (hnone cs)

theorem exists_unescapes (raw : Bytes) (offset : Nat) :
    ∃ outcome, Unescapes raw offset outcome := by
  rcases understood_or_stuck raw with h | ⟨before, rest, h⟩
  · by_cases hraw : ∃ cs, raw = Utf8.encode cs
    · obtain ⟨cs, rfl⟩ := hraw
      obtain ⟨ds, hds⟩ := exists_replaced cs h
      exact ⟨_, .replaced rfl hds⟩
    · exact ⟨_, .undecodable h (not_exists.mp hraw)⟩
  · exact ⟨_, .refused h⟩

/-- A text with an escape in it is unescaped if and only if the text in front of the escape
and the text behind it are, each on its own. -/
theorem unescape_around {before after e : Bytes} {c : Char} (hbefore : Understood before)
    (he : Escaped e c) (offset : Nat) (s : String) :
    unescape (before ++ backslash :: (e ++ after)) offset = .ok s ↔
      ∃ p q, unescape before offset = .ok p ∧
        unescape after (offset + before.length + (e.length + 1)) = .ok q ∧
        s.toList = p.toList ++ c :: q.toList := by
  obtain ⟨bs, hbs, happend⟩ := hbefore.exists_resolved
  simp only [unescape_eq_ok_iff_resolve, hbs, happend, resolve_escape he]
  constructor
  · intro h
    obtain ⟨outcome, hescape, hbytes⟩ := map_eq_ok_iff.mp h
    obtain ⟨left, hleft, rfl⟩ := map_eq_ok_iff.mp hescape
    obtain ⟨lead, tail, hc, -⟩ := Utf8.completes_utf8EncodeChar c
    -- The outcome is cut in front of the escaped character, whose first byte continues none.
    have hcut : Utf8.encode s.toList = bs ++ lead :: (tail ++ left) := by
      rw [hbytes, hc, List.cons_append]
    obtain ⟨ps, qs, hps, hqs⟩ := Utf8.encode_cut hcut (Utf8.isTail_utf8EncodeChar hc).1
    rw [← List.cons_append, ← hc] at hqs
    obtain ⟨others, rfl, rfl⟩ := encode_eq_append hqs.symm
    refine ⟨String.ofList ps, String.ofList others, ?_, ?_, ?_⟩
    · rw [String.toList_ofList, hps]
    · rw [String.toList_ofList, hleft]
    · rw [String.toList_ofList, String.toList_ofList]
      apply Utf8.encode_injective
      rw [hbytes, Utf8.encode_append, Utf8.encode_cons, hps]
  · rintro ⟨p, q, hp, hq, hs⟩
    cases hp
    rw [hq, hs, Utf8.encode_append, Utf8.encode_cons]
    rfl

/-- Unescaping is exact. A text is refused at its first backslash that starts no escape; if
there is none, UTF-8 is unescaped to its characters with the escapes replaced, and all else is
refused as no UTF-8. An escape divides a text: it neither completes nor hides a part of a
character next to it. -/
theorem unescape_exact (raw : Bytes) (offset : Nat) :
    (∀ outcome, unescape raw offset = outcome ↔ Unescapes raw offset outcome) ∧
      ∀ before e c after, raw = before ++ backslash :: (e ++ after) → Understood before →
        Escaped e c → ∀ s, unescape raw offset = .ok s ↔
          ∃ p q, unescape before offset = .ok p ∧
            unescape after (offset + before.length + (e.length + 1)) = .ok q ∧
            s.toList = p.toList ++ c :: q.toList := by
  refine ⟨fun outcome => ⟨?_, Unescapes.eq⟩, ?_⟩
  · rintro rfl
    obtain ⟨outcome, h⟩ := exists_unescapes raw offset
    rwa [h.eq]
  · rintro before e c after rfl hbefore he s
    exact unescape_around hbefore he offset s

/-- An escape behind the three bytes of `€` is a character of its own, and one between them
leaves neither side a character. -/
theorem unescape_exact_divided :
    unescape [0xE2, 0x82, 0xAC, 0x5C, 0x6E] 7 = .ok "€\n" ∧
      unescape [0xE2, 0x82, 0x5C, 0x6E, 0xAC] 7 =
        .error (.of .invalidUtf8 [0xE2, 0x82, 0x5C, 0x6E, 0xAC] 7) := by
  have hnewline : Escaped [0x6E] '\n' := .short (by decide)
  constructor
  · have hbefore : Understood [0xE2, 0x82, 0xAC] :=
      .plain (by decide) (.plain (by decide) (.plain (by decide) .nil))
    have heuro : unescape [0xE2, 0x82, 0xAC] 7 = .ok "€" :=
      ((unescape_exact [0xE2, 0x82, 0xAC] 7).1 _).mpr
        (.replaced (by decide) (.plain (by decide) .nil))
    have hnothing : unescape [] 12 = .ok "" :=
      ((unescape_exact [] 12).1 _).mpr (.replaced rfl .nil)
    exact ((unescape_exact [0xE2, 0x82, 0xAC, 0x5C, 0x6E] 7).2 [0xE2, 0x82, 0xAC] [0x6E] '\n' []
      rfl hbefore hnewline "€\n").mpr ⟨"€", "", heuro, hnothing, rfl⟩
  · have hraw : Understood [0xE2, 0x82, 0x5C, 0x6E, 0xAC] :=
      .plain (by decide) (.plain (by decide) (.escape hnewline (.plain (by decide) .nil)))
    refine ((unescape_exact [0xE2, 0x82, 0x5C, 0x6E, 0xAC] 7).1 _).mpr (.undecodable hraw ?_)
    intro cs hcs
    have hnone : Utf8.decode? [0xE2, 0x82, 0x5C, 0x6E, 0xAC] = none := by
      rw [Utf8.decode?_eq, Utf8.sound]
      rfl
    cases hnone.symm.trans (Utf8.decode?_eq_some_iff.mpr hcs)

end Escape

end FlatJson
