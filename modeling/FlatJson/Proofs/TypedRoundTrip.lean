import FlatJson.Proofs.Carries
import FlatJson.Proofs.Sink

/-!
# Values of a shape are read back

Whatever shape a value has, what is written of it is read as that value again,
but for one thing: an optional value that is there and is written as null is read
as none (`Shape.norm`). So the values of a shape are kept if none of its optional
parts can be written as null (`Shape.Exact`), and only units, values of any shape
and optional values can (`Shape.canBeNull_iff`). How deep the containers lie inside
each other is a matter of the shape as well, unless a part of it is a value of any
shape (`Shape.round_trip_of_depth`).

This is about the shapes that are not written as strings of a form of their own:
dates, times and zones are left out.
-/

namespace FlatJson

open Grammar Codec

namespace Shape

/-- No part of the shape is a catalog type that is written as a string. -/
def unquoted : Shape → Bool
  | duration | instant | offsetDateTime | period | yearMonth | zoneId | zonedDateTime => false
  | option s | list s | boxed s => s.unquoted
  | _ => true

/-- All the floating-point numbers of a value are finite. -/
def AllFinite : (s : Shape) → s.Carrier → Prop
  | single => fun x : Binary32 => x.isFinite = true
  | double => fun x : Binary64 => x.isFinite = true
  | value => fun v : Value => v.AllFinite
  | option s => fun x : Option s.Carrier => ∀ y ∈ x, s.AllFinite y
  | list s => fun xs : List s.Carrier => ∀ x ∈ xs, s.AllFinite x
  | boxed s => s.AllFinite
  | _ => fun _ => True

/-- The number of containers that lie inside each other in what is written of a
value. -/
def nesting : (s : Shape) → s.Carrier → Nat
  | value => fun v : Value => v.height
  | option s => fun x : Option s.Carrier => x.elim 0 s.nesting
  | list s => fun xs : List s.Carrier => xs.foldr (fun x n => max (s.nesting x) n) 0 + 1
  | boxed s => s.nesting
  | _ => fun _ => 0

/-- What a value becomes by being written and read: optional values that are
written as null become none. -/
def norm : (s : Shape) → s.Carrier → s.Carrier
  | option s => fun x : Option s.Carrier =>
    x.bind fun y => if s.codec.toBytes y = .ok Word.null.text then none else some (s.norm y)
  | list s => fun xs : List s.Carrier => xs.map s.norm
  | boxed s => s.norm
  | _ => fun x => x

/-- Some value of the shape is written as null. -/
def CanBeNull (s : Shape) : Prop :=
  ∃ x : s.Carrier, s.codec.toBytes x = .ok Word.null.text

/-- No optional part of the shape can be written as null where it is there. -/
def Exact : Shape → Prop
  | option s => ¬s.CanBeNull ∧ s.Exact
  | list s | boxed s => s.Exact
  | _ => True

theorem nesting_le_of_mem {s : Shape} {x : s.Carrier} {xs : List s.Carrier} (h : x ∈ xs) :
    s.nesting x ≤ xs.foldr (fun x n => max (s.nesting x) n) 0 := by
  induction xs with
  | nil => cases h
  | cons y xs ih =>
      rcases List.mem_cons.mp h with rfl | h
      · exact le_max_left _ _
      · exact (ih h).trans (le_max_right _ _)

/-- Every value of finite numbers is written as the text of a tree, of which its
norm is read. -/
theorem exists_carries (s : Shape) (hs : s.unquoted = true) (v : s.Carrier)
    (hv : s.AllFinite v) : ∃ t, s.codec.Carries t v (s.norm v) ∧ t.height ≤ s.nesting v := by
  induction s with
  | bool => exact ⟨_, carries_bool v, Nat.le_refl 0⟩
  | unit => exact ⟨_, carries_unit v, Nat.le_refl 0⟩
  | integer t =>
      obtain ⟨l, hl⟩ := exists_carries_integer t v
      exact ⟨_, hl, Nat.le_refl 0⟩
  | single =>
      obtain ⟨l, hl⟩ := exists_carries_float Format.binary32_proper (by decide) hv
      exact ⟨_, hl, Nat.le_refl 0⟩
  | double =>
      obtain ⟨l, hl⟩ := exists_carries_float Format.binary64_proper (by decide) hv
      exact ⟨_, hl, Nat.le_refl 0⟩
  | string =>
      obtain ⟨q, hq⟩ := exists_carries_string v
      exact ⟨_, hq, Nat.le_refl 0⟩
  | value =>
      obtain ⟨t, ht, hheight⟩ := exists_carries_value hv
      exact ⟨t, ht, hheight.le⟩
  | bigInteger =>
      obtain ⟨l, hl⟩ := exists_carries_bigInteger v
      exact ⟨_, hl, Nat.le_refl 0⟩
  | bigDecimal =>
      obtain ⟨l, hl⟩ := exists_carries_bigDecimal v
      exact ⟨_, hl, Nat.le_refl 0⟩
  | year =>
      obtain ⟨l, hl⟩ := exists_carries_year v
      exact ⟨_, hl, Nat.le_refl 0⟩
  | option s ih =>
      cases v with
      | none => exact ⟨_, carries_none s.codec, Nat.le_refl 0⟩
      | some x =>
          obtain ⟨t, ht, hheight⟩ := ih hs x (hv x rfl)
          -- A value that is written as null cannot be told from none.
          by_cases hnull : t.text = Word.null.text
          · have hnorm : (option s).norm (some x) = none := if_pos (by rw [ht.toBytes, hnull])
            rw [hnorm]
            exact ⟨t, ht.option_null hnull, hheight⟩
          · have hnorm : (option s).norm (some x) = some (s.norm x) :=
              if_neg fun h => hnull (Except.ok.inj (ht.toBytes.symm.trans h))
            rw [hnorm]
            exact ⟨t, ht.option hnull, hheight⟩
  | list s ih =>
      refine exists_carries_list v fun x hx => ?_
      obtain ⟨t, ht, hheight⟩ := ih hs x (hv x hx)
      exact ⟨t, ht, hheight.trans (nesting_le_of_mem hx)⟩
  | boxed s ih => exact ih hs v hv
  | _ => cases hs

/-- Where no optional part can be written as null, nothing is lost. -/
theorem norm_of_exact (s : Shape) (hs : s.Exact) (v : s.Carrier) : s.norm v = v := by
  induction s with
  | option s ih =>
      cases v with
      | none => rfl
      | some x =>
          have hnorm : (option s).norm (some x) = some (s.norm x) :=
            if_neg fun h => hs.1 ⟨x, h⟩
          rw [hnorm, ih hs.2 x]
  | list s ih =>
      have hmap (xs : List s.Carrier) : xs.map s.norm = xs :=
        (List.map_congr_left fun x _ => ih hs x).trans (List.map_id' xs)
      exact hmap v
  | boxed s ih => exact ih hs v
  | _ => rfl

theorem reads_norm (s : Shape) (hs : s.unquoted = true) (v : s.Carrier) (hv : s.AllFinite v)
    (hdeep : s.nesting v ≤ 256) :
    ∃ bs, s.codec.toBytes v = .ok bs ∧ s.codec.ofBytes bs = .ok (s.norm v) := by
  obtain ⟨t, ht, hheight⟩ := s.exists_carries hs v hv
  exact ⟨t.text, ht.toBytes, ht.ofSource (hheight.trans hdeep)⟩

/-- A value of finite numbers, in which at most 256 containers lie inside each
other, is written, and its norm is read from what was written. That is the value
itself where no optional part of the shape can be written as null. -/
theorem round_trip (s : Shape) (hs : s.unquoted = true) (v : s.Carrier) (hv : s.AllFinite v)
    (hdeep : s.nesting v ≤ 256) :
    (∃ bs, s.codec.toBytes v = .ok bs ∧ s.codec.ofBytes bs = .ok (s.norm v)) ∧
      (s.Exact → ∃ bs, s.codec.toBytes v = .ok bs ∧ s.codec.ofBytes bs = .ok v) := by
  have hread := s.reads_norm hs v hv hdeep
  refine ⟨hread, fun hexact => ?_⟩
  rwa [s.norm_of_exact hexact v] at hread

/-- The list `[null,null]` is written of a unit that is there and of none, and both
are read as none. -/
theorem round_trip_units :
    ∃ bs, (list (option unit)).codec.toBytes [some (), none] = .ok bs ∧
      (list (option unit)).codec.ofBytes bs = .ok [none, none] := by
  have hfinite : (list (option unit)).AllFinite [some (), none] := fun _ _ _ _ => trivial
  exact (round_trip (list (option unit)) rfl [some (), none] hfinite (by decide)).1

/-! How deep the values of a shape are written. -/

/-- The number of lists that lie inside each other in a shape. -/
def depth : Shape → Nat
  | list s => s.depth + 1
  | option s | boxed s => s.depth
  | _ => 0

/-- Some part of the shape is a value of any shape. -/
def hasValue : Shape → Bool
  | value => true
  | option s | list s | boxed s => s.hasValue
  | _ => false

/-- Only values of any shape make what is written deeper than the shape. -/
theorem nesting_le_depth (s : Shape) (hs : s.hasValue = false) (v : s.Carrier) :
    s.nesting v ≤ s.depth := by
  induction s with
  | value => cases hs
  | option s ih =>
      cases v with
      | none => exact Nat.zero_le _
      | some x => exact ih hs x
  | list s ih =>
      have hmost (xs : List s.Carrier) :
          xs.foldr (fun x n => max (s.nesting x) n) 0 ≤ s.depth := by
        induction xs with
        | nil => exact Nat.zero_le _
        | cons x xs ihxs => exact max_le (ih hs x) ihxs
      exact Nat.succ_le_succ (hmost v)
  | boxed s ih => exact ih hs v
  | _ => exact Nat.zero_le _

/-- A shape of which no part is a value of any shape sets a bound to the depth of what is
written, so that every value of finite numbers is kept, however long its lists are. -/
theorem round_trip_of_depth (s : Shape) (hs : s.unquoted = true) (hvalue : s.hasValue = false)
    (hdepth : s.depth ≤ 256) (hexact : s.Exact) (v : s.Carrier) (hv : s.AllFinite v) :
    ∃ bs, s.codec.toBytes v = .ok bs ∧ s.codec.ofBytes bs = .ok v := by
  have hread := s.reads_norm hs v hv ((s.nesting_le_depth hvalue v).trans hdepth)
  rwa [s.norm_of_exact hexact v] at hread

/-! Which shapes can be written as null. -/

/-- The shapes some of whose values are written as null. -/
def nullable : Shape → Bool
  | unit | value | option _ => true
  | boxed s => s.nullable
  | _ => false

theorem toBytes_ne_null {b : UInt8} (hb : b ≠ 0x6E) (bs : Bytes) (e : Emission) :
    Emission.toBytes (.bytes (b :: bs) :: e) ≠ .ok Word.null.text := by
  intro h
  obtain ⟨parts, hparts, hflatten⟩ := Emission.exists_parts h
  cases parts with
  | nil => cases hparts
  | cons part parts =>
      obtain rfl : b :: bs = part := Piece.bytes.inj (List.cons.inj hparts).1
      exact hb (List.cons.inj hflatten).1

/-- A number that is not finite has no text at all. -/
theorem float_not_null {f : Format} (hf : f.Proper)
    (hsmall : f.bias + f.precision + 1 < 10 * Exponent.cap) :
    ¬∃ x : Binary f, (Codec.float f).toBytes x = .ok Word.null.text := by
  rintro ⟨x, hx⟩
  by_cases hfinite : x.isFinite = true
  · obtain ⟨l, hl⟩ := exists_carries_float hf hsmall hfinite
    exact hl.toBytes_ne_null (by rintro ⟨⟩) hx
  · have hemit : (Codec.float f).emit x = [.nonFinite x.nonFiniteName] := if_neg hfinite
    rw [Codec.toBytes, hemit] at hx
    cases hx

/-- What is always written as a lexeme other than the word is never written as
null. -/
theorem not_canBeNull {s : Shape}
    (h : ∀ v : s.Carrier, ∃ x : Lexeme, x ≠ .word .null ∧ s.codec.Carries (.scalar x) v v) :
    ¬s.CanBeNull := by
  rintro ⟨v, hv⟩
  obtain ⟨x, hx, hcarries⟩ := h v
  exact hcarries.toBytes_ne_null (fun hnull => hx (Tree.scalar.inj hnull)) hv

theorem not_canBeNull_of_number {s : Shape}
    (h : ∀ v : s.Carrier, ∃ l : Numeral, s.codec.Carries (.scalar (.number l)) v v) :
    ¬s.CanBeNull :=
  not_canBeNull fun v => (h v).imp' Lexeme.number fun _ hl => ⟨by rintro ⟨⟩, hl⟩

theorem canBeNull_iff (s : Shape) : s.CanBeNull ↔ s.nullable = true := by
  induction s with
  | unit => exact iff_of_true ⟨(), rfl⟩ rfl
  | value => exact iff_of_true ⟨Value.null, rfl⟩ rfl
  | option s _ => exact iff_of_true ⟨none, rfl⟩ rfl
  | boxed s ih => exact ih
  | bool =>
      refine iff_of_false (not_canBeNull fun b => ?_) Bool.false_ne_true
      exact ⟨_, by cases b <;> rintro ⟨⟩, carries_bool b⟩
  | integer t =>
      exact iff_of_false (not_canBeNull_of_number (exists_carries_integer t)) Bool.false_ne_true
  | single =>
      exact iff_of_false (float_not_null Format.binary32_proper (by decide)) Bool.false_ne_true
  | double =>
      exact iff_of_false (float_not_null Format.binary64_proper (by decide)) Bool.false_ne_true
  | string =>
      refine iff_of_false (not_canBeNull fun x => ?_) Bool.false_ne_true
      obtain ⟨q, hq⟩ := exists_carries_string x
      exact ⟨.string q, by rintro ⟨⟩, hq⟩
  | bigInteger =>
      exact iff_of_false (not_canBeNull_of_number exists_carries_bigInteger) Bool.false_ne_true
  | bigDecimal =>
      exact iff_of_false (not_canBeNull_of_number exists_carries_bigDecimal) Bool.false_ne_true
  | year =>
      exact iff_of_false (not_canBeNull_of_number exists_carries_year) Bool.false_ne_true
  | list s _ | duration | instant | offsetDateTime | period | yearMonth | zoneId | zonedDateTime =>
      refine iff_of_false ?_ Bool.false_ne_true
      rintro ⟨x, hx⟩
      exact toBytes_ne_null (by decide) _ _ hx

end Shape

end FlatJson
