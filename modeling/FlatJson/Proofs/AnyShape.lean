import FlatJson.Proofs.Catalog.Plain
import FlatJson.Proofs.TypedRoundTrip

/-!
# What is written of a value of any shape

Only a number that is not finite cannot be written, so that the numbers of a value
that has been written are finite (`Shape.allFinite_of_complete`). Then the value is
written as the text of a tree, whether or not it is read back from that: catalog types
that are written as strings need not be (`Shape.exists_tree`).
-/

namespace FlatJson

open Grammar

namespace Emission

/-- All the pieces of an emission are bytes. -/
def Complete (e : Emission) : Prop :=
  ∀ piece ∈ e, ∃ bs, piece = .bytes bs

theorem complete_append {d e : Emission} : Complete (d ++ e) ↔ d.Complete ∧ e.Complete :=
  List.forall_mem_append

theorem complete_of_toBytes {e : Emission} {bs : Bytes} (h : e.toBytes = .ok bs) :
    e.Complete := by
  obtain ⟨parts, rfl, -⟩ := exists_parts h
  intro piece hpiece
  obtain ⟨part, -, rfl⟩ := List.mem_map.mp hpiece
  exact ⟨part, rfl⟩

/-- Bytes are written as they are. -/
theorem Complete.exists_writes {e : Emission} (h : e.Complete) : ∃ bs, e.Writes bs := by
  induction e with
  | nil => exact ⟨[], writes_nil⟩
  | cons piece e ih =>
      obtain ⟨⟨bs, rfl⟩, hrest⟩ := List.forall_mem_cons.mp h
      obtain ⟨cs, hcs⟩ := ih hrest
      exact ⟨bs ++ cs, hcs.cons bs⟩

theorem Writes.complete {e : Emission} {bs : Bytes} (h : e.Writes bs) : e.Complete :=
  complete_of_toBytes (toBytes_of_writes h)

theorem complete_of_separated : ∀ {es : List Emission}, Complete (separated es) →
    ∀ e ∈ es, e.Complete
  | [], _, e, he => by cases he
  | [d], h, e, he => by
      obtain rfl := List.mem_singleton.mp he
      exact h
  | d :: f :: es, h, e, he => by
      obtain ⟨hfirst, hothers⟩ := complete_append.mp h
      rcases List.mem_cons.mp he with rfl | he
      · exact hfirst
      · exact complete_of_separated (complete_append.mp hothers).2 e he

theorem complete_of_array {es : List Emission} (h : Complete (array es)) :
    ∀ e ∈ es, e.Complete :=
  complete_of_separated (complete_append.mp (complete_append.mp h).2).1

theorem complete_of_object {es : List Emission} (h : Complete (object es)) :
    ∀ e ∈ es, e.Complete :=
  complete_of_separated (complete_append.mp (complete_append.mp h).2).1

theorem complete_of_member {name : String} {e : Emission} (h : Complete (member name e)) :
    e.Complete :=
  (complete_append.mp (complete_append.mp h).2).2

theorem isFinite_of_complete {f : Format} {x : Binary f} (h : Complete (float x)) :
    x.isFinite = true := by
  by_contra hx
  rw [float, if_neg hx] at h
  obtain ⟨bs, hbs⟩ := h _ List.mem_cons_self
  cases hbs

end Emission

open Emission

namespace Value

mutual

theorem allFinite_of_complete : ∀ v : Value, v.emit.Complete → v.AllFinite
  | .null, _ => trivial
  | .bool _, _ => trivial
  | .number _, h => isFinite_of_complete h
  | .string _, _ => trivial
  | .array xs, h => elementsFinite_of_complete xs (complete_of_array h)
  | .object ms, h => membersFinite_of_complete ms (complete_of_object h)

theorem elementsFinite_of_complete : ∀ xs : List Value,
    (∀ e ∈ emitElements true xs, e.Complete) → ElementsFinite xs
  | [], _ => trivial
  | x :: xs, h =>
      ⟨allFinite_of_complete x (h _ List.mem_cons_self),
        elementsFinite_of_complete xs fun e he => h e (List.mem_cons_of_mem _ he)⟩

theorem membersFinite_of_complete : ∀ ms : List (String × Value),
    (∀ e ∈ emitMembers true ms, e.Complete) → MembersFinite ms
  | [], _ => trivial
  | (_, x) :: ms, h =>
      ⟨allFinite_of_complete x (complete_of_member (h _ List.mem_cons_self)),
        membersFinite_of_complete ms fun e he => h e (List.mem_cons_of_mem _ he)⟩

end

end Value

/-- Where all of a value is written, its numbers are finite. -/
theorem Shape.allFinite_of_complete (s : Shape) (v : s.Carrier)
    (h : (s.codec.emit v).Complete) : s.AllFinite v := by
  induction s with
  | single => exact isFinite_of_complete h
  | double => exact isFinite_of_complete h
  | value => exact Value.allFinite_of_complete v h
  | option s ih =>
      cases v with
      | none => exact fun y hy => by cases hy
      | some x =>
          intro y hy
          cases hy
          exact ih x h
  | list s ih => exact fun x hx => ih x (complete_of_array h _ (List.mem_map_of_mem hx))
  | boxed s ih => exact ih v h
  | _ => trivial

/-! Trees of which the text is written. -/

namespace Emission

/-- An emission writes the text of a tree that is not too deep. -/
def WritesTree (e : Emission) (height : Nat) : Prop :=
  ∃ t : Tree, e.Writes t.text ∧ t.height ≤ height

theorem exists_children {height : Nat} : ∀ {es : List Emission}, es ≠ [] →
    (∀ e ∈ es, e.WritesTree height) →
    ∃ children : Children false, (separated es).Writes children.text ∧ children.height ≤ height
  | [], hne, _ => absurd rfl hne
  | [e], _, h => by
      obtain ⟨t, hwrites, hheight⟩ := h e List.mem_cons_self
      exact ⟨.last .element Value.noBlanks t Value.noBlanks, hwrites.last, hheight⟩
  | e :: f :: es, _, h => by
      obtain ⟨t, hwrites, hheight⟩ := h e List.mem_cons_self
      obtain ⟨others, hothers, hheights⟩ :=
        exists_children (List.cons_ne_nil f es) fun d hd => h d (List.mem_cons_of_mem e hd)
      exact ⟨.more .element Value.noBlanks t Value.noBlanks others, hwrites.more hothers,
        max_le hheight hheights⟩

theorem writesTree_array {height : Nat} {es : List Emission}
    (h : ∀ e ∈ es, e.WritesTree height) : (array es).WritesTree (height + 1) := by
  by_cases hne : es = []
  · subst hne
    exact ⟨.empty false Value.noBlanks, writes_empty false, Nat.le_add_left 1 _⟩
  · obtain ⟨children, hwrites, hheight⟩ := exists_children hne h
    exact ⟨.container false children, hwrites.container, Nat.succ_le_succ hheight⟩

end Emission

theorem TextForm.writesTree_quoted {α : Type} {form : TextForm α} {x : α}
    (h : Printed (form.text x)) : (form.quoted.emit x).WritesTree 0 := by
  obtain ⟨q, hwrites⟩ := exists_quoted h.plain
  exact ⟨.scalar (.string q), hwrites, Nat.le_refl 0⟩

/-- A value of any shape, if its numbers are finite, is written as the text of a tree
that is no deeper than the value. -/
theorem Shape.exists_tree (s : Shape) (v : s.Carrier) (hv : s.AllFinite v) :
    (s.codec.emit v).WritesTree (s.nesting v) := by
  induction s with
  | duration => exact TextForm.writesTree_quoted (Duration.printed_text v)
  | instant => exact TextForm.writesTree_quoted (OffsetDateTime.printed_text (Instant.atUtc v))
  | offsetDateTime => exact TextForm.writesTree_quoted (OffsetDateTime.printed_text v)
  | period => exact TextForm.writesTree_quoted (Period.printed_text v)
  | yearMonth => exact TextForm.writesTree_quoted (YearMonth.printed_text v)
  | zoneId => exact TextForm.writesTree_quoted (ZoneId.printed_name v)
  | zonedDateTime => exact TextForm.writesTree_quoted (ZonedDateTime.printed_text v)
  | option s ih =>
      cases v with
      | none => exact ⟨.scalar (.word .null), writes_raw _, Nat.le_refl 0⟩
      | some x => exact ih x (hv x rfl)
  | list s ih =>
      refine writesTree_array fun e he => ?_
      obtain ⟨x, hx, rfl⟩ := List.mem_map.mp he
      obtain ⟨t, hwrites, hheight⟩ := ih x (hv x hx)
      exact ⟨t, hwrites, hheight.trans (nesting_le_of_mem hx)⟩
  | boxed s ih => exact ih v hv
  | bool | unit | integer | single | double | string | value | bigInteger | bigDecimal | year =>
      obtain ⟨t, ht, hheight⟩ := exists_carries _ rfl v hv
      exact ⟨t, ht.writes, hheight⟩

end FlatJson
