import Mathlib.Logic.Relation
import FlatJson.Proofs.OneValue

/-!
# Counts are backed by tokens

A container counts children that stand behind it, so a tape has no fewer tokens left
than any of its counts asks for. A cursor that passes over a value keeps an account of the
values that it still has to pass over (`Passage`). They stand in front of it, one behind
the other, and each turn keeps it so (`Passage.Ahead.turn`): the token that is taken makes
room for the entries that it owns. So the account is covered by the tokens that are left,
whatever the counts are, and it is settled before the tape ends (`Tape.counts_backed`).
-/

namespace FlatJson

namespace Grammar

/-- Values behind values are as many as both together. -/
theorem Subtrees.append : ∀ {m n : Nat} {ts us rest : List Token},
    Subtrees false m ts us → Subtrees false n us rest → Subtrees false (n + m) ts rest
  | _, _, _, _, _, .nil, hmore => hmore
  | _, _, _, _, _, .element h hs, hmore => .element h (hs.append hmore)

/-- There are tokens for all the entries that a container owns, so that their number is
never too large to be counted. -/
theorem Subtrees.ownedEntries {t : Token} {isObject : Bool} {ts rest : List Token}
    (h : Subtrees isObject t.count ts rest) (hkind : t.kind = containerKind isObject)
    (hsmall : ts.length ≤ Token.maxEntries) : t.ownedEntries = entries isObject t.count :=
  ownedEntries_container hkind ((Nat.le_of_add_right_le h.entries_le).trans hsmall)

/-- Behind the first token of some values stand the entries that it owns, and behind them
the other values. -/
theorem Subtrees.tail {n : Nat} {t : Token} {ts rest : List Token}
    (h : Subtrees false (n + 1) (t :: ts) rest) (hsmall : ts.length ≤ Token.maxEntries) :
    Subtrees false (n + t.ownedEntries) ts rest := by
  cases h with
  | element hfirst hmore =>
      cases hfirst with
      | scalar hkind _ =>
          rwa [ownedEntries_scalar hkind, Nat.add_zero]
      | container hkind hchildren =>
          rw [hchildren.ownedEntries hkind hsmall]
          exact hchildren.values.append hmore

end Grammar

open Grammar

/-- How far a cursor has come that passes over values: how many of them are still to be
passed over, and where it stands. -/
structure Passage where
  pending : Nat
  position : Nat
  rest : List Token

namespace Passage

/-- The passage that begins in front of a token of a tape. -/
def start (tape : Tape) (i : Nat) : Passage := ⟨1, i, tape.tokens.drop i⟩

/-- A turn: the next token is taken, and instead of its value the entries that it owns are
to be passed over. -/
inductive Turn : Passage → Passage → Prop
  | take (pending position : Nat) (t : Token) (rest : List Token) :
      Turn ⟨pending + 1, position, t :: rest⟩
        ⟨pending + t.ownedEntries, position + 1, rest⟩

/-- A passage comes to another by some turns. -/
abbrev Reaches : Passage → Passage → Prop := Relation.ReflTransGen Turn

/-- What a passage ends with. -/
def outcome (p : Passage) : Nat × Nat × List Token := Cursor.passOver p.pending p.position p.rest

/-- The turns are those that are made to pass over values. -/
theorem outcome_eq_of_reaches {p q : Passage} (h : p.Reaches q) : p.outcome = q.outcome := by
  induction h with
  | refl => rfl
  | tail _ hturn ih =>
      cases hturn
      exact ih

/-- The values that are still to be passed over stand in front of the cursor, on a tape that
is not too long to be counted. -/
structure Ahead (tape : Tape) (p : Passage) : Prop where
  rest_eq : p.rest = tape.tokens.drop p.position
  position_le : p.position ≤ tape.size
  values : ∃ left, Subtrees false p.pending p.rest left
  small : tape.size ≤ Token.maxEntries

namespace Ahead

variable {tape : Tape} {p q : Passage}

theorem length_rest (h : p.Ahead tape) : p.position + p.rest.length = tape.size := by
  have hposition := h.position_le
  rw [h.rest_eq, List.length_drop]
  exact Nat.add_sub_cancel' hposition

/-- Each of the values has a token at least. -/
theorem pending_le (h : p.Ahead tape) : p.pending ≤ p.rest.length := by
  obtain ⟨left, hvalues⟩ := h.values
  exact Nat.le_of_add_right_le hvalues.entries_le

theorem turn (h : p.Ahead tape) (hturn : p.Turn q) : q.Ahead tape := by
  cases hturn with
  | take pending position t rest =>
      have hlength := h.length_rest
      have hsmall := h.small
      have hrest : tape.tokens.drop position = t :: rest := h.rest_eq.symm
      obtain ⟨left, hvalues⟩ := h.values
      simp only [List.length_cons] at hlength
      exact
        { rest_eq := by
            show rest = tape.tokens.drop (position + 1)
            rw [← List.drop_drop, hrest]
            rfl
          position_le := by
            show position + 1 ≤ tape.size
            omega
          values := ⟨left, hvalues.tail (by omega)⟩
          small := hsmall }

theorem reaches (h : p.Ahead tape) (hreaches : p.Reaches q) : q.Ahead tape := by
  induction hreaches with
  | refl => exact h
  | tail _ hturn ih => exact ih.turn hturn

/-- As long as there is something to be passed over there is a token to take, and what is to
be passed over then is covered by the tokens behind it. -/
theorem exists_turn (h : p.Ahead tape) (hpending : 0 < p.pending) :
    ∃ t ts, p.rest = t :: ts ∧ p.pending - 1 + t.ownedEntries ≤ ts.length ∧
      p.Turn ⟨p.pending - 1 + t.ownedEntries, p.position + 1, ts⟩ := by
  obtain ⟨pending, position, rest⟩ := p
  have hle := h.pending_le
  obtain ⟨n, rfl⟩ := Nat.exists_eq_add_of_le' hpending
  cases rest with
  | nil => exact absurd hle (Nat.not_succ_le_zero n)
  | cons t rest =>
      have hturn := Turn.take n position t rest
      exact ⟨t, rest, rfl, (h.turn hturn).pending_le, hturn⟩

/-- The passage comes to its end on the tape. -/
theorem exists_end (h : p.Ahead tape) : ∃ q, p.Reaches q ∧ q.pending = 0 := by
  obtain ⟨pending, position, rest⟩ := p
  induction rest generalizing pending position with
  | nil => exact ⟨_, .refl, Nat.le_zero.mp h.pending_le⟩
  | cons t rest ih =>
      cases pending with
      | zero => exact ⟨_, .refl, rfl⟩
      | succ n =>
          obtain ⟨q, hreaches, hpending⟩ := ih _ _ (h.turn (.take n position t rest))
          exact ⟨q, .head (.take n position t rest) hreaches, hpending⟩

end Ahead

end Passage

namespace Tape

open Decoder ByteReader LawfulReader

theorem subtree_drop {tape : Tape} (h : Subtree tape.tokens []) {i : Nat} (hi : i < tape.size) :
    ∃ left, Subtree (tape.tokens.drop i) left := by
  refine h.of_suffix (List.drop_suffix i tape.tokens) ?_
  rw [List.length_drop]
  exact Nat.sub_pos_of_lt hi

theorem ahead_start {tape : Tape} (h : Subtree tape.tokens [])
    (hsmall : tape.size ≤ Token.maxEntries) {i : Nat} (hi : i < tape.size) :
    (Passage.start tape i).Ahead tape := by
  obtain ⟨left, hfront⟩ := subtree_drop h hi
  exact
    { rest_eq := rfl
      position_le := hi.le
      values := ⟨left, .element hfront .nil⟩
      small := hsmall }

/-- A passage that has come to its end leaves the cursor where it stands. -/
theorem skipValue_of_reaches {tape : Tape} {source : Source} {i : Nat} {q : Passage}
    (hreaches : (Passage.start tape i).Reaches q) (hq : q.Ahead tape) (hend : q.pending = 0) :
    skipValue (tape.cursorAt source i) = .ok () (tape.cursorAt source q.position) := by
  have houtcome : Cursor.passOver 1 i (tape.tokens.drop i) = (0, q.position, q.rest) := by
    refine (Passage.outcome_eq_of_reaches hreaches).trans ?_
    rw [Passage.outcome, hend]
    cases q.rest <;> rfl
  unfold skipValue
  rw [get_bind, cursorAt, houtcome, hq.rest_eq]
  rfl

/-- At the end of the tape there is no token to take. -/
theorem skipValue_of_size_le {tape : Tape} {source : Source} {i : Nat} (h : tape.size ≤ i) :
    skipValue (tape.cursorAt source i) =
      .error (tape.cursorAt source i).exhausted (tape.cursorAt source i) := by
  have hdrop : tape.tokens.drop i = [] := List.drop_eq_nil_of_le h
  unfold skipValue
  rw [get_bind, cursorAt, hdrop]
  rfl

variable {ρ : Type} [ByteReader ρ] [LawfulReader ρ] {limits : Limits} {r : ρ} {tape : Tape}

/-- Every container of a tape owns entries that stand behind it. -/
theorem ownedEntries_of_getElem? (h : Subtree tape.tokens [])
    (hsmall : tape.size ≤ Token.maxEntries) {i : Nat} {t : Token} (ht : tape.tokens[i]? = some t)
    {isObject : Bool} (hkind : t.kind = containerKind isObject) :
    t.ownedEntries = entries isObject t.count ∧ i + 1 + t.ownedEntries ≤ tape.size := by
  obtain ⟨hi, -⟩ := List.getElem?_eq_some_iff.mp ht
  have hdrop : tape.tokens.drop i = t :: tape.tokens.drop (i + 1) := by
    rw [List.drop_eq_getElem?_toList_append, ht]
    rfl
  obtain ⟨left, hfront⟩ := subtree_drop h hi
  rw [hdrop] at hfront
  have hchildren := hfront.children hkind
  have hlength : (tape.tokens.drop (i + 1)).length = tape.size - (i + 1) := List.length_drop
  have hentries := hchildren.entries_le
  have howned := hchildren.ownedEntries hkind (by omega)
  refine ⟨howned, ?_⟩
  rw [howned]
  change i < tape.size at hi
  omega

/-- What a container says when it is entered. -/
theorem begin_le_remaining (h : Subtree tape.tokens []) (hsmall : tape.size ≤ Token.maxEntries)
    (source : Source) (isObject : Bool) {i n : Nat} {c : Cursor}
    (hbegin : scalar (Scalar.children (containerKind isObject)) (tape.cursorAt source i) =
      .ok n c) : entries isObject n ≤ c.remaining := by
  unfold cursorAt at hbegin
  cases hdrop : tape.tokens.drop i with
  | nil =>
      rw [hdrop] at hbegin
      cases hbegin
  | cons t ts =>
      have ht : tape.tokens[i]? = some t := by
        rw [← List.head?_drop, hdrop]
        rfl
      have hlength := congrArg List.length hdrop
      rw [hdrop] at hbegin
      rcases children_cons (containerKind isObject) source i t ts with
        ⟨hkind, hok⟩ | ⟨-, fault, herror⟩
      · obtain ⟨howned, hle⟩ := ownedEntries_of_getElem? h hsmall ht hkind
        rw [hok] at hbegin
        cases hbegin
        rw [howned] at hle
        simp only [List.length_drop, List.length_cons] at hlength
        show entries isObject t.count ≤ ts.length
        change i + 1 + entries isObject t.count ≤ tape.tokens.length at hle
        omega
      · rw [herror] at hbegin
        cases hbegin

/-- A tape has no more tokens than its document has bytes. Every container owns as many entries
as it counts, a name and a value for a member, and all of them stand behind it, so that what a
container promises when it is entered is left on the tape. A cursor that passes over the value
in front of it, from any token on, has no more values to pass over than there are tokens left,
at every turn, and comes to rest on the tape. So nothing that is counted on the way is above
`Token.maxEntries`, which no text in memory exceeds. Where there is no token nothing is counted. -/
theorem counts_backed (h : (Tape.read limits r).1 = .ok tape)
    (hlimit : limit r ≤ Token.maxEntries) (source : Source) :
    tape.size ≤ limit r ∧
      (∀ i t isObject, tape.tokens[i]? = some t → t.kind = containerKind isObject →
        t.ownedEntries = entries isObject t.count ∧ i + 1 + t.ownedEntries ≤ tape.size) ∧
      (∀ i n c, (beginArray (tape.cursorAt source i) = .ok n c → n ≤ c.remaining) ∧
        (beginObject (tape.cursorAt source i) = .ok n c → 2 * n ≤ c.remaining)) ∧
      (∀ i, tape.size ≤ i → skipValue (tape.cursorAt source i) =
        .error (tape.cursorAt source i).exhausted (tape.cursorAt source i)) ∧
      ∀ i, i < tape.size →
        (∀ p, (Passage.start tape i).Reaches p →
          Cursor.passOver 1 i (tape.tokens.drop i) =
              Cursor.passOver p.pending p.position p.rest ∧
            p.position + p.rest.length = tape.size ∧ p.pending ≤ p.rest.length ∧
            (0 < p.pending → ∃ t ts, p.rest = t :: ts ∧
              p.pending - 1 + t.ownedEntries ≤ ts.length ∧
              p.Turn ⟨p.pending - 1 + t.ownedEntries, p.position + 1, ts⟩)) ∧
        ∃ p, (Passage.start tape i).Reaches p ∧ p.pending = 0 ∧ p.position ≤ tape.size ∧
          skipValue (tape.cursorAt source i) = .ok () (tape.cursorAt source p.position) := by
  obtain ⟨hsubtree, hsize⟩ := subtree_of_read h
  have hsmall := hsize.trans hlimit
  refine ⟨hsize, fun i t isObject ht hkind => ownedEntries_of_getElem? hsubtree hsmall ht hkind,
    fun i n c => ⟨begin_le_remaining hsubtree hsmall source false,
      begin_le_remaining hsubtree hsmall source true⟩, fun i hi => skipValue_of_size_le hi,
    fun i hi => ?_⟩
  have hstart := ahead_start hsubtree hsmall hi
  constructor
  · intro p hreaches
    have hahead := hstart.reaches hreaches
    exact ⟨Passage.outcome_eq_of_reaches hreaches, hahead.length_rest, hahead.pending_le,
      hahead.exists_turn⟩
  · obtain ⟨p, hreaches, hend⟩ := hstart.exists_end
    have hahead := hstart.reaches hreaches
    exact ⟨p, hreaches, hend, hahead.position_le, skipValue_of_reaches hreaches hahead hend⟩

/-- In `[{"a":[]},1]` two values are to be passed over behind the token of the object, and
three tokens are left there. -/
theorem counts_backed_object :
    (Tape.read {} (SliceReader.ofSource (.ofBytes [0x5B, 0x7B, 0x22, 0x61, 0x22, 0x3A, 0x5B, 0x5D,
        0x7D, 0x2C, 0x31, 0x5D]))).1 =
      .ok ⟨[⟨.array, 0, 12, 2⟩, ⟨.object, 1, 9, 1⟩, ⟨.string, 3, 4, 0⟩, ⟨.array, 6, 8, 0⟩,
        ⟨.number, 10, 11, 0⟩]⟩ ∧
    limit (SliceReader.ofSource (.ofBytes [0x5B, 0x7B, 0x22, 0x61, 0x22, 0x3A, 0x5B, 0x5D, 0x7D,
        0x2C, 0x31, 0x5D])) ≤ Token.maxEntries ∧
    ∃ p, (Passage.start ⟨[⟨.array, 0, 12, 2⟩, ⟨.object, 1, 9, 1⟩, ⟨.string, 3, 4, 0⟩,
          ⟨.array, 6, 8, 0⟩, ⟨.number, 10, 11, 0⟩]⟩ 1).Turn p ∧ p.pending = 2 ∧
        p.pending ≤ p.rest.length ∧ p.position + p.rest.length = 5 := by
  have hread : (Tape.read {} (SliceReader.ofSource (.ofBytes [0x5B, 0x7B, 0x22, 0x61, 0x22, 0x3A,
      0x5B, 0x5D, 0x7D, 0x2C, 0x31, 0x5D]))).1 =
        .ok ⟨[⟨.array, 0, 12, 2⟩, ⟨.object, 1, 9, 1⟩, ⟨.string, 3, 4, 0⟩, ⟨.array, 6, 8, 0⟩,
          ⟨.number, 10, 11, 0⟩]⟩ := by
    cbv
  have hlimit : limit (SliceReader.ofSource (.ofBytes [0x5B, 0x7B, 0x22, 0x61, 0x22, 0x3A, 0x5B,
      0x5D, 0x7D, 0x2C, 0x31, 0x5D])) ≤ Token.maxEntries := by
    decide
  obtain ⟨-, -, -, -, hpass⟩ := counts_backed hread hlimit (.ofBytes [])
  have hturn : (Passage.start ⟨[⟨.array, 0, 12, 2⟩, ⟨.object, 1, 9, 1⟩, ⟨.string, 3, 4, 0⟩,
      ⟨.array, 6, 8, 0⟩, ⟨.number, 10, 11, 0⟩]⟩ 1).Turn
        ⟨2, 2, [⟨.string, 3, 4, 0⟩, ⟨.array, 6, 8, 0⟩, ⟨.number, 10, 11, 0⟩]⟩ :=
    .take 0 1 ⟨.object, 1, 9, 1⟩ _
  obtain ⟨-, hposition, hpending, -⟩ := (hpass 1 (by decide)).1 _ (.single hturn)
  exact ⟨hread, hlimit, _, hturn, rfl, hpending, hposition⟩

end Tape

end FlatJson
