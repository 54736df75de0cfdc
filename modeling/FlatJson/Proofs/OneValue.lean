import FlatJson.Shape
import FlatJson.Proofs.Decode

/-!
# Decoders take one value

Where a subtree stands in front of a cursor, a decoder takes the tokens of the
subtree and no others, or it fails at one of them (`Decoder.TakesOne`). The
codecs of larger types inherit this from those of their parts, so that it holds
of every shape, and a cursor that passes over the value comes to rest at the same
place.
-/

namespace FlatJson

open Grammar

namespace Cursor

/-- The cursor in front of the last of the tokens that come after it. -/
def past (c : Cursor) (rest : List Token) : Cursor :=
  ⟨c.source, c.position + (c.rest.length - rest.length), rest⟩

theorem past_self (c : Cursor) : c.past c.rest = c := by
  rw [past, Nat.sub_self, Nat.add_zero]

theorem past_past {c : Cursor} {us rest : List Token} (hus : us.length ≤ c.rest.length)
    (hrest : rest.length ≤ us.length) : (c.past us).past rest = c.past rest := by
  have hposition : c.position + (c.rest.length - us.length) + (us.length - rest.length) =
      c.position + (c.rest.length - rest.length) := by
    omega
  rw [past, past, past, hposition]

theorem past_cons (source : Source) (position : Nat) (t : Token) (rest : List Token) :
    past ⟨source, position, t :: rest⟩ rest = ⟨source, position + 1, rest⟩ := by
  rw [past, List.length_cons, Nat.add_sub_cancel_left]

theorem past_append (source : Source) (position : Nat) (ts rest : List Token) :
    past ⟨source, position, ts ++ rest⟩ rest = ⟨source, position + ts.length, rest⟩ := by
  rw [past, List.length_append, Nat.add_sub_cancel]

end Cursor

namespace Decoder

variable {α β : Type}

theorem bind_of_ok {read : Decoder α} (next : α → Decoder β) {c d : Cursor} {x : α}
    (h : read c = .ok x d) : (read >>= next) c = next x d := by
  simp only [Bind.bind, EStateM.bind, h]

theorem bind_of_error {read : Decoder α} (next : α → Decoder β) {c d : Cursor} {fault : Fault}
    (h : read c = .error fault d) : (read >>= next) c = .error fault d := by
  simp only [Bind.bind, EStateM.bind, h]

/-- A success leaves the cursor `after`, and a fault leaves one behind the place
`start` that has not gone beyond `after`. -/
def Ends (start : Nat) (after : Cursor) : EStateM.Result Fault Cursor α → Prop
  | .ok _ c => c = after
  | .error _ c => start < c.position ∧ c.position ≤ after.position

theorem Ends.bind {read : Decoder α} {next : α → Decoder β} {start : Nat} {c between after : Cursor}
    (h : Ends start between (read c)) (hbetween : between.position ≤ after.position)
    (hnext : ∀ x, Ends start after (next x between)) :
    Ends start after ((read >>= next) c) := by
  cases hread : read c with
  | ok x d =>
      rw [hread] at h
      obtain rfl : d = between := h
      rw [bind_of_ok next hread]
      exact hnext x
  | error fault d =>
      rw [hread] at h
      rw [bind_of_error next hread]
      exact ⟨h.1, h.2.trans hbetween⟩

theorem Ends.mono {first start : Nat} {after : Cursor} {outcome : EStateM.Result Fault Cursor α}
    (h : Ends start after outcome) (hfirst : first ≤ start) : Ends first after outcome := by
  cases outcome with
  | ok x c => exact h
  | error fault c => exact ⟨hfirst.trans_lt h.1, h.2⟩

/-- A decoder takes the subtree in front of the cursor, or it fails inside the
subtree, with one token taken at least. -/
def TakesOne (read : Decoder α) : Prop :=
  ∀ (c : Cursor) (rest : List Token), Subtree c.rest rest →
    Ends c.position (c.past rest) (read c)

/-- A decoder takes no token. -/
def Stays (read : Decoder α) : Prop :=
  ∀ c : Cursor, (∃ x, read c = .ok x c) ∨ ∃ fault, read c = .error fault c

theorem stays_pure (x : α) : Stays (pure x : Decoder α) := fun _ => .inl ⟨x, rfl⟩

theorem stays_throw (fault : Fault) : Stays (throw fault : Decoder α) := fun _ => .inr ⟨fault, rfl⟩

theorem past_position_lt {c : Cursor} {rest : List Token} (h : Subtree c.rest rest) :
    c.position < (c.past rest).position := by
  have hlength := h.length_lt
  show c.position < c.position + (c.rest.length - rest.length)
  omega

theorem TakesOne.bind {read : Decoder α} {next : α → Decoder β} (h : TakesOne read)
    (hnext : ∀ x, Stays (next x)) : TakesOne (read >>= next) := by
  intro c rest hsubtree
  refine (h c rest hsubtree).bind (Nat.le_refl _) fun x => ?_
  rcases hnext x (c.past rest) with ⟨y, hy⟩ | ⟨fault, hfault⟩
  · rw [hy]
    exact rfl
  · rw [hfault]
    exact ⟨past_position_lt hsubtree, Nat.le_refl _⟩

/-- A look at the next token takes nothing. -/
theorem TakesOne.peek_bind {next : Token → Decoder α} (h : ∀ t, TakesOne (next t)) :
    TakesOne (peek >>= next) := by
  intro c rest hsubtree
  obtain ⟨source, position, ts⟩ := c
  cases ts with
  | nil => cases hsubtree
  | cons t ts => exact h t ⟨source, position, t :: ts⟩ rest hsubtree

theorem TakesOne.isNull_bind {next : Bool → Decoder α} (h : ∀ b, TakesOne (next b)) :
    TakesOne (isNull >>= next) := by
  intro c rest hsubtree
  obtain ⟨source, position, ts⟩ := c
  cases ts with
  | nil => cases hsubtree
  | cons t ts => exact h (t.kind == .null) ⟨source, position, t :: ts⟩ rest hsubtree

theorem scalar_cons (read : Source → Token → Except Fault α) (source : Source) (position : Nat)
    (t : Token) (ts : List Token) :
    scalar read ⟨source, position, t :: ts⟩ =
      match read source t with
      | .ok x => .ok x ⟨source, position + 1, ts⟩
      | .error fault => .error fault ⟨source, position + 1, ts⟩ := by
  have hnext : next ⟨source, position, t :: ts⟩ = .ok t ⟨source, position + 1, ts⟩ := rfl
  unfold scalar
  rw [bind_of_ok _ hnext, get_bind]
  cases read source t <;> rfl

theorem scalar_cons_eq_ok_iff {read : Source → Token → Except Fault α} {source : Source}
    {position : Nat} {t : Token} {ts : List Token} {x : α} {d : Cursor} :
    scalar read ⟨source, position, t :: ts⟩ = .ok x d ↔
      read source t = .ok x ∧ d = ⟨source, position + 1, ts⟩ := by
  rw [scalar_cons]
  cases read source t <;> simp [eq_comm]

/-- The last element is read onto those read before. -/
theorem repeatOnto_last {read : Decoder α} (acc : List α) {c d : Cursor} {x : α}
    (h : read c = .ok x d) : repeatOnto read acc 1 c = .ok (acc.reverse ++ [x]) d := by
  have hlast := bind_of_ok (fun x => repeatOnto read (x :: acc) 0) h
  rw [repeatOnto, List.reverse_cons] at hlast
  exact hlast

/-- An element is read, and the others behind it. -/
theorem repeatOnto_more {read : Decoder α} {acc xs : List α} {n : Nat} {c d e : Cursor} {x : α}
    (h : read c = .ok x d)
    (hs : repeatOnto read (x :: acc) n d = .ok ((x :: acc).reverse ++ xs) e) :
    repeatOnto read acc (n + 1) c = .ok (acc.reverse ++ x :: xs) e := by
  refine (bind_of_ok _ h).trans ?_
  rw [hs, List.reverse_cons, List.append_assoc, List.singleton_append]

theorem isContainer_containerKind (isObject : Bool) :
    (containerKind isObject).isContainer = true := by
  cases isObject <;> rfl

/-- What reads no container takes the one token of a scalar. -/
theorem takesOne_scalar {read : Source → Token → Except Fault α}
    (h : ∀ s t x, read s t = .ok x → t.kind.isContainer = false) : TakesOne (scalar read) := by
  intro c rest hsubtree
  obtain ⟨source, position, ts⟩ := c
  have hlength := hsubtree.length_lt
  cases ts with
  | nil => cases hsubtree
  | cons t ts =>
      rw [scalar_cons]
      cases hread : read source t with
      | error fault =>
          refine ⟨Nat.lt_succ_self _, ?_⟩
          show position + 1 ≤ position + ((t :: ts).length - rest.length)
          simp only at hlength
          omega
      | ok x =>
          -- A container would be left after its first token, but is never read.
          have hkind := h source t x hread
          cases hsubtree with
          | scalar _ _ => exact (Cursor.past_cons source position t rest).symm
          | container hcontainer _ =>
              rw [hcontainer, isContainer_containerKind] at hkind
              cases hkind

/-- As many values are taken as the children that stand in front of the cursor. -/
theorem repeatOnto_ends {read : Decoder α} (h : TakesOne read) {start n : Nat} (acc : List α)
    {c : Cursor} {rest : List Token} (hstart : start ≤ c.position)
    (hchildren : Subtrees false n c.rest rest) :
    Ends start (c.past rest) (repeatOnto read acc n c) := by
  induction n generalizing c acc with
  | zero =>
      cases hchildren with
      | nil => exact (Cursor.past_self c).symm
  | succ n ih =>
      cases hchildren with
      | @element _ _ us _ hfirst hothers =>
          have hfront := hfirst.length_lt.le
          have hback := hothers.suffix.length_le
          have hpast : (c.past us).past rest = c.past rest := Cursor.past_past hfront hback
          refine ((h c us hfirst).mono hstart).bind ?_ fun x => ?_
          · show c.position + _ ≤ c.position + _
            omega
          · have hmore := ih (x :: acc) (hstart.trans (past_position_lt hfirst).le) hothers
            rwa [hpast] at hmore

/-- The token of a container is taken, whatever it is, and gives the number of its
children if it is of the kind that is asked for. -/
theorem children_cons (kind : Kind) (source : Source) (position : Nat) (t : Token)
    (ts : List Token) :
    (t.kind = kind ∧ scalar (Scalar.children kind) ⟨source, position, t :: ts⟩ =
        .ok t.count ⟨source, position + 1, ts⟩) ∨
      (t.kind ≠ kind ∧ ∃ fault, scalar (Scalar.children kind) ⟨source, position, t :: ts⟩ =
        .error fault ⟨source, position + 1, ts⟩) := by
  rw [scalar_cons]
  unfold Scalar.children Scalar.expectKind
  by_cases hkind : t.kind = kind
  · rw [if_pos hkind]
    exact .inl ⟨hkind, rfl⟩
  · rw [if_neg hkind]
    exact .inr ⟨hkind, _, rfl⟩

theorem beginArray_cons (source : Source) (position : Nat) (t : Token) (ts : List Token) :
    (t.kind = .array ∧
        beginArray ⟨source, position, t :: ts⟩ = .ok t.count ⟨source, position + 1, ts⟩) ∨
      (t.kind ≠ .array ∧
        ∃ fault, beginArray ⟨source, position, t :: ts⟩ =
          .error fault ⟨source, position + 1, ts⟩) :=
  children_cons .array source position t ts

theorem TakesOne.list {read : Decoder α} (h : TakesOne read) :
    TakesOne (beginArray >>= fun count => repeatOnto read [] count) := by
  intro c rest hsubtree
  obtain ⟨source, position, ts⟩ := c
  cases ts with
  | nil => cases hsubtree
  | cons t ts =>
      rcases beginArray_cons source position t ts with ⟨hkind, hcount⟩ | ⟨-, fault, hfault⟩
      · rw [bind_of_ok _ hcount]
        have hchildren : Subtrees false t.count ts rest := hsubtree.children hkind
        have hpast : Cursor.past ⟨source, position + 1, ts⟩ rest =
            Cursor.past ⟨source, position, t :: ts⟩ rest := by
          rw [← Cursor.past_cons source position t ts]
          exact Cursor.past_past (Nat.le_succ _) hchildren.suffix.length_le
        rw [← hpast]
        exact repeatOnto_ends h [] (Nat.le_succ position) hchildren
      · rw [bind_of_error _ hfault]
        exact ⟨Nat.lt_succ_self _, past_position_lt hsubtree⟩

end Decoder

namespace Codec

variable {α : Type} {c : Codec α} {tape : Tape} {source : Source}

/-- What takes all the tokens of a tape is read of the tape. -/
theorem ofTape_of_ok {x : α} {d : Cursor}
    (h : c.decode (tape.cursor source) = .ok x d) (hend : d.rest = []) :
    c.ofTape tape source = .ok x := by
  obtain ⟨whole, position, rest⟩ := d
  obtain rfl : rest = [] := hend
  unfold ofTape
  simp only [EStateM.run, Decoder.bind_of_ok _ h]
  rfl

theorem ofTape_of_error {fault : Fault} {d : Cursor}
    (h : c.decode (tape.cursor source) = .error fault d) : c.ofTape tape source = .error fault := by
  unfold ofTape
  simp only [EStateM.run, Decoder.bind_of_error _ h]

end Codec

namespace Value

/-- The walk along `ts` has come to a value and goes on behind it, or it has failed
between two places, at one of these tokens. -/
def Ends (s : Source) (outer : List Frame) (start stop : Nat) (ts rest : List Token)
    (outcome : Except Fault Value × Nat × List Token) : Prop :=
  (∃ v, outcome = resume s stop rest (deliver v outer)) ∨
    ∃ fault place left, outcome = (.error fault, place, left) ∧ start < place ∧ place ≤ stop ∧
      ∃ t ∈ ts, ∃ frames, take s t frames = .error fault

theorem Ends.mono {s : Source} {outer : List Frame} {first start stop : Nat}
    {us ts rest : List Token} {outcome : Except Fault Value × Nat × List Token}
    (h : Ends s outer start stop us rest outcome) (hfirst : first ≤ start) (hus : us ⊆ ts) :
    Ends s outer first stop ts rest outcome := by
  rcases h with h | ⟨fault, place, left, houtcome, hstart, hstop, t, ht, hfault⟩
  · exact .inl h
  · exact .inr ⟨fault, place, left, houtcome, hfirst.trans_lt hstart, hstop, t, hus ht, hfault⟩

theorem Ends.bind {s : Source} {frames outer : List Frame} {start between stop : Nat}
    {ts us rest : List Token} {outcome : Except Fault Value × Nat × List Token}
    (h : Ends s frames start between ts us outcome) (hbetween : between ≤ stop)
    (hnext : ∀ v, Ends s outer start stop ts rest (resume s between us (deliver v frames))) :
    Ends s outer start stop ts rest outcome := by
  rcases h with ⟨v, rfl⟩ | ⟨fault, place, left, houtcome, hstart, hstop, hblame⟩
  · exact hnext v
  · exact .inr ⟨fault, place, left, houtcome, hstart, hstop.trans hbetween, hblame⟩

theorem ready_nil : Ready [] := trivial

/-- The frame of a container waits for `n` children. -/
inductive Awaits : Bool → Nat → Frame → Prop
  | array (n : Nat) (done : List Value) : Awaits false n (.array n done)
  | object (n : Nat) (done : List (String × Value)) : Awaits true n (.object n none done)

theorem ofToken_scalar (s : Source) {t : Token} (h : t.kind.isContainer = false) :
    (∃ v, ofToken s t = .ok (.complete v)) ∨ ∃ fault, ofToken s t = .error fault := by
  unfold ofToken
  cases hkind : t.kind with
  | object => rw [hkind] at h; cases h
  | array => rw [hkind] at h; cases h
  | string => cases Scalar.string s t <;> simp [Except.map]
  | number => cases Scalar.float .binary64 s t <;> simp [Except.map]
  | yes => exact .inl ⟨_, rfl⟩
  | no => exact .inl ⟨_, rfl⟩
  | null => exact .inl ⟨_, rfl⟩

theorem ofToken_container (s : Source) {t : Token} {isObject : Bool}
    (h : t.kind = containerKind isObject) :
    (t.count = 0 ∧ ∃ v, ofToken s t = .ok (.complete v)) ∨
      (0 < t.count ∧
        ∃ frame, Awaits isObject t.count frame ∧ ofToken s t = .ok (.pending frame)) := by
  unfold ofToken
  rw [h]
  rcases Nat.eq_zero_or_pos t.count with hcount | hcount
  · refine .inl ⟨hcount, ?_⟩
    cases isObject <;> simp [containerKind, hcount]
  · refine .inr ⟨hcount, ?_⟩
    cases isObject with
    | false => exact ⟨_, .array t.count [], by simp [containerKind, hcount.ne']⟩
    | true => exact ⟨_, .object t.count [], by simp [containerKind, hcount.ne']⟩

end Value

namespace Grammar

open Value

mutual

/-- The walk along a subtree. -/
theorem Subtree.readFrom_ends (s : Source) : ∀ {ts rest : List Token}, Subtree ts rest →
    ∀ {frames : List Frame}, Ready frames → ∀ position : Nat,
    Ends s frames position (position + (ts.length - rest.length)) ts rest
      (readFrom s frames position ts)
  | t :: _, rest, .scalar hkind _, frames, hready, position => by
      rw [readFrom_cons hready, List.length_cons, Nat.add_sub_cancel_left]
      rcases ofToken_scalar s hkind with ⟨v, hv⟩ | ⟨fault, hfault⟩
      · rw [hv]
        exact .inl ⟨v, rfl⟩
      · have htake : take s t [] = .error fault := by rw [take_ready ready_nil, hfault]
        rw [hfault]
        exact .inr ⟨fault, _, _, rfl, Nat.lt_succ_self _, Nat.le_refl _, t, List.mem_cons_self,
          [], htake⟩
  | t :: ts, rest, .container hkind h, frames, hready, position => by
      have hlength := h.suffix.length_le
      have hstop : position + ((t :: ts).length - rest.length) =
          position + 1 + (ts.length - rest.length) := by
        rw [List.length_cons]
        omega
      rw [readFrom_cons hready, hstop]
      rcases ofToken_container s hkind with ⟨hcount, v, hv⟩ | ⟨hcount, frame, hframe, hpending⟩
      · rw [hcount] at h
        cases h with
        | nil =>
            rw [hv, Nat.sub_self]
            exact .inl ⟨v, rfl⟩
      · rw [hpending]
        exact (h.readFrom_ends s hcount hframe frames (position + 1)).mono (Nat.le_succ _)
          (List.subset_cons_self t ts)

/-- The walk along the children of a container. -/
theorem Subtrees.readFrom_ends (s : Source) : ∀ {isObject : Bool} {n : Nat}
    {ts rest : List Token}, Subtrees isObject n ts rest → 0 < n →
    ∀ {frame : Frame}, Awaits isObject n frame → ∀ (outer : List Frame) (position : Nat),
    Ends s outer position (position + (ts.length - rest.length)) ts rest
      (readFrom s (frame :: outer) position ts)
  | _, _, _, _, .nil, hpos, _, _, _, _ => absurd hpos (Nat.lt_irrefl 0)
  | _, n + 1, ts, rest, @Subtrees.element _ _ us _ h hs, _, _, .array _ done, outer, position => by
      have hfront := h.length_lt
      have hback := hs.suffix.length_le
      refine (h.readFrom_ends s (ready_array (n + 1) done outer) position).bind (by omega)
        fun v => ?_
      -- The last child completes its container, and the walk goes on behind that.
      rcases Nat.eq_zero_or_pos n with rfl | hn
      · cases hs with
        | nil =>
            rw [deliver_array_last]
            exact .inl ⟨_, rfl⟩
      · have hstop : position + (ts.length - us.length) + (us.length - rest.length) =
            position + (ts.length - rest.length) := by
          omega
        have hmore := hs.readFrom_ends s hn (.array n (v :: done)) outer
          (position + (ts.length - us.length))
        rw [hstop] at hmore
        rw [deliver_array_more hn, resume]
        exact hmore.mono (Nat.le_add_right _ _) h.suffix.subset
  | _, n + 1, name :: ts, rest, @Subtrees.member _ _ _ us _ _ _ h hs, _, _, .object _ done, outer,
      position => by
      have hfront := h.length_lt
      have hback := hs.suffix.length_le
      rw [readFrom_name, List.length_cons]
      cases hname : Scalar.string s name with
      | error fault =>
          have htake : take s name (.object (n + 1) none done :: outer) = .error fault := by
            rw [take, hname]
          exact .inr ⟨fault, _, _, rfl, Nat.lt_succ_self _, by omega, name, List.mem_cons_self, _,
            htake⟩
      | ok text =>
          have hus : us ⊆ name :: ts := (h.suffix.trans (List.suffix_cons name ts)).subset
          refine ((h.readFrom_ends s (ready_object (n + 1) text done outer) (position + 1)).mono
            (Nat.le_succ position) (List.subset_cons_self name ts)).bind (by omega) fun v => ?_
          rcases Nat.eq_zero_or_pos n with rfl | hn
          · have hstop : position + 1 + (ts.length - us.length) =
                position + (ts.length + 1 - us.length) := by
              omega
            cases hs with
            | nil =>
                rw [deliver_object_last, hstop]
                exact .inl ⟨_, rfl⟩
          · have hstop : position + 1 + (ts.length - us.length) + (us.length - rest.length) =
                position + (ts.length + 1 - rest.length) := by
              omega
            have hmore := hs.readFrom_ends s hn (.object n ((text, v) :: done)) outer
              (position + 1 + (ts.length - us.length))
            rw [hstop] at hmore
            rw [deliver_object_more hn, resume]
            exact hmore.mono (by omega) hus

end

end Grammar

open Decoder

theorem Value.takesOne_decode : TakesOne Value.decode := by
  intro c rest hsubtree
  rcases hsubtree.readFrom_ends c.source Value.ready_nil c.position with
    ⟨v, hv⟩ | ⟨fault, place, left, hfault, hstart, hstop, -⟩
  · rw [Value.decode_of_ok hv]
    exact rfl
  · rw [Value.decode_of_error hfault]
    exact ⟨hstart, hstop⟩

/-- The text of a token is read where the token is of the kind that is asked for. -/
theorem Scalar.withText_eq_ok_iff {α : Type} {s : Source} {kind : Kind} {t : Token}
    {parse : Bytes → Nat → Except ReadFault α} {x : α} :
    withText s kind t parse = .ok x ↔
      t.kind = kind ∧ ∃ text, s.textOf t = .ok text ∧ parse text t.start = .ok x := by
  unfold withText expectKind
  by_cases hkind : t.kind = kind
  · rw [if_pos hkind, and_iff_right hkind]
    cases s.textOf t with
    | error fault => simp
    | ok text => cases hparse : parse text t.start <;> simp [hparse]
  · rw [if_neg hkind]
    exact iff_of_false (by rintro ⟨⟩) fun h => hkind h.1

theorem Scalar.kind_of_withText {α : Type} {s : Source} {kind : Kind} {t : Token}
    {parse : Bytes → Nat → Except ReadFault α} {x : α} (h : withText s kind t parse = .ok x) :
    t.kind = kind :=
  (withText_eq_ok_iff.mp h).1

/-- What reads a token of a kind without children takes one value. -/
theorem Decoder.takesOne_withText {α : Type} {kind : Kind} (hkind : kind.isContainer = false)
    (parse : Bytes → Nat → Except ReadFault α) :
    TakesOne (scalar fun s t => Scalar.withText s kind t parse) :=
  takesOne_scalar fun _ _ _ h => by rw [Scalar.kind_of_withText h, hkind]

theorem Decoder.takesOne_bool : TakesOne Decoder.bool := by
  refine takesOne_scalar fun s t x h => ?_
  unfold Scalar.bool at h
  cases hkind : t.kind <;> rw [hkind] at h <;> first | rfl | cases h

theorem Decoder.takesOne_null : TakesOne Decoder.null := by
  refine takesOne_scalar fun s t x h => ?_
  unfold Scalar.null at h
  cases hkind : t.kind <;> rw [hkind] at h <;> first | rfl | cases h

theorem Codec.takesOne_option {α : Type} {c : Codec α} (h : TakesOne c.decode) :
    TakesOne c.option.decode := by
  refine TakesOne.isNull_bind fun isNull => ?_
  cases isNull with
  | true => exact takesOne_null.bind fun _ => stays_pure none
  | false => exact h.bind fun x => stays_pure (some x)

theorem TextForm.takesOne_quoted {α : Type} (form : TextForm α) :
    TakesOne form.quoted.decode := by
  refine TakesOne.peek_bind fun t => (takesOne_withText rfl _).bind fun s => ?_
  simp only
  split
  · exact stays_pure _
  · exact stays_throw _

/-- A property of decoders that those of larger types inherit from those of their
parts. -/
structure Decoder.Inherited (P : (α : Type) → Decoder α → Prop) : Prop where
  bool : P Bool Decoder.bool
  null : P Unit Decoder.null
  integer (t : IntType) : P t.Member (Decoder.integer t)
  float (f : Format) : P (Binary f) (Decoder.float f)
  string : P String Decoder.string
  value : P Value Value.decode
  numeral {α : Type} (form : TextForm α) : P α form.numeral.decode
  quoted {α : Type} (form : TextForm α) : P α form.quoted.decode
  map {α β : Type} {read : Decoder α} (f : α → β) :
    P α read → P β (read >>= fun x => pure (f x))
  option {α : Type} {c : Codec α} : P α c.decode → P (Option α) c.option.decode
  list {α : Type} {c : Codec α} : P α c.decode → P (List α) c.list.decode

/-- The codec of every shape has such a property. -/
theorem Decoder.Inherited.decode {P : (α : Type) → Decoder α → Prop} (h : Inherited P)
    (s : Shape) : P s.Carrier s.codec.decode := by
  induction s with
  | bool => exact h.bool
  | unit => exact h.null
  | integer t => exact h.integer t
  | single => exact h.float .binary32
  | double => exact h.float .binary64
  | string => exact h.string
  | value => exact h.value
  | bigInteger => exact h.numeral BigInteger.form
  | bigDecimal => exact h.numeral BigDecimal.form
  | year => exact h.map Year.mk (h.integer .int32)
  | duration => exact h.quoted Duration.form
  | instant => exact h.quoted Instant.form
  | offsetDateTime => exact h.quoted OffsetDateTime.form
  | period => exact h.quoted Period.form
  | yearMonth => exact h.quoted YearMonth.form
  | zoneId => exact h.quoted ZoneId.form
  | zonedDateTime => exact h.quoted ZonedDateTime.form
  | option s ih => exact h.option ih
  | list s ih => exact h.list ih
  | boxed s ih => exact ih

theorem Decoder.inherited_takesOne : Inherited @TakesOne where
  bool := takesOne_bool
  null := takesOne_null
  integer _ := takesOne_withText rfl _
  float _ := takesOne_withText rfl _
  string := takesOne_withText rfl _
  value := Value.takesOne_decode
  numeral form := takesOne_withText rfl form.parseNumeral
  quoted form := form.takesOne_quoted
  map f h := h.bind fun x => stays_pure (f x)
  option h := Codec.takesOne_option h
  list h := h.list

/-- The codec of a shape takes one value. -/
theorem Shape.takesOne_decode (s : Shape) : TakesOne s.codec.decode :=
  inherited_takesOne.decode s

theorem Decoder.skipValue_of_subtree {c : Cursor} {rest : List Token} (h : Subtree c.rest rest)
    (hsmall : c.rest.length ≤ Token.maxEntries + rest.length) :
    Decoder.skipValue c = .ok () (c.past rest) := by
  have hpass : Cursor.passOver 1 c.position c.rest =
      (0, c.position + (c.rest.length - rest.length), rest) := by
    rw [h.passOver hsmall 0 c.position]
    cases rest <;> rfl
  unfold Decoder.skipValue
  rw [Decoder.get_bind, hpass]
  rfl

theorem Decoder.skipValue_tokens (t : Tree) {source : Source} {position start : Nat}
    (hsmall : (t.tokens start).length ≤ Token.maxEntries) (rest : List Token) :
    skipValue ⟨source, position, t.tokens start ++ rest⟩ =
      .ok () ⟨source, position + (t.tokens start).length, rest⟩ := by
  rw [← Cursor.past_append]
  refine skipValue_of_subtree (t.subtree_tokens start rest) ?_
  rw [List.length_append]
  exact Nat.add_le_add_right hsmall _

/-- The cursor in front of a token of a tape. -/
def Tape.cursorAt (tape : Tape) (source : Source) (i : Nat) : Cursor :=
  ⟨source, i, tape.tokens.drop i⟩

open ByteReader LawfulReader

variable {ρ : Type} [ByteReader ρ] [LawfulReader ρ]

theorem Tape.subtree_of_read {limits : Limits} {r : ρ} {tape : Tape}
    (h : (Tape.read limits r).1 = .ok tape) : Subtree tape.tokens [] ∧ tape.size ≤ limit r := by
  obtain ⟨d, htext, -, htokens⟩ := Scan.document_eq_ok_iff.mp (read_fst_eq_ok_iff.mp h)
  have hlength : d.tree.text.length ≤ ((content r).drop (offset r)).length := by
    rw [← htext]
    simp only [Document.text, List.length_append]
    omega
  have htree := d.tree.length_tokens_le (offset r + d.before.bytes.length)
  rw [Tape.size, htokens]
  constructor
  · have hsubtree := d.tree.subtree_tokens (offset r + d.before.bytes.length) []
    rwa [List.append_nil] at hsubtree
  · rw [List.length_drop, ← limit_eq] at hlength
    exact htree.trans (hlength.trans (Nat.sub_le _ _))

/-- From any token of a document on, a decoder of any shape that succeeds comes to
rest where a cursor does that passes over the value, and one that fails comes to
rest behind the token and not beyond that place. -/
theorem Shape.decode_takes_one {limits : Limits} {r : ρ} {tape : Tape}
    (h : (Tape.read limits r).1 = .ok tape) (hlimit : limit r ≤ Token.maxEntries) (s : Shape)
    (source : Source) {i : Nat} (hi : i < tape.size) :
    ∃ after, Decoder.skipValue (tape.cursorAt source i) = .ok () after ∧
      (∀ x c, s.codec.decode (tape.cursorAt source i) = .ok x c → c = after) ∧
      ∀ fault c, s.codec.decode (tape.cursorAt source i) = .error fault c →
        i < c.position ∧ c.position ≤ after.position := by
  obtain ⟨hsubtree, hsize⟩ := Tape.subtree_of_read h
  have hleft : (tape.tokens.drop i).length = tape.size - i := List.length_drop
  obtain ⟨rest, hfront⟩ := hsubtree.of_suffix (List.drop_suffix i tape.tokens) (by
    rw [hleft, List.length_nil]
    omega)
  have hends := s.takesOne_decode (tape.cursorAt source i) rest hfront
  refine ⟨(tape.cursorAt source i).past rest, Decoder.skipValue_of_subtree hfront ?_, ?_, ?_⟩
  · show (tape.tokens.drop i).length ≤ _
    omega
  · intro x c hok
    rwa [hok] at hends
  · intro fault c herror
    rwa [herror] at hends

/-- In `[[],1]` a list of lists is read up to the number at most. -/
theorem Shape.decode_takes_one_nested :
    Decoder.skipValue (Tape.cursorAt ⟨[⟨.array, 0, 6, 2⟩, ⟨.array, 1, 3, 0⟩, ⟨.number, 4, 5, 0⟩]⟩
        (.ofBytes [0x5B, 0x5B, 0x5D, 0x2C, 0x31, 0x5D]) 0) =
      .ok () ⟨.ofBytes [0x5B, 0x5B, 0x5D, 0x2C, 0x31, 0x5D], 3, []⟩ ∧
    ∀ fault c, (Shape.list (.list .bool)).codec.decode
        (Tape.cursorAt ⟨[⟨.array, 0, 6, 2⟩, ⟨.array, 1, 3, 0⟩, ⟨.number, 4, 5, 0⟩]⟩
          (.ofBytes [0x5B, 0x5B, 0x5D, 0x2C, 0x31, 0x5D]) 0) = .error fault c →
      0 < c.position ∧ c.position ≤ 3 := by
  have hread : (Tape.read {} (SliceReader.ofSource
      (.ofBytes [0x5B, 0x5B, 0x5D, 0x2C, 0x31, 0x5D]))).1 =
        .ok ⟨[⟨.array, 0, 6, 2⟩, ⟨.array, 1, 3, 0⟩, ⟨.number, 4, 5, 0⟩]⟩ := by
    cbv
  have hskip : Decoder.skipValue
      (Tape.cursorAt ⟨[⟨.array, 0, 6, 2⟩, ⟨.array, 1, 3, 0⟩, ⟨.number, 4, 5, 0⟩]⟩
        (.ofBytes [0x5B, 0x5B, 0x5D, 0x2C, 0x31, 0x5D]) 0) =
      .ok () ⟨.ofBytes [0x5B, 0x5B, 0x5D, 0x2C, 0x31, 0x5D], 3, []⟩ := rfl
  obtain ⟨after, hafter, -, herror⟩ := Shape.decode_takes_one hread (by decide)
    (.list (.list .bool)) (.ofBytes [0x5B, 0x5B, 0x5D, 0x2C, 0x31, 0x5D]) (i := 0) (by decide)
  rw [hskip] at hafter
  cases hafter
  exact ⟨hskip, herror⟩

end FlatJson
