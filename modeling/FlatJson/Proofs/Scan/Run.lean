import FlatJson.Proofs.Scan.Lexeme

/-!
# Runs of the pass over trees

The pass reads exactly the texts of trees. A run that has to read a value goes on
behind the text of a tree as if the tokens of the tree had been delivered at once
(`run_tree`), and a run that succeeds has a tree in front of it (`exists_tree`).
Neither speaks of what the open containers still demand: the frames are the same
before and after a value, and what is left of the text is read by the same run.
-/

namespace FlatJson

open Ascii

namespace Scan

open Grammar

variable {maxDepth : Nat}

/-- The state in which the next child of a container is read. -/
def State.child (frame : Frame) (outer : List Frame) : State :=
  if frame.isObject then .name frame outer else .value (frame :: outer)

/-- A frame with some tokens more. -/
def Frame.push (frame : Frame) (tokens : List Token) : Frame :=
  { frame with inside := frame.inside ++ tokens.toArray }

/-- A frame with some children more. -/
def Frame.take (frame : Frame) (count : Nat) (tokens : List Token) : Frame :=
  { frame with count := frame.count + count, inside := frame.inside ++ tokens.toArray }

theorem Frame.take_push (frame : Frame) (count : Nat) (ts us : List Token) :
    (frame.push ts).take count us = frame.take count (ts ++ us) := by
  simp [push, take]

theorem Frame.take_take (frame : Frame) (m n : Nat) (ts us : List Token) :
    (frame.take m ts).take n us = frame.take (m + n) (ts ++ us) := by
  simp [take, Nat.add_assoc]

theorem Frame.take_isObject (frame : Frame) (count : Nat) (tokens : List Token) :
    (frame.take count tokens).isObject = frame.isObject := rfl

/-- The frame of a container that has just been opened. -/
def Frame.opened (isObject : Bool) (start : Nat) : Frame :=
  ⟨isObject, start, 0, #[]⟩

theorem Frame.close_take_opened (isObject : Bool) (start stop count : Nat)
    (tokens : List Token) :
    ((Frame.opened isObject start).take count tokens).close stop =
      (⟨containerKind isObject, start, stop, count⟩ :: tokens).toArray := by
  simp [close, take, opened, kind, containerKind]

theorem Frame.closer_eq (frame : Frame) : frame.closer = Grammar.closer frame.isObject := rfl

theorem deliver_cons (tokens : List Token) (frame : Frame) (outer : List Frame) :
    deliver tokens.toArray (frame :: outer) = .separator (frame.take 1 tokens) outer := rfl

/-! One step after the other. -/

theorem run_eq (state : State) (p : Place) :
    run maxDepth state p =
      match step maxDepth state p with
      | .finished result => result
      | .go next place => run maxDepth next place := by
  rw [run]
  split
  · next result h => simp only [h]
  · next next place h => simp only [h]

/-- A run does not see the blanks in front of it. -/
theorem run_skipBlanks (state : State) (offset : Nat) (bs : Bytes) :
    run maxDepth state (skipBlanks offset bs) = run maxDepth state ⟨offset, bs⟩ := by
  rw [run_eq, run_eq state ⟨offset, bs⟩]
  unfold step
  rw [skipBlanks_skipBlanks]

theorem run_append_blanks (state : State) (offset : Nat) (b : Blanks) (rest : Bytes) :
    run maxDepth state ⟨offset, b.bytes ++ rest⟩ =
      run maxDepth state ⟨offset + b.bytes.length, rest⟩ := by
  rw [← run_skipBlanks, skipBlanks_append, run_skipBlanks]

/-- A run goes on from what its first step has read. -/
theorem run_of_step {state : State} {p : Place} {next : State × Place}
    (hstep : step maxDepth state p = .ofStep (.ok next)) :
    run maxDepth state p = run maxDepth next.1 next.2 := by
  rw [run_eq, hstep]
  rfl

theorem exists_read_of_run {state : State} {p : Place} {read : Except Stop (State × Place)}
    {ts : Array Token} (hstep : step maxDepth state p = .ofStep read)
    (h : run maxDepth state p = .ok ts) :
    ∃ next, read = .ok next ∧ run maxDepth next.1 next.2 = .ok ts := by
  cases read with
  | error stop =>
      rw [run_eq, hstep] at h
      cases h
  | ok next => exact ⟨next, rfl, (run_of_step hstep).symm.trans h⟩

/-! What a step reads in front of no blank. -/

theorem step_value (outer : List Frame) {p : Place} (hp : NotAhead isBlank p.rest) :
    step maxDepth (.value outer) p = .ofStep (readValue maxDepth outer p) := by
  rw [step, skipBlanks_of_notAhead _ hp]

theorem step_name (frame : Frame) (outer : List Frame) {p : Place}
    (hp : NotAhead isBlank p.rest) :
    step maxDepth (.name frame outer) p = .ofStep (readName frame outer p) := by
  rw [step, skipBlanks_of_notAhead _ hp]

theorem step_separator (frame : Frame) (outer : List Frame) {p : Place}
    (hp : NotAhead isBlank p.rest) :
    step maxDepth (.separator frame outer) p = .ofStep (readSeparator frame outer p) := by
  rw [step, skipBlanks_of_notAhead _ hp]

theorem run_done_eq (tokens : Array Token) {p : Place} (hp : NotAhead isBlank p.rest) :
    run maxDepth (.done tokens) p = readEnd tokens p := by
  rw [run_eq, step, skipBlanks_of_notAhead _ hp]

/-! Reading what a tree derives. -/

theorem opener_cases (isObject : Bool) :
    isBlank (opener isObject) = false ∧
      (opener isObject == openBrace || opener isObject == openBracket) = true ∧
      (opener isObject == openBrace) = isObject := by
  cases isObject <;> decide

theorem closer_cases (isObject : Bool) :
    isBlank (closer isObject) = false ∧ (closer isObject == comma) = false ∧
      isDelimiter (closer isObject) = true := by
  cases isObject <;> decide

/-- What stands at the place after the blanks at the front of a text is not the
delimiter that closes a container. -/
def NotClosed (isObject : Bool) (bs : Bytes) : Prop :=
  (bs.dropWhile isBlank).head? ≠ some (closer isObject)

theorem NotClosed.append_blanks {isObject : Bool} {bs : Bytes} (h : NotClosed isObject bs)
    (b : Blanks) : NotClosed isObject (b.bytes ++ bs) := by
  unfold NotClosed
  rw [List.dropWhile_append_of_pos b.blank]
  exact h

theorem notClosed_cons {isObject : Bool} {b : UInt8} (bs : Bytes) (hblank : isBlank b = false)
    (hb : b ≠ closer isObject) : NotClosed isObject (b :: bs) := by
  unfold NotClosed
  rw [List.dropWhile_cons_of_neg (by simp [hblank]), List.head?_cons]
  exact fun h => hb (Option.some.inj h)

theorem run_lexeme (x : Lexeme) (outer : List Frame) (offset : Nat) {rest : Bytes}
    (hrest : Delimited rest) :
    run maxDepth (.value outer) ⟨offset, x.text ++ rest⟩ =
      run maxDepth (deliver #[x.token offset] outer) ⟨offset + x.text.length, rest⟩ := by
  obtain ⟨b, bs, htext, hb⟩ := exists_cons_lexeme x
  have hcons : x.text ++ rest = b :: (bs ++ rest) := by rw [htext, List.cons_append]
  have hopener : (b == openBrace || b == openBracket) = false := by
    rw [Bool.or_eq_false_iff, beq_eq_false_iff_ne, beq_eq_false_iff_ne]
    exact ⟨ne_of_isLexemeStart hb (by decide), ne_of_isLexemeStart hb (by decide)⟩
  have hread : readValue maxDepth outer ⟨offset, x.text ++ rest⟩ =
      .ok (deliver #[x.token offset] outer, ⟨offset + x.text.length, rest⟩) := by
    unfold readValue
    simp only [hcons, hopener, Bool.false_eq_true, if_false]
    rw [← hcons, scalar_append htext offset hrest]
  have hblank : NotAhead isBlank (x.text ++ rest) := by
    rw [hcons]
    exact notAhead_cons.mpr (isBlank_of_isLexemeStart hb)
  exact run_of_step ((step_value outer hblank).trans (congrArg _ hread))

/-- An opening delimiter is taken where there is room for one container more. -/
theorem run_opener (isObject : Bool) {outer : List Frame} (hdepth : outer.length < maxDepth)
    (offset : Nat) (rest : Bytes) :
    run maxDepth (.value outer) ⟨offset, opener isObject :: rest⟩ =
      run maxDepth (enter (.opened isObject offset) outer (skipBlanks (offset + 1) rest)).1
        (enter (.opened isObject offset) outer (skipBlanks (offset + 1) rest)).2 := by
  obtain ⟨hblank, hopener, hkind⟩ := opener_cases isObject
  have hread : readValue maxDepth outer ⟨offset, opener isObject :: rest⟩ =
      .ok (enter (.opened isObject offset) outer (skipBlanks (offset + 1) rest)) := by
    unfold readValue
    simp only
    rw [if_pos hopener, if_neg (Nat.not_le.mpr hdepth), hkind]
    rfl
  exact run_of_step ((step_value outer (notAhead_cons.mpr hblank)).trans (congrArg _ hread))

theorem run_empty (isObject : Bool) {outer : List Frame} (hdepth : outer.length < maxDepth)
    (offset : Nat) (inside : Blanks) (rest : Bytes) :
    run maxDepth (.value outer)
        ⟨offset, opener isObject :: (inside.bytes ++ closer isObject :: rest)⟩ =
      run maxDepth (deliver ((Tree.empty isObject inside).tokens offset).toArray outer)
        ⟨offset + inside.bytes.length + 2, rest⟩ := by
  obtain ⟨hblank, -, -⟩ := closer_cases isObject
  rw [run_opener isObject hdepth, skipBlanks_append,
    skipBlanks_of_notAhead _ (notAhead_cons.mpr hblank)]
  have hstop : offset + 1 + inside.bytes.length + 1 = offset + inside.bytes.length + 2 := by
    omega
  simp only [enter, Frame.closer_eq, Frame.opened, beq_self_eq_true, if_true, hstop, Frame.close,
    Frame.kind, Tree.tokens, containerKind, Array.append_empty]
  rfl

theorem run_enter (isObject : Bool) {outer : List Frame} (hdepth : outer.length < maxDepth)
    (offset : Nat) {rest : Bytes} (hrest : NotClosed isObject rest) :
    run maxDepth (.value outer) ⟨offset, opener isObject :: rest⟩ =
      run maxDepth (.child (.opened isObject offset) outer) ⟨offset + 1, rest⟩ := by
  rw [run_opener isObject hdepth, ← run_skipBlanks _ (offset + 1) rest]
  unfold NotClosed at hrest
  unfold enter
  rw [skipBlanks_eq]
  cases hdrop : rest.dropWhile isBlank with
  | nil => rfl
  | cons b bs =>
      rw [hdrop, List.head?_cons] at hrest
      have hb : (b == (Frame.opened isObject offset).closer) = false := by
        rw [beq_eq_false_iff_ne]
        exact fun h => hrest (congrArg some h)
      simp only [hb, Bool.false_eq_true, if_false]
      rfl

/-- Behind the string that is to be a name a colon is read, or found to be
missing. -/
theorem readName_quoted (frame : Frame) (outer : List Frame) (offset : Nat) (q : Quoted)
    (after : Blanks) {rest : Bytes} (hrest : NotAhead isBlank rest) {stop : Nat}
    (hstop : offset + q.text.length + after.bytes.length = stop) :
    readName frame outer ⟨offset, q.text ++ (after.bytes ++ rest)⟩ =
      match rest with
      | [] => .error (endOfInput stop stop)
      | c :: left =>
        if c == colon then
          .ok (.value (frame.push [(Lexeme.string q).token offset] :: outer), ⟨stop + 1, left⟩)
        else .error ⟨.expectedColon, stop, stop + 1⟩ := by
  have htext : q.text ++ (after.bytes ++ rest) =
      quote :: (q.raw ++ quote :: (after.bytes ++ rest)) := by
    simp [Quoted.text]
  subst hstop
  rw [htext]
  unfold readName
  simp only [beq_self_eq_true, if_true, string_append, skipBlanks_append,
    skipBlanks_of_notAhead _ hrest]
  cases rest <;> simp [Frame.push]

theorem readName_append (frame : Frame) (outer : List Frame) (offset : Nat) (q : Quoted)
    (after : Blanks) (rest : Bytes) :
    readName frame outer ⟨offset, q.text ++ (after.bytes ++ colon :: rest)⟩ =
      .ok (.value (frame.push [(Lexeme.string q).token offset] :: outer),
        ⟨offset + q.text.length + after.bytes.length + 1, rest⟩) := by
  have hcolon : NotAhead isBlank (colon :: rest) := notAhead_cons.mpr (by decide)
  exact readName_quoted frame outer offset q after hcolon rfl

theorem run_name (frame : Frame) (outer : List Frame) (offset : Nat) (q : Quoted)
    (after : Blanks) (rest : Bytes) :
    run maxDepth (.name frame outer) ⟨offset, q.text ++ (after.bytes ++ colon :: rest)⟩ =
      run maxDepth (.value (frame.push [(Lexeme.string q).token offset] :: outer))
        ⟨offset + q.text.length + after.bytes.length + 1, rest⟩ := by
  have hquote : NotAhead isBlank (q.text ++ (after.bytes ++ colon :: rest)) :=
    notAhead_cons.mpr (by decide)
  exact run_of_step ((step_name frame outer hquote).trans
    (congrArg _ (readName_append frame outer offset q after rest)))

theorem run_label {frame : Frame} {isObject : Bool} (hframe : frame.isObject = isObject)
    (label : Label isObject) (outer : List Frame) (offset : Nat) (rest : Bytes) :
    run maxDepth (.child frame outer) ⟨offset, label.text ++ rest⟩ =
      run maxDepth (.value (frame.push (label.tokens offset) :: outer))
        ⟨offset + label.text.length, rest⟩ := by
  cases label with
  | element =>
      have hpush : frame.push [] = frame := by simp [Frame.push]
      simp [State.child, hframe, Label.text, Label.tokens, hpush]
  | name before s after =>
      have htext : (Label.name before s after).text ++ rest =
          before.bytes ++ (s.text ++ (after.bytes ++ colon :: rest)) := by
        simp [Label.text]
      have hstop : offset + (Label.name before s after).text.length =
          offset + before.bytes.length + s.text.length + after.bytes.length + 1 := by
        simp only [Label.text, List.length_append, List.length_cons, List.length_nil]
        omega
      rw [htext, run_append_blanks, hstop, State.child, hframe, if_pos rfl, run_name]
      rfl

theorem run_comma {frame : Frame} {isObject : Bool} (hframe : frame.isObject = isObject)
    (outer : List Frame) (offset : Nat) {rest : Bytes} (hrest : NotClosed isObject rest) :
    run maxDepth (.separator frame outer) ⟨offset, comma :: rest⟩ =
      run maxDepth (.child frame outer) ⟨offset + 1, rest⟩ := by
  subst hframe
  have hnext : ((skipBlanks (offset + 1) rest).rest.head? == some frame.closer) = false := by
    rw [skipBlanks_eq, beq_eq_false_iff_ne]
    exact hrest
  have hread : readSeparator frame outer ⟨offset, comma :: rest⟩ =
      .ok (.child frame outer, skipBlanks (offset + 1) rest) := by
    unfold readSeparator
    simp only [beq_self_eq_true, if_true, hnext, Bool.false_eq_true, if_false]
    rfl
  rw [run_of_step ((step_separator frame outer (notAhead_cons.mpr (by decide))).trans
    (congrArg _ hread))]
  exact run_skipBlanks _ _ _

theorem readSeparator_closer (frame : Frame) (outer : List Frame) (offset : Nat) (rest : Bytes) :
    readSeparator frame outer ⟨offset, frame.closer :: rest⟩ =
      .ok (deliver (frame.close (offset + 1)) outer, ⟨offset + 1, rest⟩) := by
  obtain ⟨-, hcomma, -⟩ := closer_cases frame.isObject
  unfold readSeparator
  simp only [Frame.closer_eq, hcomma, Bool.false_eq_true, if_false, beq_self_eq_true, if_true]

theorem run_closer {frame : Frame} {isObject : Bool} (hframe : frame.isObject = isObject)
    (outer : List Frame) (offset : Nat) (rest : Bytes) :
    run maxDepth (.separator frame outer) ⟨offset, closer isObject :: rest⟩ =
      run maxDepth (deliver (frame.close (offset + 1)) outer) ⟨offset + 1, rest⟩ := by
  subst hframe
  obtain ⟨hblank, -, -⟩ := closer_cases frame.isObject
  exact run_of_step ((step_separator frame outer (notAhead_cons.mpr hblank)).trans
    (congrArg _ (readSeparator_closer frame outer offset rest)))

/-- A value begins with no blank and with no closing delimiter. -/
theorem notClosed_tree (t : Tree) (isObject : Bool) (rest : Bytes) :
    NotClosed isObject (t.text ++ rest) := by
  have hopener : ∀ o, opener o ≠ closer isObject := by
    intro o
    cases o <;> cases isObject <;> decide
  cases t with
  | scalar x =>
      obtain ⟨b, bs, htext, hb⟩ := exists_cons_lexeme x
      rw [Tree.text, htext, List.cons_append]
      refine notClosed_cons _ (isBlank_of_isLexemeStart hb) (ne_of_isLexemeStart hb ?_)
      cases isObject <;> decide
  | empty o inside => exact notClosed_cons _ (opener_cases o).1 (hopener o)
  | container o children => exact notClosed_cons _ (opener_cases o).1 (hopener o)

theorem notClosed_label {isObject : Bool} (label : Label isObject) (before : Blanks) (t : Tree)
    (rest : Bytes) : NotClosed isObject (label.text ++ before.bytes ++ t.text ++ rest) := by
  cases label with
  | element =>
      rw [List.append_assoc, List.append_assoc]
      exact (notClosed_tree t false rest).append_blanks before
  | name first s after =>
      simp only [Label.text, Quoted.text, List.append_assoc, List.cons_append]
      exact (notClosed_cons _ (by decide) (by decide)).append_blanks first

/-- Children begin with no closing delimiter. -/
theorem notClosed_children {isObject : Bool} (children : Children isObject) (rest : Bytes) :
    NotClosed isObject (children.text ++ rest) := by
  cases children with
  | last label before t after =>
      rw [Children.text, List.append_assoc]
      exact notClosed_label label before t _
  | more label before t after more =>
      rw [Children.text, List.append_assoc, List.append_assoc]
      exact notClosed_label label before t _

/-- One child, from its name to the blanks behind it, where `hvalue` reads its
value. -/
theorem run_child {frame : Frame} {isObject : Bool} (hframe : frame.isObject = isObject)
    (label : Label isObject) (before : Blanks) (t : Tree) (after : Blanks)
    (outer : List Frame) (offset : Nat) {rest : Bytes} (hrest : Delimited rest)
    (hvalue : ∀ (frames : List Frame) (start : Nat) (left : Bytes),
      frames.length = outer.length + 1 → Delimited left →
      run maxDepth (.value frames) ⟨start, t.text ++ left⟩ =
        run maxDepth (deliver (t.tokens start).toArray frames) ⟨start + t.text.length, left⟩) :
    run maxDepth (.child frame outer)
        ⟨offset, label.text ++ before.bytes ++ t.text ++ after.bytes ++ rest⟩ =
      run maxDepth
        (.separator (frame.take 1 (label.tokens offset ++
          t.tokens (offset + label.text.length + before.bytes.length))) outer)
        ⟨offset + label.text.length + before.bytes.length + t.text.length + after.bytes.length,
          rest⟩ := by
  simp only [List.append_assoc]
  rw [run_label hframe, run_append_blanks, hvalue _ _ _ rfl (hrest.append_blanks after),
    deliver_cons, run_append_blanks, Frame.take_push]

mutual

/-- A value is read as its tree says: all of it is taken, and its tokens are
delivered. -/
theorem run_tree : ∀ (t : Tree) (outer : List Frame) (offset : Nat) {rest : Bytes},
    t.height + outer.length ≤ maxDepth → Delimited rest →
    run maxDepth (.value outer) ⟨offset, t.text ++ rest⟩ =
      run maxDepth (deliver (t.tokens offset).toArray outer) ⟨offset + t.text.length, rest⟩
  | .scalar x, outer, offset, _, _, hrest => run_lexeme x outer offset hrest
  | .empty isObject inside, outer, offset, rest, hdepth, _ => by
      rw [Grammar.Tree.height] at hdepth
      have htext : (Tree.empty isObject inside).text ++ rest =
          opener isObject :: (inside.bytes ++ closer isObject :: rest) := by
        simp [Tree.text]
      have hlength : (Tree.empty isObject inside).text.length = inside.bytes.length + 2 := by
        simp [Tree.text]
      rw [htext, run_empty isObject (by omega), hlength, Nat.add_assoc]
  | .container isObject children, outer, offset, rest, hdepth, _ => by
      rw [Grammar.Tree.height] at hdepth
      have htext : (Tree.container isObject children).text ++ rest =
          opener isObject :: (children.text ++ closer isObject :: rest) := by
        simp [Tree.text]
      have hstop : offset + 1 + children.text.length + 1 =
          offset + (Tree.container isObject children).text.length := by
        simp only [Tree.text, List.length_cons, List.length_append, List.length_nil]
        omega
      rw [htext, run_enter isObject (by omega) offset (notClosed_children children _),
        run_children children rfl outer (offset + 1) (by omega), hstop,
        Frame.close_take_opened, Tree.tokens]
      simp only [Tree.text, List.length_cons, List.length_append, List.length_nil]
      congr 5

/-- Children are read up to the delimiter that closes their container. -/
theorem run_children : ∀ {isObject : Bool} (children : Children isObject) {frame : Frame},
    frame.isObject = isObject → ∀ (outer : List Frame) (offset : Nat) {rest : Bytes},
    children.height + outer.length + 1 ≤ maxDepth →
    run maxDepth (.child frame outer) ⟨offset, children.text ++ closer isObject :: rest⟩ =
      run maxDepth
        (deliver ((frame.take children.size (children.tokens offset)).close
          (offset + children.text.length + 1)) outer)
        ⟨offset + children.text.length + 1, rest⟩
  | isObject, .last label before t after, frame, hframe, outer, offset, rest, hdepth => by
      rw [Children.height] at hdepth
      have hvalue : ∀ (frames : List Frame) (start : Nat) (left : Bytes),
          frames.length = outer.length + 1 → Delimited left →
          run maxDepth (.value frames) ⟨start, t.text ++ left⟩ =
            run maxDepth (deliver (t.tokens start).toArray frames)
              ⟨start + t.text.length, left⟩ :=
        fun frames start left hframes hleft => run_tree t frames start (by omega) hleft
      have hclose : Delimited (closer isObject :: rest) :=
        delimited_cons.mpr (closer_cases isObject).2.2
      have hstop : offset + label.text.length + before.bytes.length + t.text.length +
          after.bytes.length = offset + (Children.last label before t after).text.length := by
        simp only [Children.text, List.length_append]
        omega
      rw [Children.text, run_child hframe label before t after outer offset hclose hvalue,
        run_closer ((frame.take_isObject 1 _).trans hframe), hstop]
      rfl
  | isObject, .more label before t after more, frame, hframe, outer, offset, rest, hdepth => by
      rw [Children.height] at hdepth
      have hvalue : ∀ (frames : List Frame) (start : Nat) (left : Bytes),
          frames.length = outer.length + 1 → Delimited left →
          run maxDepth (.value frames) ⟨start, t.text ++ left⟩ =
            run maxDepth (deliver (t.tokens start).toArray frames)
              ⟨start + t.text.length, left⟩ :=
        fun frames start left hframes hleft => run_tree t frames start (by omega) hleft
      have hcomma : Delimited (comma :: (more.text ++ closer isObject :: rest)) :=
        delimited_cons.mpr (by decide)
      have htext : (Children.more label before t after more).text ++ closer isObject :: rest =
          label.text ++ before.bytes ++ t.text ++ after.bytes ++
            comma :: (more.text ++ closer isObject :: rest) := by
        simp [Children.text]
      have hstop : offset + label.text.length + before.bytes.length + t.text.length +
          after.bytes.length + 1 + more.text.length =
            offset + (Children.more label before t after more).text.length := by
        simp only [Children.text, List.length_append, List.length_cons]
        omega
      rw [htext, run_child hframe label before t after outer offset hcomma hvalue,
        run_comma ((frame.take_isObject 1 _).trans hframe) outer _ (notClosed_children more _),
        run_children more ((frame.take_isObject 1 _).trans hframe) outer _ (by omega),
        Frame.take_take, hstop, Children.tokens, Children.size, Nat.add_comm 1]

end

end Scan

end FlatJson
