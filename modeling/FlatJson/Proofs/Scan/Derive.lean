import FlatJson.Proofs.Scan.Run

/-!
# Derivations behind successful runs

A run of the pass that succeeds has a derivation in front of it. Each state is
inverted once, into what stands at the front of the text and the run that is
left. `ReadsTree` and `ReadsChildren` say that of a whole value and of all the
children of a container; every text has both, by induction on its length.

`document_eq_ok_iff` is the outcome: the pass accepts the texts of the grammar,
up to the greatest depth, and its tape is the preorder listing of a derivation.
-/

namespace FlatJson

open Ascii

namespace Scan

open Grammar

variable {maxDepth : Nat}

/-- The blanks at the front of a text, and the rest of it. -/
theorem exists_blanks (bs : Bytes) :
    ∃ (b : Blanks) (rest : Bytes), bs = b.bytes ++ rest ∧ NotAhead isBlank rest :=
  ⟨⟨bs.takeWhile isBlank, fun _ hb => List.mem_takeWhile_imp hb⟩, bs.dropWhile isBlank,
    List.takeWhile_append_dropWhile.symm, notAhead_dropWhile isBlank bs⟩

/-- Where a container has been opened, it is closed at once or its first child
comes. -/
theorem enter_cases (isObject : Bool) (outer : List Frame) (offset : Nat) (rest : Bytes) :
    (∃ (inside : Blanks) (left : Bytes), rest = inside.bytes ++ closer isObject :: left ∧
      enter (.opened isObject offset) outer (skipBlanks (offset + 1) rest) =
        (deliver ((Tree.empty isObject inside).tokens offset).toArray outer,
          ⟨offset + inside.bytes.length + 2, left⟩)) ∨
    ∃ (inside : Blanks) (left : Bytes), rest = inside.bytes ++ left ∧
      enter (.opened isObject offset) outer (skipBlanks (offset + 1) rest) =
        (.child (.opened isObject offset) outer, ⟨offset + 1 + inside.bytes.length, left⟩) := by
  obtain ⟨inside, rest, rfl, hrest⟩ := exists_blanks rest
  rw [skipBlanks_append, skipBlanks_of_notAhead _ hrest]
  cases rest with
  | nil => exact Or.inr ⟨inside, [], rfl, rfl⟩
  | cons c left =>
      by_cases hc : c = (Frame.opened isObject offset).closer
      · refine Or.inl ⟨inside, left, by rw [hc]; rfl, ?_⟩
        have hstop : offset + 1 + inside.bytes.length + 1 = offset + inside.bytes.length + 2 := by
          omega
        simp only [enter, if_pos (beq_iff_eq.mpr hc), hstop, Tree.tokens]
        rfl
      · refine Or.inr ⟨inside, c :: left, rfl, ?_⟩
        simp only [enter, beq_iff_eq, if_neg hc]
        rfl

theorem run_opened_ok {isObject : Bool} {outer : List Frame} {offset : Nat} {rest : Bytes}
    {ts : Array Token}
    (h : run maxDepth (enter (.opened isObject offset) outer (skipBlanks (offset + 1) rest)).1
      (enter (.opened isObject offset) outer (skipBlanks (offset + 1) rest)).2 = .ok ts) :
    (∃ (inside : Blanks) (left : Bytes), rest = inside.bytes ++ closer isObject :: left ∧
      run maxDepth (deliver ((Tree.empty isObject inside).tokens offset).toArray outer)
        ⟨offset + inside.bytes.length + 2, left⟩ = .ok ts) ∨
    run maxDepth (.child (.opened isObject offset) outer) ⟨offset + 1, rest⟩ = .ok ts := by
  rcases enter_cases isObject outer offset rest with
    ⟨inside, left, rfl, henter⟩ | ⟨inside, left, rfl, henter⟩
  · rw [henter] at h
    exact Or.inl ⟨inside, left, rfl, h⟩
  · rw [henter] at h
    rw [run_append_blanks]
    exact Or.inr h

theorem readValue_ok {outer : List Frame} {offset : Nat} {bs : Bytes} {next : State × Place}
    (h : readValue maxDepth outer ⟨offset, bs⟩ = .ok next) :
    (∃ (x : Lexeme) (left : Bytes), bs = x.text ++ left ∧
      next = (deliver #[x.token offset] outer, ⟨offset + x.text.length, left⟩)) ∨
    (∃ (isObject : Bool) (rest : Bytes), outer.length < maxDepth ∧
      bs = opener isObject :: rest ∧
      next = enter (.opened isObject offset) outer (skipBlanks (offset + 1) rest)) := by
  unfold readValue at h
  cases bs with
  | nil => cases h
  | cons b rest =>
      simp only at h
      split at h
      · next hb =>
          split at h
          · cases h
          · next hdepth =>
              cases h
              refine Or.inr ⟨b == openBrace, rest, Nat.not_le.mp hdepth, ?_, rfl⟩
              rw [Bool.or_eq_true, beq_iff_eq, beq_iff_eq] at hb
              rcases hb with rfl | rfl <;> rfl
      · split at h
        · next token after hscalar =>
            cases h
            obtain ⟨x, htext, rfl, hoffset⟩ := scalar_ok hscalar
            refine Or.inl ⟨x, after.rest, htext, ?_⟩
            rw [← hoffset]
        · cases h

/-- A run that has to read a value finds a lexeme or the opening delimiter of a
container that is not too deep. -/
theorem run_value_ok {outer : List Frame} {offset : Nat} {bs : Bytes} {ts : Array Token}
    (hbs : NotAhead isBlank bs) (h : run maxDepth (.value outer) ⟨offset, bs⟩ = .ok ts) :
    (∃ (x : Lexeme) (left : Bytes), bs = x.text ++ left ∧
      run maxDepth (deliver #[x.token offset] outer) ⟨offset + x.text.length, left⟩ = .ok ts) ∨
    (∃ (isObject : Bool) (rest : Bytes), outer.length < maxDepth ∧
      bs = opener isObject :: rest ∧
      run maxDepth (enter (.opened isObject offset) outer (skipBlanks (offset + 1) rest)).1
        (enter (.opened isObject offset) outer (skipBlanks (offset + 1) rest)).2 = .ok ts) := by
  obtain ⟨next, hread, hrun⟩ := exists_read_of_run (step_value outer hbs) h
  rcases readValue_ok hread with ⟨x, left, htext, rfl⟩ | ⟨isObject, rest, hdepth, htext, rfl⟩
  · exact Or.inl ⟨x, left, htext, hrun⟩
  · exact Or.inr ⟨isObject, rest, hdepth, htext, hrun⟩

/-- Where a name has to come, a string and the blanks behind it are found, or a
string that is refused, or no string at all. -/
theorem name_cases (offset : Nat) (bs : Bytes) :
    (∃ (q : Quoted) (after : Blanks) (rest : Bytes),
      bs = q.text ++ (after.bytes ++ rest) ∧ NotAhead isBlank rest) ∨
    (∃ (rest : Bytes) (stop : Stop), bs = quote :: rest ∧ string offset rest = .error stop) ∨
    (∃ (b : UInt8) (rest : Bytes), bs = b :: rest ∧ (b == quote) = false) ∨ bs = [] := by
  cases bs with
  | nil => exact .inr (.inr (.inr rfl))
  | cons b rest =>
      cases hb : b == quote with
      | false => exact .inr (.inr (.inl ⟨b, rest, rfl, hb⟩))
      | true =>
          obtain rfl := beq_iff_eq.mp hb
          cases hstring : string offset rest with
          | error stop => exact .inr (.inl ⟨rest, stop, rfl, hstring⟩)
          | ok read =>
              obtain ⟨q, htext, -, -⟩ := string_ok hstring
              obtain ⟨after, left, hafter, hleft⟩ := exists_blanks read.2.rest
              exact .inl ⟨q, after, left, by rw [htext, hafter], hleft⟩

theorem readName_ok {frame : Frame} {outer : List Frame} {offset : Nat} {bs : Bytes}
    {next : State × Place} (h : readName frame outer ⟨offset, bs⟩ = .ok next) :
    ∃ (s : Quoted) (after : Blanks) (left : Bytes),
      bs = s.text ++ (after.bytes ++ colon :: left) ∧
      next = (.value (frame.push [(Lexeme.string s).token offset] :: outer),
        ⟨offset + s.text.length + after.bytes.length + 1, left⟩) := by
  rcases name_cases offset bs with
    ⟨q, after, rest, rfl, hrest⟩ | ⟨rest, stop, rfl, hstring⟩ | ⟨b, rest, rfl, hb⟩ | rfl
  · rw [readName_quoted frame outer offset q after hrest rfl] at h
    cases rest with
    | nil => cases h
    | cons c left =>
        simp only at h
        split at h
        · next hc =>
            cases h
            exact ⟨q, after, left, by rw [beq_iff_eq.mp hc], rfl⟩
        · cases h
  · simp only [readName, beq_self_eq_true, if_true, hstring] at h
    cases h
  · simp only [readName, hb, Bool.false_eq_true, if_false] at h
    cases h
  · cases h

/-- A run that has to read a child finds what stands in front of its value. -/
theorem run_child_ok {frame : Frame} {isObject : Bool} (hframe : frame.isObject = isObject)
    {outer : List Frame} {offset : Nat} {bs : Bytes} {ts : Array Token}
    (h : run maxDepth (.child frame outer) ⟨offset, bs⟩ = .ok ts) :
    ∃ (label : Label isObject) (left : Bytes), bs = label.text ++ left ∧
      run maxDepth (.value (frame.push (label.tokens offset) :: outer))
        ⟨offset + label.text.length, left⟩ = .ok ts := by
  cases isObject with
  | false =>
      have hpush : frame.push [] = frame := by simp [Frame.push]
      refine ⟨.element, bs, rfl, ?_⟩
      rw [State.child, if_neg (by simp [hframe])] at h
      rw [Label.tokens, hpush]
      exact h
  | true =>
      obtain ⟨before, rest, rfl, hrest⟩ := exists_blanks bs
      rw [run_append_blanks, State.child, if_pos hframe] at h
      obtain ⟨next, hread, hrun⟩ := exists_read_of_run (step_name frame outer hrest) h
      obtain ⟨s, after, left, rfl, rfl⟩ := readName_ok hread
      refine ⟨.name before s after, left, by simp [Label.text], ?_⟩
      have hstop : offset + (Label.name before s after).text.length =
          offset + before.bytes.length + s.text.length + after.bytes.length + 1 := by
        simp only [Label.text, List.length_append, List.length_cons, List.length_nil]
        omega
      rw [hstop]
      exact hrun

theorem readSeparator_ok {frame : Frame} {outer : List Frame} {offset : Nat} {bs : Bytes}
    {next : State × Place} (h : readSeparator frame outer ⟨offset, bs⟩ = .ok next) :
    ∃ left : Bytes,
      (bs = frame.closer :: left ∧
        next = (deliver (frame.close (offset + 1)) outer, ⟨offset + 1, left⟩)) ∨
      (bs = comma :: left ∧ next = (.child frame outer, skipBlanks (offset + 1) left)) := by
  unfold readSeparator at h
  cases bs with
  | nil => cases h
  | cons b left =>
      simp only at h
      split at h
      · next hcomma =>
          rw [beq_iff_eq] at hcomma
          subst hcomma
          split at h
          · cases h
          · cases h
            exact ⟨left, Or.inr ⟨rfl, rfl⟩⟩
      · split at h
        · next hb =>
            rw [beq_iff_eq] at hb
            subst hb
            cases h
            exact ⟨left, Or.inl ⟨rfl, rfl⟩⟩
        · cases h

/-- Behind a child stands the delimiter that closes the container, or a comma
and the next child. -/
theorem run_separator_ok {frame : Frame} {isObject : Bool} (hframe : frame.isObject = isObject)
    {outer : List Frame} {offset : Nat} {bs : Bytes} {ts : Array Token}
    (h : run maxDepth (.separator frame outer) ⟨offset, bs⟩ = .ok ts) :
    ∃ (after : Blanks) (left : Bytes),
      (bs = after.bytes ++ closer isObject :: left ∧
        run maxDepth (deliver (frame.close (offset + after.bytes.length + 1)) outer)
          ⟨offset + after.bytes.length + 1, left⟩ = .ok ts) ∨
      (bs = after.bytes ++ comma :: left ∧
        run maxDepth (.child frame outer) ⟨offset + after.bytes.length + 1, left⟩ = .ok ts) := by
  subst hframe
  obtain ⟨after, rest, rfl, hrest⟩ := exists_blanks bs
  rw [run_append_blanks] at h
  obtain ⟨next, hread, hrun⟩ := exists_read_of_run (step_separator frame outer hrest) h
  obtain ⟨left, ⟨rfl, rfl⟩ | ⟨rfl, rfl⟩⟩ := readSeparator_ok hread
  · exact ⟨after, left, Or.inl ⟨rfl, hrun⟩⟩
  · exact ⟨after, left, Or.inr ⟨rfl, (run_skipBlanks _ _ _).symm.trans hrun⟩⟩

/-- The pass ends where nothing but blanks is left. -/
theorem run_done_eq_ok_iff {tokens ts : Array Token} {offset : Nat} {bs : Bytes} :
    run maxDepth (.done tokens) ⟨offset, bs⟩ = .ok ts ↔
      (∃ after : Blanks, bs = after.bytes) ∧ ts = tokens := by
  obtain ⟨after, rest, rfl, hrest⟩ := exists_blanks bs
  rw [run_append_blanks, run_done_eq _ hrest]
  cases rest with
  | nil =>
      constructor
      · intro h
        cases h
        exact ⟨⟨after, List.append_nil _⟩, rfl⟩
      · intro h
        rcases h with ⟨-, rfl⟩
        rfl
  | cons b rest =>
      constructor
      · intro h
        cases h
      · intro h
        rcases h with ⟨⟨blanks, hblanks⟩, -⟩
        rw [notAhead_cons] at hrest
        have hb := blanks.blank b (by rw [← hblanks]; simp)
        rw [hrest] at hb
        cases hb

/-- In front of every successful run that has to read a value stands a tree, and
the run goes on behind it. -/
def ReadsTree (maxDepth : Nat) (bs : Bytes) : Prop :=
  ∀ (outer : List Frame) (offset : Nat) (ts : Array Token),
    run maxDepth (.value outer) ⟨offset, bs⟩ = .ok ts →
    ∃ (before : Blanks) (t : Tree) (left : Bytes), bs = before.bytes ++ t.text ++ left ∧
      t.height ≤ maxDepth - outer.length ∧
      run maxDepth (deliver (t.tokens (offset + before.bytes.length)).toArray outer)
        ⟨offset + before.bytes.length + t.text.length, left⟩ = .ok ts

/-- The same for the children of a container and the delimiter behind them. -/
def ReadsChildren (maxDepth : Nat) (bs : Bytes) : Prop :=
  ∀ (frame : Frame) (isObject : Bool), frame.isObject = isObject →
    ∀ (outer : List Frame) (offset : Nat) (ts : Array Token),
    run maxDepth (.child frame outer) ⟨offset, bs⟩ = .ok ts →
    ∃ (children : Children isObject) (left : Bytes),
      bs = children.text ++ closer isObject :: left ∧
      children.height ≤ maxDepth - (outer.length + 1) ∧
      run maxDepth
        (deliver ((frame.take children.size (children.tokens offset)).close
          (offset + children.text.length + 1)) outer)
        ⟨offset + children.text.length + 1, left⟩ = .ok ts

theorem readsTree_of_children {bs : Bytes}
    (hchildren : ∀ left : Bytes, left.length < bs.length → ReadsChildren maxDepth left) :
    ReadsTree maxDepth bs := by
  intro outer offset ts h
  obtain ⟨before, rest, rfl, hrest⟩ := exists_blanks bs
  rw [run_append_blanks] at h
  rcases run_value_ok hrest h with ⟨x, left, rfl, hx⟩ | ⟨isObject, inner, hdepth, rfl, ho⟩
  · exact ⟨before, .scalar x, left, by simp [Tree.text], Nat.zero_le _, hx⟩
  · rcases run_opened_ok ho with ⟨inside, left, rfl, hempty⟩ | hchild
    · refine ⟨before, .empty isObject inside, left, by simp [Tree.text], ?_, ?_⟩
      · rw [Grammar.Tree.height]
        omega
      · have hstop : offset + before.bytes.length + (Tree.empty isObject inside).text.length =
            offset + before.bytes.length + inside.bytes.length + 2 := by
          simp only [Tree.text, List.length_cons, List.length_append, List.length_nil]
          omega
        rw [hstop]
        exact hempty
    · have hshort : inner.length < (before.bytes ++ opener isObject :: inner).length := by
        simp only [List.length_append, List.length_cons]
        omega
      obtain ⟨children, left, hinner, hheight, hrun⟩ :=
        hchildren inner hshort _ isObject rfl _ _ _ hchild
      refine ⟨before, .container isObject children, left, ?_, ?_, ?_⟩
      · rw [hinner]
        simp [Tree.text]
      · rw [Grammar.Tree.height]
        omega
      · have hstop : offset + before.bytes.length + 1 + children.text.length + 1 =
            offset + before.bytes.length + (Tree.container isObject children).text.length := by
          simp only [Tree.text, List.length_cons, List.length_append, List.length_nil]
          omega
        rw [hstop, Frame.close_take_opened] at hrun
        rw [Tree.tokens]
        simp only [Tree.text, List.length_cons, List.length_append, List.length_nil] at hrun ⊢
        exact hrun

theorem readsChildren_of_tree {bs : Bytes}
    (htree : ∀ left : Bytes, left.length ≤ bs.length → ReadsTree maxDepth left)
    (hmore : ∀ left : Bytes, left.length < bs.length → ReadsChildren maxDepth left) :
    ReadsChildren maxDepth bs := by
  intro frame isObject hframe outer offset ts h
  obtain ⟨label, rest, rfl, hlabel⟩ := run_child_ok hframe h
  have hshort : rest.length ≤ (label.text ++ rest).length := by
    rw [List.length_append]
    omega
  obtain ⟨before, t, rest, rfl, hheight, hrun⟩ := htree rest hshort _ _ _ hlabel
  rw [deliver_cons, Frame.take_push] at hrun
  rw [List.length_cons] at hheight
  obtain ⟨after, left, ⟨rfl, hclose⟩ | ⟨rfl, hcomma⟩⟩ :=
    run_separator_ok ((frame.take_isObject 1 _).trans hframe) hrun
  · refine ⟨.last label before t after, left, by simp [Children.text], hheight, ?_⟩
    have hstop : offset + label.text.length + before.bytes.length + t.text.length +
        after.bytes.length = offset + (Children.last label before t after).text.length := by
      simp only [Children.text, List.length_append]
      omega
    rw [hstop] at hclose
    exact hclose
  · have hshorter : left.length <
        (label.text ++ (before.bytes ++ t.text ++ (after.bytes ++ comma :: left))).length := by
      simp only [List.length_append, List.length_cons]
      omega
    obtain ⟨more, left, rfl, hheights, hrun⟩ :=
      hmore left hshorter _ isObject ((frame.take_isObject 1 _).trans hframe) _ _ _ hcomma
    refine ⟨.more label before t after more, left, by simp [Children.text], ?_, ?_⟩
    · rw [Children.height]
      exact max_le hheight hheights
    · have hstop : offset + label.text.length + before.bytes.length + t.text.length +
          after.bytes.length + 1 + more.text.length =
            offset + (Children.more label before t after more).text.length := by
        simp only [Children.text, List.length_append, List.length_cons]
        omega
      rw [Frame.take_take, hstop, Nat.add_comm 1] at hrun
      rw [Children.tokens, Children.size]
      exact hrun

theorem reads_of_length (n : Nat) :
    (∀ bs : Bytes, bs.length < n → ReadsTree maxDepth bs) ∧
      ∀ bs : Bytes, bs.length < n → ReadsChildren maxDepth bs := by
  induction n with
  | zero => exact ⟨fun _ h => absurd h (Nat.not_lt_zero _), fun _ h => absurd h (Nat.not_lt_zero _)⟩
  | succ n ih =>
      -- Children need a tree in front of a text no shorter than theirs: trees come first.
      have htree : ∀ bs : Bytes, bs.length < n + 1 → ReadsTree maxDepth bs := by
        intro bs hbs
        exact readsTree_of_children fun left hleft => ih.2 left (by omega)
      refine ⟨htree, ?_⟩
      intro bs hbs
      exact readsChildren_of_tree (fun left hleft => htree left (by omega))
        fun left hleft => ih.2 left (by omega)

theorem readsTree (bs : Bytes) : ReadsTree maxDepth bs :=
  (reads_of_length (bs.length + 1)).1 bs (Nat.lt_succ_self _)

/-- The pass succeeds on the texts of the grammar whose containers are not nested
too deep, and its tape is the preorder listing of a derivation. -/
theorem document_eq_ok_iff {offset : Nat} {bs : Bytes} {tape : Tape} :
    document maxDepth offset bs = .ok tape ↔
      ∃ d : Document, d.text = bs ∧ d.tree.height ≤ maxDepth ∧ tape.tokens = d.tokens offset := by
  obtain ⟨tokens⟩ := tape
  constructor
  · intro h
    unfold document at h
    split at h
    · next ts hrun =>
        cases h
        obtain ⟨before, t, left, rfl, hheight, hdone⟩ := readsTree bs [] offset ts hrun
        obtain ⟨⟨after, rfl⟩, rfl⟩ := run_done_eq_ok_iff.mp hdone
        exact ⟨⟨before, t, after⟩, rfl, hheight, rfl⟩
    · cases h
  · intro h
    rcases h with ⟨⟨before, t, after⟩, rfl, hheight, htokens⟩
    have hafter : Delimited after.bytes := by
      simpa using delimited_nil.append_blanks after
    have hrun : run maxDepth (.value []) ⟨offset, before.bytes ++ t.text ++ after.bytes⟩ =
        .ok (t.tokens (offset + before.bytes.length)).toArray := by
      rw [List.append_assoc, run_append_blanks, run_tree t [] _ (by simpa using hheight) hafter]
      exact run_done_eq_ok_iff.mpr ⟨⟨after, rfl⟩, rfl⟩
    unfold document
    simp only [Document.text, hrun]
    simp only at htokens
    rw [htokens]
    rfl

end Scan

end FlatJson
