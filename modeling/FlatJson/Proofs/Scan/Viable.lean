import FlatJson.Proofs.Scan.Derive
import FlatJson.Proofs.Scan.Refusal

/-!
# Viable prefixes

A run can be completed from every state: whatever containers are open can be
closed (`isFront_nil`). So what a step has taken of a text is the front of a text
on which the run succeeds as soon as the state that it leads to can go on with the
rest (`Resumes`), and a step that fails says of its text what a fault has to say
(`Refused`). Put together over all the steps of a run, every fault of the pass
either asks for more text, and some longer text is a document, or it is the fault
of every longer text, and stands behind the front of a document (`run_error`).
-/

namespace FlatJson

open Ascii

namespace Scan

open Grammar ReadCause

variable {maxDepth : Nat}

/-- The texts at an offset on which a run succeeds. -/
def Succeeds (maxDepth : Nat) (state : State) (offset : Nat) (text : Bytes) : Prop :=
  ∃ ts, run maxDepth state ⟨offset, text⟩ = .ok ts

theorem succeeds_congr {state next : State} {offset place : Nat} {text rest : Bytes}
    (hrun : run maxDepth state ⟨offset, text⟩ = run maxDepth next ⟨place, rest⟩)
    (h : Succeeds maxDepth next place rest) : Succeeds maxDepth state offset text := by
  obtain ⟨ts, hts⟩ := h
  exact ⟨ts, hrun.trans hts⟩

theorem Succeeds.append_blanks {state : State} {offset : Nat} {text : Bytes} (b : Blanks)
    (h : Succeeds maxDepth state (offset + b.bytes.length) text) :
    Succeeds maxDepth state offset (b.bytes ++ text) :=
  succeeds_congr (run_append_blanks state offset b text) h

/-- A value may end before every text on which the run goes on behind it. -/
theorem Succeeds.delimited (tokens : List Token) {outer : List Frame} {offset : Nat}
    {text : Bytes} (h : Succeeds maxDepth (deliver tokens.toArray outer) offset text) :
    Delimited text := by
  obtain ⟨ts, h⟩ := h
  cases outer with
  | nil =>
      obtain ⟨⟨after, rfl⟩, -⟩ := run_done_eq_ok_iff.mp h
      simpa using delimited_nil.append_blanks after
  | cons frame outer =>
      rw [deliver_cons] at h
      obtain ⟨after, left, ⟨rfl, -⟩ | ⟨rfl, -⟩⟩ := run_separator_ok rfl h
      · exact (delimited_cons.mpr (closer_cases _).2.2).append_blanks after
      · exact (delimited_cons.mpr (by decide)).append_blanks after

/-- No child begins with a closing delimiter. -/
theorem Succeeds.notClosed {frame : Frame} {isObject : Bool} (hframe : frame.isObject = isObject)
    {outer : List Frame} {offset : Nat} {text : Bytes}
    (h : Succeeds maxDepth (.child frame outer) offset text) : NotClosed isObject text := by
  obtain ⟨ts, h⟩ := h
  obtain ⟨label, rest, rfl, hvalue⟩ := run_child_ok hframe h
  obtain ⟨before, t, left, rfl, -, -⟩ := readsTree rest _ _ _ hvalue
  have hchild := notClosed_label label before t left
  simpa [List.append_assoc] using hchild

/-! Completing a run. -/

theorem exists_succeeds_deliver (maxDepth : Nat) (outer : List Frame) (tokens : List Token)
    (offset : Nat) : ∃ text, Succeeds maxDepth (deliver tokens.toArray outer) offset text := by
  induction outer generalizing tokens offset with
  | nil => exact ⟨[], tokens.toArray, run_done_eq_ok_iff.mpr ⟨⟨⟨[], by simp⟩, rfl⟩, rfl⟩⟩
  | cons frame outer ih =>
      obtain ⟨text, htext⟩ := ih (((frame.take 1 tokens).close (offset + 1)).toList) (offset + 1)
      exact ⟨_, succeeds_congr (run_closer rfl outer offset text) htext⟩

theorem exists_succeeds_value (maxDepth : Nat) (outer : List Frame) (offset : Nat) :
    ∃ text, Succeeds maxDepth (.value outer) offset text := by
  -- A word can stand at every depth, where a container may be too deep.
  obtain ⟨text, htext⟩ := exists_succeeds_deliver maxDepth outer
    [(Lexeme.word .null).token offset] (offset + (Lexeme.word .null).text.length)
  exact ⟨_, succeeds_congr (run_lexeme (.word .null) outer offset (htext.delimited _)) htext⟩

/-- Every state can be completed. -/
theorem isFront_nil (maxDepth : Nat) (state : State) (offset : Nat) :
    IsFront (Succeeds maxDepth state offset) [] := by
  cases state with
  | value outer => exact exists_succeeds_value maxDepth outer offset
  | name frame outer =>
      obtain ⟨text, htext⟩ := exists_succeeds_value maxDepth
        (frame.push [(Lexeme.string ⟨[], .nil⟩).token offset] :: outer) (offset + 2 + 0 + 1)
      exact ⟨_, succeeds_congr
        (run_name frame outer offset ⟨[], .nil⟩ ⟨[], by simp⟩ text) htext⟩
  | separator frame outer =>
      obtain ⟨text, htext⟩ := exists_succeeds_deliver maxDepth outer
        (frame.close (offset + 1)).toList (offset + 1)
      exact ⟨_, succeeds_congr (run_closer rfl outer offset text) htext⟩
  | done tokens => exact ⟨[], tokens, run_done_eq_ok_iff.mpr ⟨⟨⟨[], by simp⟩, rfl⟩, rfl⟩⟩

/-! What one step does to longer texts. -/

theorem skipBlanks_extend {offset : Nat} {bs : Bytes} {p : Place}
    (h : skipBlanks offset bs = p) (hne : p.rest ≠ []) (more : Bytes) :
    skipBlanks offset (bs ++ more) = ⟨p.offset, p.rest ++ more⟩ := by
  obtain ⟨b, rest, rfl, hrest⟩ := exists_blanks bs
  rw [skipBlanks_append, skipBlanks_of_notAhead _ hrest] at h
  subst h
  rw [List.append_assoc, skipBlanks_append, skipBlanks_of_notAhead _ (hrest.append hne more)]

theorem enter_extend {frame : Frame} {outer : List Frame} {p place : Place} {next : State}
    (h : enter frame outer p = (next, place)) (hne : p.rest ≠ []) (more : Bytes) :
    enter frame outer ⟨p.offset, p.rest ++ more⟩ = (next, ⟨place.offset, place.rest ++ more⟩) := by
  obtain ⟨offset, bs⟩ := p
  obtain ⟨b, bs, rfl⟩ := List.exists_cons_of_ne_nil hne
  unfold enter at h ⊢
  simp only [List.cons_append] at h ⊢
  split at h
  · next hb =>
      cases h
      rw [if_pos hb]
  · next hb =>
      cases h
      rw [if_neg hb]
      rfl

/-- A step has taken the front of a text, and led to another state: the step
completes the front wherever that state can go on, and takes the same from every
longer text if anything is left. -/
def Resumes (maxDepth : Nat) (state : State) (read : Bytes → Except Stop (State × Place))
    (offset : Nat) (bs : Bytes) (next : State) (place : Place) : Prop :=
  ∃ taken, bs = taken ++ place.rest ∧ place.offset = offset + taken.length ∧
    (∀ text, Succeeds maxDepth next place.offset text →
      Succeeds maxDepth state offset (taken ++ text)) ∧
    (place.rest ≠ [] →
      ∀ more, read (bs ++ more) = .ok (next, ⟨place.offset, place.rest ++ more⟩))

theorem readValue_extend {outer : List Frame} {offset : Nat} {bs : Bytes} {next : State}
    {place : Place} (h : readValue maxDepth outer ⟨offset, bs⟩ = .ok (next, place))
    (hne : place.rest ≠ []) (more : Bytes) :
    readValue maxDepth outer ⟨offset, bs ++ more⟩ =
      .ok (next, ⟨place.offset, place.rest ++ more⟩) := by
  cases bs with
  | nil => cases h
  | cons b rest =>
      unfold readValue at h ⊢
      simp only [List.cons_append] at h ⊢
      split at h
      · next hb =>
          rw [if_pos hb]
          split at h
          · cases h
          · next hdepth =>
              have henter := Except.ok.inj h
              have hblanks : (skipBlanks (offset + 1) rest).rest ≠ [] := by
                intro hnil
                have hle := length_enter_le ⟨b == openBrace, offset, 0, #[]⟩ outer
                  (skipBlanks (offset + 1) rest)
                rw [henter, hnil] at hle
                exact hne (List.length_eq_zero_iff.mp (Nat.le_zero.mp hle))
              rw [if_neg hdepth, skipBlanks_extend rfl hblanks, enter_extend henter hblanks]
      · next hb =>
          rw [if_neg hb]
          split at h
          · next token after hscalar =>
              cases h
              rw [scalar_extend hscalar hne]
          · cases h

theorem readValue_resumes {outer : List Frame} {offset : Nat} {bs : Bytes} {next : State}
    {place : Place} (h : readValue maxDepth outer ⟨offset, bs⟩ = .ok (next, place)) :
    Resumes maxDepth (.value outer) (fun bs => readValue maxDepth outer ⟨offset, bs⟩) offset bs
      next place := by
  have hextend := readValue_extend h
  rcases readValue_ok h with ⟨x, left, rfl, hnext⟩ | ⟨isObject, rest, hdepth, rfl, hnext⟩
  · cases hnext
    refine ⟨x.text, rfl, rfl, fun text htext => ?_, hextend⟩
    exact succeeds_congr (run_lexeme x outer offset (htext.delimited [x.token offset])) htext
  · rcases enter_cases isObject outer offset rest with
      ⟨inside, left, rfl, henter⟩ | ⟨inside, left, rfl, henter⟩
    · rw [henter] at hnext
      cases hnext
      refine ⟨opener isObject :: (inside.bytes ++ [closer isObject]), by simp, ?_,
        fun text htext => ?_, hextend⟩
      · simp only [List.length_cons, List.length_append, List.length_nil]
        omega
      · rw [List.cons_append, List.append_assoc]
        exact succeeds_congr (run_empty isObject hdepth offset inside text) htext
    · rw [henter] at hnext
      cases hnext
      refine ⟨opener isObject :: inside.bytes, rfl, ?_, fun text htext => ?_, hextend⟩
      · simp only [List.length_cons]
        omega
      · have hclosed : NotClosed isObject (inside.bytes ++ text) :=
          (htext.notClosed rfl).append_blanks inside
        exact succeeds_congr (run_enter isObject hdepth offset hclosed)
          (htext.append_blanks inside)

theorem readName_resumes {frame : Frame} {outer : List Frame} {offset : Nat} {bs : Bytes}
    {next : State} {place : Place} (h : readName frame outer ⟨offset, bs⟩ = .ok (next, place)) :
    Resumes maxDepth (.name frame outer) (fun bs => readName frame outer ⟨offset, bs⟩) offset bs
      next place := by
  obtain ⟨q, after, left, rfl, hnext⟩ := readName_ok h
  cases hnext
  refine ⟨q.text ++ (after.bytes ++ [colon]), by simp, ?_, fun text htext => ?_,
    fun _ more => ?_⟩
  · simp only [List.length_append, List.length_singleton]
    omega
  · simp only [List.append_assoc, List.singleton_append]
    exact succeeds_congr (run_name frame outer offset q after text) htext
  · simp only [List.append_assoc, List.cons_append]
    exact readName_append frame outer offset q after (left ++ more)

theorem readSeparator_resumes {frame : Frame} {outer : List Frame} {offset : Nat} {bs : Bytes}
    {next : State} {place : Place}
    (h : readSeparator frame outer ⟨offset, bs⟩ = .ok (next, place)) :
    Resumes maxDepth (.separator frame outer) (fun bs => readSeparator frame outer ⟨offset, bs⟩)
      offset bs next place := by
  obtain ⟨left, ⟨rfl, hnext⟩ | ⟨rfl, hnext⟩⟩ := readSeparator_ok h
  · cases hnext
    refine ⟨[frame.closer], rfl, rfl, fun text htext => ?_, fun _ more => ?_⟩
    · exact succeeds_congr (run_closer rfl outer offset text) htext
    · exact readSeparator_closer frame outer offset (left ++ more)
  · obtain ⟨inside, hleft, hplace⟩ :=
      exists_blanks_of_skipBlanks (rfl : skipBlanks (offset + 1) left = _)
    cases hnext
    refine ⟨comma :: inside.bytes, congrArg _ hleft, ?_, fun text htext => ?_, fun hne more => ?_⟩
    · rw [hplace, List.length_cons]
      omega
    · have hclosed : NotClosed frame.isObject (inside.bytes ++ text) :=
        (htext.notClosed rfl).append_blanks inside
      rw [hplace] at htext
      exact succeeds_congr (run_comma rfl outer offset hclosed) (htext.append_blanks inside)
    · obtain ⟨b, rest, hb⟩ := List.exists_cons_of_ne_nil hne
      unfold readSeparator at h ⊢
      simp only [List.cons_append, skipBlanks_extend rfl hne, hb, beq_self_eq_true, if_true,
        List.head?_cons] at h ⊢
      split at h
      · cases h
      · next hcloser =>
          rw [if_neg hcloser]
          rfl

/-! What a step that fails says of its text. -/

theorem readValue_error {outer : List Frame} {offset : Nat} {bs : Bytes} {stop : Stop}
    (h : readValue maxDepth outer ⟨offset, bs⟩ = .error stop) :
    Refused (Succeeds maxDepth (.value outer) offset)
      (fun bs => readValue maxDepth outer ⟨offset, bs⟩) offset bs stop := by
  cases bs with
  | nil =>
      cases h
      exact .inl ⟨wantsMore_endOfInput, isFront_nil _ _ _⟩
  | cons b rest =>
      unfold readValue at h
      simp only at h
      split at h
      · next hb =>
          split at h
          · next hdepth =>
              cases h
              obtain ⟨text, htext⟩ := exists_succeeds_value maxDepth outer offset
              refine refused_at_once (by decide : ¬ReadCause.nestingTooDeep.WantsMore) rfl
                (fun more => ?_) htext
              simp only [readValue, List.cons_append, if_pos hb, if_pos hdepth]
          · cases h
      · next hb =>
          split at h
          · cases h
          · next hscalar =>
              cases h
              refine (scalar_error hscalar).imp (fun text hlexeme => ?_) fun more hmore => ?_
              · obtain ⟨x, rfl⟩ := hlexeme
                obtain ⟨after, hafter⟩ := exists_succeeds_deliver maxDepth outer
                  [x.token offset] (offset + x.text.length)
                exact ⟨after,
                  succeeds_congr (run_lexeme x outer offset (hafter.delimited _)) hafter⟩
              · simp only [List.cons_append] at hmore
                simp only [readValue, List.cons_append, if_neg hb, hmore]

/-- Behind a string that is to be a name, a colon and a value can still come. -/
theorem isFront_name (maxDepth : Nat) (frame : Frame) (outer : List Frame) (offset : Nat)
    (q : Quoted) (after : Blanks) :
    IsFront (Succeeds maxDepth (.name frame outer) offset) (q.text ++ after.bytes) := by
  obtain ⟨text, htext⟩ := exists_succeeds_value maxDepth
    (frame.push [(Lexeme.string q).token offset] :: outer)
    (offset + q.text.length + after.bytes.length + 1)
  refine ⟨colon :: text, ?_⟩
  rw [List.append_assoc]
  exact succeeds_congr (run_name frame outer offset q after text) htext

theorem readName_error {frame : Frame} {outer : List Frame} {offset : Nat} {bs : Bytes}
    {stop : Stop} (h : readName frame outer ⟨offset, bs⟩ = .error stop) :
    Refused (Succeeds maxDepth (.name frame outer) offset)
      (fun bs => readName frame outer ⟨offset, bs⟩) offset bs stop := by
  rcases name_cases offset bs with
    ⟨q, after, rest, rfl, hrest⟩ | ⟨rest, fault, rfl, hstring⟩ | ⟨b, rest, rfl, hb⟩ | rfl
  · have hfront := isFront_name maxDepth frame outer offset q after
    rw [readName_quoted frame outer offset q after hrest rfl] at h
    cases rest with
    | nil =>
        cases h
        rw [List.append_nil]
        exact .inl ⟨wantsMore_endOfInput, hfront⟩
    | cons c left =>
        by_cases hc : (c == colon) = true
        · simp only [if_pos hc] at h
          cases h
        · simp only [if_neg hc] at h
          cases h
          refine .inr ⟨(by decide : ¬ReadCause.expectedColon.WantsMore), fun more => ?_,
            q.text ++ after.bytes, c :: left, (List.append_assoc _ _ _).symm, ?_, hfront⟩
          · have hmore : NotAhead isBlank (c :: (left ++ more)) :=
              notAhead_cons.mpr (notAhead_cons.mp hrest)
            simp only [List.append_assoc, List.cons_append]
            rw [readName_quoted frame outer offset q after hmore rfl]
            exact if_neg hc
          · rw [List.length_append, Nat.add_assoc]
  · simp only [readName, beq_self_eq_true, if_true, hstring] at h
    cases h
    refine Refused.prepend [quote] (string_error hstring) (fun text htext => ?_)
      fun more hmore => ?_
    · obtain ⟨q, hq⟩ := htext
      have hfront := isFront_name maxDepth frame outer offset q ⟨[], by simp⟩
      rw [← hq] at hfront
      exact hfront.left
    · simp only [readName, List.singleton_append, beq_self_eq_true, if_true, hmore]
  · simp only [readName, hb, Bool.false_eq_true, if_false] at h
    cases h
    obtain ⟨text, htext⟩ := isFront_nil maxDepth (.name frame outer) offset
    refine refused_at_once (by decide : ¬ReadCause.expectedKey.WantsMore) rfl
      (fun more => ?_) htext
    simp only [readName, List.cons_append, hb, Bool.false_eq_true, if_false]
  · cases h
    exact .inl ⟨wantsMore_endOfInput, isFront_nil _ _ _⟩

theorem not_wantsMore_expectedSeparator (container : Kind) :
    ¬(expectedSeparator container).WantsMore := by
  cases container <;> decide

theorem readSeparator_error {frame : Frame} {outer : List Frame} {offset : Nat} {bs : Bytes}
    {stop : Stop} (h : readSeparator frame outer ⟨offset, bs⟩ = .error stop) :
    Refused (Succeeds maxDepth (.separator frame outer) offset)
      (fun bs => readSeparator frame outer ⟨offset, bs⟩) offset bs stop := by
  obtain ⟨text, htext⟩ := isFront_nil maxDepth (.separator frame outer) offset
  cases bs with
  | nil =>
      cases h
      exact refused_wantsMore text wantsMore_endOfInput htext
  | cons b rest =>
      unfold readSeparator at h
      simp only at h
      split at h
      · next hcomma =>
          split at h
          · next hcloser =>
              cases h
              have hne : (skipBlanks (offset + 1) rest).rest ≠ [] := by
                intro hnil
                rw [hnil] at hcloser
                cases hcloser
              obtain ⟨c, left, hleft⟩ := List.exists_cons_of_ne_nil hne
              refine refused_at_once (by decide : ¬ReadCause.trailingComma.WantsMore) rfl
                (fun more => ?_) htext
              rw [hleft] at hcloser
              simp only [readSeparator, List.cons_append, if_pos hcomma,
                skipBlanks_extend rfl hne, hleft]
              exact if_pos hcloser
          · cases h
      · next hcomma =>
          split at h
          · cases h
          · next hcloser =>
              cases h
              refine refused_at_once (not_wantsMore_expectedSeparator frame.kind) rfl
                (fun more => ?_) htext
              simp only [readSeparator, List.cons_append, if_neg hcomma, if_neg hcloser]

/-! A whole run. -/

/-- At the end of a text a run has succeeded, or asks for more. -/
theorem wantsMore_of_run_nil {state : State} {offset : Nat} {stop : Stop}
    (h : run maxDepth state ⟨offset, []⟩ = .error stop) : stop.cause.WantsMore := by
  rw [run_eq] at h
  cases state with
  | value outer => cases h; exact wantsMore_endOfInput
  | name frame outer => cases h; exact wantsMore_endOfInput
  | separator frame outer => cases h; exact wantsMore_endOfInput
  | done tokens => cases h

/-- What a run has to say of its texts: each of its faults says what a fault has
to say. -/
def Refuses (maxDepth : Nat) (bs : Bytes) : Prop :=
  ∀ (state : State) (offset : Nat) (stop : Stop), run maxDepth state ⟨offset, bs⟩ = .error stop →
    Refused (Succeeds maxDepth state offset) (fun bs => run maxDepth state ⟨offset, bs⟩) offset bs
      stop

/-- A run that fails fails in its first step, or behind it. -/
theorem refused_of_read {state : State} (read : Bytes → Except Stop (State × Place))
    {offset : Nat} {bs : Bytes} {stop : Stop}
    (hstep : ∀ more, step maxDepth state ⟨offset, bs ++ more⟩ = .ofStep (read (bs ++ more)))
    (herror : read bs = .error stop →
      Refused (Succeeds maxDepth state offset) read offset bs stop)
    (hok : ∀ next place, read bs = .ok (next, place) →
      Resumes maxDepth state read offset bs next place)
    (hless : ∀ left : Bytes, left.length < bs.length → Refuses maxDepth left)
    (h : run maxDepth state ⟨offset, bs⟩ = .error stop) :
    Refused (Succeeds maxDepth state offset) (fun bs => run maxDepth state ⟨offset, bs⟩) offset bs
      stop := by
  have hfirst : step maxDepth state ⟨offset, bs⟩ = .ofStep (read bs) := by
    simpa using hstep []
  cases hread : read bs with
  | error fault =>
      rw [run_eq, hfirst, hread] at h
      cases h
      refine (herror hread).imp (fun _ => isFront_self) fun more hmore => ?_
      rw [run_eq, hstep, hmore]
      rfl
  | ok next =>
      obtain ⟨next, place⟩ := next
      rw [hread] at hfirst
      rw [run_of_step hfirst] at h
      have hshort := length_step_lt hfirst
      obtain ⟨taken, rfl, hoffset, hcomplete, hextend⟩ := hok next place hread
      by_cases hne : place.rest = []
      · -- The text has ended, and from the state that was reached every text can be completed.
        obtain ⟨more, hmore⟩ := isFront_nil maxDepth next place.offset
        obtain ⟨offset', left⟩ := place
        obtain rfl : left = [] := hne
        refine refused_wantsMore more (wantsMore_of_run_nil h) ?_
        rw [List.append_nil]
        exact hcomplete more hmore
      · have hrest := hless place.rest hshort next place.offset stop h
        rw [hoffset] at hrest
        refine hrest.prepend taken (fun text htext => ?_) fun more hmore => ?_
        · rw [← hoffset] at htext
          exact isFront_self (hcomplete text htext)
        · have hnext : step maxDepth state ⟨offset, taken ++ (place.rest ++ more)⟩ =
              .ofStep (.ok (next, ⟨place.offset, place.rest ++ more⟩)) := by
            rw [← List.append_assoc, hstep, hextend hne]
          rw [run_of_step hnext, hoffset]
          exact hmore

theorem refuses_of_less {bs : Bytes}
    (hless : ∀ left : Bytes, left.length < bs.length → Refuses maxDepth left)
    (hbs : NotAhead isBlank bs) : Refuses maxDepth bs := by
  intro state offset stop h
  by_cases hne : bs = []
  · subst hne
    exact .inl ⟨wantsMore_of_run_nil h, isFront_nil _ state offset⟩
  · have hahead (more : Bytes) : NotAhead isBlank (bs ++ more) := hbs.append hne more
    cases state with
    | value outer =>
        exact refused_of_read (fun bs => readValue maxDepth outer ⟨offset, bs⟩)
          (fun more => step_value outer (hahead more)) readValue_error
          (fun _ _ => readValue_resumes) hless h
    | name frame outer =>
        exact refused_of_read (fun bs => readName frame outer ⟨offset, bs⟩)
          (fun more => step_name frame outer (hahead more)) readName_error
          (fun _ _ => readName_resumes) hless h
    | separator frame outer =>
        exact refused_of_read (fun bs => readSeparator frame outer ⟨offset, bs⟩)
          (fun more => step_separator frame outer (hahead more)) readSeparator_error
          (fun _ _ => readSeparator_resumes) hless h
    | done tokens =>
        obtain ⟨b, rest, rfl⟩ := List.exists_cons_of_ne_nil hne
        obtain ⟨text, htext⟩ := isFront_nil maxDepth (.done tokens) offset
        rw [run_done_eq _ hbs] at h
        cases h
        refine refused_at_once (by decide : ¬ReadCause.trailingGarbage.WantsMore) rfl
          (fun more => ?_) htext
        rw [run_done_eq _ (hahead more)]
        rfl

/-- Every fault of a run asks for more text, and some longer text is read, or it
is the fault of every longer text and stands behind the front of a text that is
read. -/
theorem run_error (bs : Bytes) : Refuses maxDepth bs := by
  -- The step lemmas are about texts without blanks in front, and every step makes those shorter.
  induction hn : bs.length using Nat.strong_induction_on generalizing bs with
  | _ n ih =>
      intro state offset stop h
      obtain ⟨b, rest, rfl, hrest⟩ := exists_blanks bs
      rw [run_append_blanks] at h
      have hless : ∀ left : Bytes, left.length < rest.length → Refuses maxDepth left := by
        intro left hleft
        refine ih left.length ?_ left rfl
        rw [← hn, List.length_append]
        omega
      refine Refused.prepend b.bytes (refuses_of_less hless hrest state _ stop h)
        (fun text htext => isFront_self (htext.append_blanks b)) fun more hmore => ?_
      exact (run_append_blanks state offset b _).trans hmore

end Scan

end FlatJson
