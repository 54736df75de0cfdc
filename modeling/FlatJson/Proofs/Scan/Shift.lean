import FlatJson.Proofs.Scan.Run

/-!
# A pass further on

The pass looks at what is left of a document and never at what lies before it, so
that the same text with `n` bytes in front of it is passed over in the same steps,
each of them `n` bytes further on. What is read moves along: tokens, places, stops,
and the frames of the containers that are still open. There is one lemma for each
reader, one for a step (`step_shift`), and one for a whole run (`run_shift`).
-/

namespace FlatJson

namespace Token

/-- The token of the same text `n` bytes further on. -/
def shift (n : Nat) (t : Token) : Token :=
  { t with start := n + t.start, stop := n + t.stop }

@[simp]
theorem shift_kind (n : Nat) (t : Token) : (t.shift n).kind = t.kind := rfl

@[simp]
theorem shift_count (n : Nat) (t : Token) : (t.shift n).count = t.count := rfl

@[simp]
theorem shift_start (n : Nat) (t : Token) : (t.shift n).start = n + t.start := rfl

@[simp]
theorem shift_length (n : Nat) (t : Token) : (t.shift n).length = t.length :=
  Nat.add_sub_add_left ..

end Token

namespace Scan

open Ascii Grammar

def Place.shift (n : Nat) (p : Place) : Place :=
  ⟨n + p.offset, p.rest⟩

def Stop.shift (n : Nat) (stop : Stop) : Stop :=
  { stop with offset := n + stop.offset, resting := n + stop.resting }

def Frame.shift (n : Nat) (frame : Frame) : Frame :=
  { frame with start := n + frame.start, inside := frame.inside.map (Token.shift n) }

def State.shift (n : Nat) : State → State
  | .value outer => .value (outer.map (Frame.shift n))
  | .name frame outer => .name (frame.shift n) (outer.map (Frame.shift n))
  | .separator frame outer => .separator (frame.shift n) (outer.map (Frame.shift n))
  | .done tokens => .done (tokens.map (Token.shift n))

/-- What is read `n` bytes further on, where results move along by `move`. -/
def shifted {α : Type} (n : Nat) (move : α → α) : Except Stop α → Except Stop α
  | .ok x => .ok (move x)
  | .error stop => .error (stop.shift n)

/-- A token and the place behind it move along together. -/
def shiftRead (n : Nat) (read : Token × Place) : Token × Place :=
  (read.1.shift n, read.2.shift n)

/-- So do a state and the place where it goes on. -/
def shiftNext (n : Nat) (next : State × Place) : State × Place :=
  (next.1.shift n, next.2.shift n)

def Outcome.shift (n : Nat) : Outcome → Outcome
  | .go state place => .go (state.shift n) (place.shift n)
  | .finished result => .finished (shifted n (Array.map (Token.shift n)) result)

variable {n : Nat}

theorem Place.limit_shift (p : Place) : (p.shift n).limit = n + p.limit :=
  Nat.add_assoc ..

theorem Frame.closer_shift (frame : Frame) : (frame.shift n).closer = frame.closer := rfl

theorem Frame.close_shift (frame : Frame) (stop : Nat) :
    (frame.shift n).close (n + stop) = (frame.close stop).map (Token.shift n) := by
  rw [close, close, Array.map_append, List.map_toArray, List.map_cons, List.map_nil]
  rfl

theorem Frame.opened_shift (isObject : Bool) (start : Nat) :
    (Frame.opened isObject start).shift n = .opened isObject (n + start) := by
  simp [opened, shift]

theorem deliver_shift (tokens : Array Token) (outer : List Frame) :
    deliver (tokens.map (Token.shift n)) (outer.map (Frame.shift n)) =
      (deliver tokens outer).shift n := by
  cases outer with
  | nil => rfl
  | cons frame outer => simp [deliver, State.shift, Frame.shift]

/-! The readers. -/

theorem skipBlanks_shift (offset : Nat) (bs : Bytes) :
    skipBlanks (n + offset) bs = (skipBlanks offset bs).shift n := by
  rw [skipBlanks_eq, skipBlanks_eq, Place.shift, Nat.add_assoc]

theorem closeString_shift (opening offset : Nat) (bs : Bytes) :
    closeString (n + opening) (n + offset) bs =
      shifted n (Place.shift n) (closeString opening offset bs) := by
  fun_induction closeString opening offset bs with
  | case1 => rw [closeString]; rfl
  | case2 offset b rest hb => rw [closeString.eq_def]; simp only [hb]; rfl
  | case3 offset b hq hb => rw [closeString.eq_def]; simp only [hq, hb]; rfl
  | case4 offset b hq hb c rest ih => rw [closeString.eq_def]; simp only [hq, hb]; exact ih
  | case5 offset b rest hq hb hc => rw [closeString.eq_def]; simp only [hq, hb, hc]; rfl
  | case6 offset b rest hq hb hc ih => rw [closeString.eq_def]; simp only [hq, hb, hc]; exact ih

theorem string_shift (opening : Nat) (rest : Bytes) :
    string (n + opening) rest = shifted n (shiftRead n) (string opening rest) := by
  unfold string
  rw [Nat.add_assoc, closeString_shift]
  cases hclose : closeString opening (opening + 1) rest with
  | error stop => rfl
  | ok after =>
      -- The offset behind a quote is positive, so that the quote has an offset too.
      obtain ⟨raw, -, -, hoffset⟩ := closeString_ok hclose
      have hquote : n + after.offset - 1 = n + (after.offset - 1) := by
        omega
      simp only [shifted, shiftRead, Place.shift, hquote]
      rfl

theorem word_shift (start offset : Nat) (expected bs : Bytes) :
    word (n + start) (n + offset) expected bs =
      shifted n (Place.shift n) (word start offset expected bs) := by
  fun_induction word start offset expected bs with
  | case1 => rw [word]; rfl
  | case2 => rw [word]; rfl
  | case3 offset w expected b rest hb ih => rw [word, if_pos hb]; exact ih
  | case4 offset w expected b rest hb => rw [word, if_neg hb]; rfl

theorem literal_shift (kind : Kind) (expected : Bytes) (p : Place) :
    literal kind expected (p.shift n) = shifted n (shiftRead n) (literal kind expected p) := by
  have hword : word (p.shift n).offset (p.shift n).offset expected (p.shift n).rest =
      shifted n (Place.shift n) (word p.offset p.offset expected p.rest) :=
    word_shift p.offset p.offset expected p.rest
  unfold literal
  rw [hword]
  cases word p.offset p.offset expected p.rest <;> rfl

theorem number_shift (p : Place) :
    number (p.shift n) = shifted n (shiftRead n) (number p) := by
  have hrest : (p.shift n).rest = p.rest := rfl
  unfold number
  rw [hrest, Place.limit_shift]
  cases Literal.scan p.rest with
  | error left => cases left <;> rfl
  | ok found =>
      simp only
      by_cases hhex : Literal.looksHexadecimal p.rest = true
      · rw [if_pos hhex, if_pos hhex]
        rfl
      · rw [if_neg hhex, if_neg hhex]
        simp only [shifted, shiftRead, Place.shift, Nat.add_assoc]
        rfl

theorem scalar_shift (b : UInt8) (p : Place) :
    scalar b (p.shift n) = shifted n (shiftRead n) (scalar b p) := by
  obtain ⟨offset, bs⟩ := p
  rcases scalar_cases b with ⟨-, hstring⟩ | ⟨w, hword⟩ | hnumber | hnone
  · rw [Place.shift, hstring, hstring]
    exact string_shift offset bs.tail
  · rw [Place.shift, hword, hword]
    exact literal_shift w.kind w.text ⟨offset, bs⟩
  · rw [Place.shift, hnumber, hnumber]
    exact number_shift ⟨offset, bs⟩
  · rw [Place.shift, hnone, hnone]
    rfl

theorem child_shift (frame : Frame) (outer : List Frame) :
    State.child (frame.shift n) (outer.map (Frame.shift n)) =
      (State.child frame outer).shift n := by
  obtain ⟨isObject, start, count, inside⟩ := frame
  cases isObject <;> rfl

theorem enter_shift (frame : Frame) (outer : List Frame) (p : Place) :
    enter (frame.shift n) (outer.map (Frame.shift n)) (p.shift n) =
      shiftNext n (enter frame outer p) := by
  obtain ⟨offset, bs⟩ := p
  have hchild := child_shift (n := n) frame outer
  unfold State.child at hchild
  unfold enter
  cases bs with
  | nil =>
      simp only [Place.shift, hchild]
      rfl
  | cons b rest =>
      simp only [Place.shift, Frame.closer_shift, hchild]
      by_cases hb : (b == frame.closer) = true
      · rw [if_pos hb, if_pos hb, Nat.add_assoc, Frame.close_shift, deliver_shift]
        rfl
      · rw [if_neg hb, if_neg hb]
        rfl

theorem readValue_shift (maxDepth : Nat) (outer : List Frame) (p : Place) :
    readValue maxDepth (outer.map (Frame.shift n)) (p.shift n) =
      shifted n (shiftNext n) (readValue maxDepth outer p) := by
  obtain ⟨offset, bs⟩ := p
  unfold readValue
  cases bs with
  | nil => rfl
  | cons b rest =>
      have hscalar := scalar_shift (n := n) b ⟨offset, b :: rest⟩
      simp only [Place.shift, List.length_map] at hscalar ⊢
      split
      · split
        · rfl
        · rw [Nat.add_assoc, skipBlanks_shift]
          have henter := enter_shift (n := n) (.opened (b == openBrace) offset) outer
            (skipBlanks (offset + 1) rest)
          rw [Frame.opened_shift] at henter
          exact congrArg Except.ok henter
      · rw [hscalar]
        cases scalar b ⟨offset, b :: rest⟩ with
        | error stop => rfl
        | ok read =>
            have hdeliver := deliver_shift (n := n) #[read.1] outer
            rw [List.map_toArray, List.map_cons, List.map_nil] at hdeliver
            exact congrArg (fun state => Except.ok (state, read.2.shift n)) hdeliver

theorem readName_shift (frame : Frame) (outer : List Frame) (p : Place) :
    readName (frame.shift n) (outer.map (Frame.shift n)) (p.shift n) =
      shifted n (shiftNext n) (readName frame outer p) := by
  obtain ⟨offset, bs⟩ := p
  unfold readName
  cases bs with
  | nil => rfl
  | cons b rest =>
      simp only [Place.shift, string_shift]
      split
      · cases string offset rest with
        | error stop => rfl
        | ok read =>
            simp only [shifted, shiftRead, Place.shift, skipBlanks_shift]
            cases (skipBlanks read.2.offset read.2.rest).rest with
            | nil => rfl
            | cons c left =>
                simp only
                split
                · simp [shiftNext, State.shift, Frame.shift, Place.shift, Nat.add_assoc]
                · rfl
      · rfl

theorem readSeparator_shift (frame : Frame) (outer : List Frame) (p : Place) :
    readSeparator (frame.shift n) (outer.map (Frame.shift n)) (p.shift n) =
      shifted n (shiftNext n) (readSeparator frame outer p) := by
  obtain ⟨offset, bs⟩ := p
  have hchild := child_shift (n := n) frame outer
  unfold State.child at hchild
  unfold readSeparator
  cases bs with
  | nil => rfl
  | cons b rest =>
      simp only [Place.shift, Frame.closer_shift, hchild, Nat.add_assoc, skipBlanks_shift,
        Frame.close_shift, deliver_shift]
      split
      · split
        · rfl
        · rfl
      · split
        · rfl
        · rfl

theorem readEnd_shift (tokens : Array Token) (p : Place) :
    readEnd (tokens.map (Token.shift n)) (p.shift n) =
      shifted n (Array.map (Token.shift n)) (readEnd tokens p) := by
  obtain ⟨offset, bs⟩ := p
  cases bs <;> rfl

/-! A step, and a whole run. -/

theorem ofStep_shift (read : Except Stop (State × Place)) :
    Outcome.ofStep (shifted n (shiftNext n) read) = (Outcome.ofStep read).shift n := by
  cases read <;> rfl

theorem step_shift (maxDepth : Nat) (state : State) (p : Place) :
    step maxDepth (state.shift n) (p.shift n) = (step maxDepth state p).shift n := by
  have hblanks : skipBlanks (p.shift n).offset (p.shift n).rest =
      (skipBlanks p.offset p.rest).shift n := skipBlanks_shift p.offset p.rest
  unfold step
  rw [hblanks]
  cases state with
  | value outer => exact (congrArg _ (readValue_shift maxDepth outer _)).trans (ofStep_shift _)
  | name frame outer => exact (congrArg _ (readName_shift frame outer _)).trans (ofStep_shift _)
  | separator frame outer =>
      exact (congrArg _ (readSeparator_shift frame outer _)).trans (ofStep_shift _)
  | done tokens => exact congrArg Outcome.finished (readEnd_shift tokens _)

theorem run_shift (maxDepth : Nat) (state : State) (p : Place) :
    run maxDepth (state.shift n) (p.shift n) =
      shifted n (Array.map (Token.shift n)) (run maxDepth state p) := by
  fun_induction run maxDepth state p with
  | case1 state p result hstep => rw [run_eq, step_shift, hstep]; rfl
  | case2 state p next place hstep _ ih => rw [run_eq, step_shift, hstep]; exact ih

end Scan

/-- The tape of the same text `n` bytes further on. -/
def Tape.shift (n : Nat) (tape : Tape) : Tape :=
  ⟨tape.tokens.map (Token.shift n)⟩

theorem Scan.document_shift (n maxDepth offset : Nat) (text : Bytes) :
    document maxDepth (n + offset) text =
      shifted n (Tape.shift n) (document maxDepth offset text) := by
  have hrun := run_shift (n := n) maxDepth (.value []) ⟨offset, text⟩
  unfold document
  simp only [State.shift, Place.shift, List.map_nil] at hrun
  rw [hrun]
  cases run maxDepth (.value []) ⟨offset, text⟩ with
  | error stop => rfl
  | ok tokens => simp [shifted, Tape.shift]

end FlatJson
