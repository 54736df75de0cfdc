import FlatJson.Proofs.Scan.Bound
import FlatJson.Proofs.Tape.Refusal

/-!
# What the limit of depth changes

A pass with a smaller limit does what a pass with a larger one does, up to the first
container that lies too deep (`Scan.run_deeper`). How deep a place lies is said of the bytes
in front of it alone, by a count of the delimiters that stand outside of strings (`Region`);
as long as a pass goes on, the count is the number of the containers that are open
(`Scan.step_leads`).
-/

namespace FlatJson

open Ascii

/-- What opens a container. -/
def Ascii.isOpener (b : UInt8) : Bool :=
  b == openBrace || b == openBracket

/-- What closes a container. -/
def Ascii.isCloser (b : UInt8) : Bool :=
  b == closeBrace || b == closeBracket

/-- Where a byte stands: inside how many containers, and outside of strings, in a string, or
in a string behind a backslash. -/
inductive Region
  | outside (depth : Nat)
  | inside (depth : Nat)
  | escaped (depth : Nat)
  deriving DecidableEq

namespace Region

/-- The number of containers that are open. -/
def depth : Region → Nat
  | outside d => d
  | inside d => d
  | escaped d => d

/-- The region behind a byte. -/
def next : Region → UInt8 → Region
  | outside d, b =>
    if b == quote then inside d
    else if isOpener b then outside (d + 1)
    else if isCloser b then outside (d - 1)
    else outside d
  | inside d, b => if b == quote then outside d else if b == backslash then escaped d else inside d
  | escaped d, _ => inside d

/-- The region behind a text. -/
def behind (r : Region) (bs : Bytes) : Region :=
  bs.foldl next r

/-- How many containers are open around the one that a byte opens, if it opens one. -/
def opening? : Region → UInt8 → Option Nat
  | outside d, b => if isOpener b then some d else none
  | _, _ => none

/-- For each container that is opened in a text, how many are open around it. -/
def openings : Region → Bytes → List Nat
  | _, [] => []
  | r, b :: bs => (r.opening? b).toList ++ openings (r.next b) bs

theorem behind_append (r : Region) (p q : Bytes) :
    r.behind (p ++ q) = (r.behind p).behind q :=
  List.foldl_append

theorem openings_append (r : Region) (p q : Bytes) :
    r.openings (p ++ q) = r.openings p ++ (r.behind p).openings q := by
  induction p generalizing r with
  | nil => rfl
  | cons b p ih => rw [List.cons_append, openings, ih, openings, List.append_assoc]; rfl

/-- A text leads from one region to another, and no container that is opened in it lies
inside `limit` others. -/
structure Passes (limit : Nat) (r : Region) (bs : Bytes) (s : Region) : Prop where
  behind : r.behind bs = s
  openings : ∀ k ∈ r.openings bs, k < limit

namespace Passes

variable {limit : Nat} {r s t : Region} {b : UInt8} {bs cs : Bytes}

theorem nil (r : Region) : Passes limit r [] r :=
  ⟨rfl, by simp [Region.openings]⟩

theorem cons (hb : ∀ k ∈ r.opening? b, k < limit) (h : Passes limit (r.next b) bs s) :
    Passes limit r (b :: bs) s := by
  refine ⟨h.behind, fun k hk => ?_⟩
  rw [Region.openings, List.mem_append, Option.mem_toList] at hk
  exact hk.elim (hb k) (h.openings k)

/-- A byte that opens no container. -/
theorem quiet (hb : r.opening? b = none) (h : Passes limit (r.next b) bs s) :
    Passes limit r (b :: bs) s :=
  .cons (by simp [hb]) h

theorem append (h : Passes limit r bs s) (hs : Passes limit s cs t) :
    Passes limit r (bs ++ cs) t := by
  refine ⟨by rw [behind_append, h.behind, hs.behind], fun k hk => ?_⟩
  rw [openings_append, h.behind, List.mem_append] at hk
  exact hk.elim (h.openings k) (hs.openings k)

theorem depth_next_le (hb : ∀ k ∈ r.opening? b, k < limit) (hr : r.depth ≤ limit) :
    (r.next b).depth ≤ limit := by
  cases r with
  | outside d =>
      rw [next]
      split_ifs with hquote hopener hcloser
      · exact hr
      · exact hb d (by rw [opening?, if_pos hopener]; rfl)
      · exact (Nat.sub_le d 1).trans hr
      · exact hr
  | inside d =>
      rw [next]
      split_ifs <;> exact hr
  | escaped d => exact hr

/-- No more than `limit` containers are opened inside each other. -/
theorem depth_le (h : Passes limit r bs s) (hr : r.depth ≤ limit) : s.depth ≤ limit := by
  obtain ⟨rfl, hopenings⟩ := h
  induction bs generalizing r with
  | nil => exact hr
  | cons b bs ih =>
      rw [Region.openings, List.forall_mem_append] at hopenings
      exact ih (depth_next_le (by simpa using hopenings.1) hr) hopenings.2

end Passes

/-! What the parts of a document do. -/

/-- A byte that is neither a delimiter of a string nor one of a container. -/
def IsFlat (b : UInt8) : Prop :=
  (b == quote) = false ∧ isOpener b = false ∧ isCloser b = false

instance (b : UInt8) : Decidable (IsFlat b) :=
  inferInstanceAs (Decidable (_ ∧ _ ∧ _))

open Grammar

variable {limit d : Nat}

theorem passes_flat {bs : Bytes} (h : ∀ b ∈ bs, IsFlat b) :
    Passes limit (.outside d) bs (.outside d) := by
  induction bs with
  | nil => exact .nil _
  | cons b bs ih =>
      obtain ⟨⟨hquote, hopener, hcloser⟩, hbs⟩ := List.forall_mem_cons.mp h
      refine .quiet (by simp [opening?, hopener]) ?_
      have hnext : (outside d).next b = outside d := by simp [next, hquote, hopener, hcloser]
      rw [hnext]
      exact ih hbs

theorem passes_blanks (b : Blanks) : Passes limit (.outside d) b.bytes (.outside d) := by
  refine passes_flat fun c hc => ?_
  have hblank := b.blank c hc
  simp only [isBlank, Bool.or_eq_true, beq_iff_eq] at hblank
  rcases hblank with ((rfl | rfl) | rfl) | rfl <;> decide

theorem isFlat_of_isDigit {b : UInt8} (h : isDigit b = true) : IsFlat b := by
  obtain ⟨hleast, hmost⟩ : 0x30 ≤ b.toNat ∧ b.toNat ≤ 0x39 := by
    simpa [isDigit, UInt8.le_iff_toNat_le] using h
  simp only [IsFlat, isOpener, isCloser, quote, openBrace, openBracket, closeBrace, closeBracket,
    Bool.or_eq_false_iff, beq_eq_false_iff_ne, ne_eq, ← UInt8.toNat_inj, UInt8.reduceToNat]
  omega

theorem passes_numeral (n : Numeral) :
    Passes limit (.outside d) n.literal.text (.outside d) := by
  have hmarks : ∀ b ∈ [minus, plus, dot, 0x65, 0x45], IsFlat b :=
    List.all_iff_forall_prop.mp (by decide)
  refine passes_flat fun b hb => ?_
  rcases n.mem_text b hb with hdigit | hmem
  · exact isFlat_of_isDigit hdigit
  · exact hmarks b hmem

theorem passes_inside {raw : Bytes} (h : Inside raw) :
    Passes limit (.inside d) raw (.inside d) := by
  induction h with
  | nil => exact .nil _
  | plain _ hquote hbackslash _ ih =>
      refine .quiet rfl ?_
      simpa [next, hquote, hbackslash] using ih
  | escaped b _ ih => exact .quiet rfl (.quiet rfl ih)

theorem passes_quoted (q : Quoted) : Passes limit (.outside d) q.text (.outside d) := by
  have hlast : Passes limit (.inside d) [quote] (.outside d) :=
    .quiet rfl (.nil _)
  exact .quiet rfl ((passes_inside q.inside).append hlast)

theorem passes_lexeme (x : Lexeme) : Passes limit (.outside d) x.text (.outside d) := by
  cases x with
  | word w => exact passes_flat (List.all_iff_forall_prop.mp (by cases w <;> decide))
  | number n => exact passes_numeral n
  | string q => exact passes_quoted q

theorem passes_opener (isObject : Bool) (h : d < limit) :
    Passes limit (.outside d) [opener isObject] (.outside (d + 1)) := by
  cases isObject <;>
    exact .cons (fun k hk => by cases hk; exact h) (.nil _)

theorem passes_closer (isObject : Bool) :
    Passes limit (.outside (d + 1)) [closer isObject] (.outside d) := by
  cases isObject <;> exact .quiet rfl (.nil _)

end Region

namespace Scan

open Grammar Region

/-- The number of the containers that are open in a state. -/
def State.depth : State → Nat
  | .value outer => outer.length
  | .name _ outer => outer.length + 1
  | .separator _ outer => outer.length + 1
  | .done _ => 0

theorem depth_deliver (tokens : Array Token) (outer : List Frame) :
    (deliver tokens outer).depth = outer.length := by
  cases outer <;> rfl

theorem depth_child (frame : Frame) (outer : List Frame) :
    (State.child frame outer).depth = outer.length + 1 := by
  rw [State.child]
  split <;> rfl

/-- From a place on `d` containers deep a pass comes to a place `e` containers deep, and
opens no container inside `limit` others on its way. -/
def Place.Leads (limit d e : Nat) (p q : Place) : Prop :=
  ∃ taken, p.rest = taken ++ q.rest ∧ q.offset = p.offset + taken.length ∧
    Passes limit (.outside d) taken (.outside e)

namespace Place.Leads

variable {limit d e f : Nat} {p q r : Place}

theorem trans (h : p.Leads limit d e q) (hs : q.Leads limit e f r) : p.Leads limit d f r := by
  obtain ⟨front, hp, hq, hfront⟩ := h
  obtain ⟨middle, hrest, hr, hmiddle⟩ := hs
  refine ⟨front ++ middle, by rw [hp, hrest, List.append_assoc], ?_, hfront.append hmiddle⟩
  rw [hr, hq, List.length_append, Nat.add_assoc]

theorem depth_le (h : p.Leads limit d e q) (hd : d ≤ limit) : e ≤ limit := by
  obtain ⟨_, _, _, htaken⟩ := h
  exact htaken.depth_le hd

end Place.Leads

variable {limit d e : Nat}

theorem leads_of_passes {taken : Bytes} (h : Passes limit (.outside d) taken (.outside e))
    (offset : Nat) (rest : Bytes) :
    Place.Leads limit d e ⟨offset, taken ++ rest⟩ ⟨offset + taken.length, rest⟩ :=
  ⟨taken, rfl, rfl, h⟩

theorem skipBlanks_leads (offset : Nat) (bs : Bytes) :
    Place.Leads limit d d ⟨offset, bs⟩ (skipBlanks offset bs) := by
  obtain ⟨b, hbs, hoffset⟩ := exists_blanks_of_skipBlanks (rfl : skipBlanks offset bs = _)
  exact ⟨b.bytes, hbs, hoffset, passes_blanks b⟩

theorem readValue_leads {outer : List Frame} {offset : Nat} {bs : Bytes} {next : State}
    {place : Place} (h : readValue limit outer ⟨offset, bs⟩ = .ok (next, place)) :
    Place.Leads limit outer.length next.depth ⟨offset, bs⟩ place := by
  rcases readValue_ok h with ⟨x, left, rfl, hnext⟩ | ⟨isObject, rest, hdepth, rfl, hnext⟩
  · cases hnext
    rw [depth_deliver]
    exact leads_of_passes (passes_lexeme x) offset left
  · have hopener : Place.Leads limit outer.length (outer.length + 1)
        ⟨offset, opener isObject :: rest⟩ ⟨offset + 1, rest⟩ :=
      leads_of_passes (passes_opener isObject hdepth) offset rest
    rcases enter_cases isObject outer offset rest with
      ⟨inside, left, rfl, henter⟩ | ⟨inside, left, rfl, henter⟩
    · rw [henter] at hnext
      cases hnext
      rw [depth_deliver]
      have hinside : Passes limit (.outside (outer.length + 1))
          (inside.bytes ++ [closer isObject]) (.outside outer.length) :=
        (passes_blanks inside).append (passes_closer isObject)
      have hcloser := leads_of_passes hinside (offset + 1) left
      rw [List.append_assoc, List.singleton_append, List.length_append, List.length_singleton,
        ← Nat.add_assoc, Nat.add_right_comm offset 1] at hcloser
      exact hopener.trans hcloser
    · rw [henter] at hnext
      cases hnext
      rw [depth_child]
      exact hopener.trans (leads_of_passes (passes_blanks inside) (offset + 1) left)

theorem readName_leads {frame : Frame} {outer : List Frame} {offset : Nat} {bs : Bytes}
    {next : State} {place : Place} (h : readName frame outer ⟨offset, bs⟩ = .ok (next, place)) :
    Place.Leads limit (outer.length + 1) next.depth ⟨offset, bs⟩ place := by
  obtain ⟨q, after, left, rfl, hnext⟩ := readName_ok h
  cases hnext
  have hcolon : ∀ b ∈ [colon], IsFlat b := List.forall_mem_singleton.mpr (by decide)
  exact ((leads_of_passes (passes_quoted q) offset _).trans
    (leads_of_passes (passes_blanks after) _ _)).trans
      (leads_of_passes (passes_flat hcolon) _ left)

theorem readSeparator_leads {frame : Frame} {outer : List Frame} {offset : Nat} {bs : Bytes}
    {next : State} {place : Place}
    (h : readSeparator frame outer ⟨offset, bs⟩ = .ok (next, place)) :
    Place.Leads limit (outer.length + 1) next.depth ⟨offset, bs⟩ place := by
  obtain ⟨left, ⟨rfl, hnext⟩ | ⟨rfl, hnext⟩⟩ := readSeparator_ok h
  · cases hnext
    rw [depth_deliver]
    exact leads_of_passes (passes_closer frame.isObject) offset left
  · cases hnext
    rw [depth_child]
    have hcomma : ∀ b ∈ [comma], IsFlat b := List.forall_mem_singleton.mpr (by decide)
    exact (leads_of_passes (passes_flat hcomma) offset left).trans (skipBlanks_leads _ _)

/-- A step counts the containers that it opens and closes. -/
theorem step_leads {state next : State} {p place : Place}
    (h : step limit state p = .go next place) :
    p.Leads limit state.depth next.depth place := by
  refine (skipBlanks_leads p.offset p.rest).trans ?_
  unfold step at h
  cases state with
  | value outer => exact readValue_leads (eq_of_ofStep h)
  | name frame outer => exact readName_leads (eq_of_ofStep h)
  | separator frame outer => exact readSeparator_leads (eq_of_ofStep h)
  | done tokens => cases h

/-! Two limits. -/

variable {deeper : Nat}

/-- Two limits make a difference at a container only that lies inside as many others as the
smaller one allows. -/
theorem readValue_deeper (hlimit : limit < deeper) {outer : List Frame}
    (hdepth : outer.length ≤ limit) (p : Place) :
    readValue limit outer p = readValue deeper outer p ∨
      outer.length = limit ∧
        readValue limit outer p = .error ⟨.nestingTooDeep, p.offset, p.offset⟩ ∧
        (∃ b rest, p.rest = b :: rest ∧ isOpener b = true) ∧
        ∃ next, readValue deeper outer p = .ok next := by
  unfold readValue
  cases hp : p.rest with
  | nil => exact .inl rfl
  | cons b rest =>
      simp only
      split_ifs with hopener hleast hmost
      · omega
      · exact .inr ⟨Nat.le_antisymm hdepth hleast, rfl, ⟨b, rest, rfl, hopener⟩, _, rfl⟩
      · omega
      · exact .inl rfl
      · exact .inl rfl

/-- A pass is cut off at a container that lies inside `limit` others, while no container in
front of it does, and the outcome of another pass is not known before that place. -/
structure CutOff (limit d : Nat) (p : Place) (cut : Stop)
    (outcome : Except Stop (Array Token)) : Prop where
  cause : cut.cause = .nestingTooDeep
  place : ∃ front b back, p.rest = front ++ b :: back ∧ cut.offset = p.offset + front.length ∧
    isOpener b = true ∧ Passes limit (.outside d) front (.outside limit)
  beyond : ∀ stop, outcome = .error stop → cut.offset < stop.offset

theorem CutOff.extend {p q : Place} {cut : Stop} {outcome : Except Stop (Array Token)}
    (h : p.Leads limit d e q) (hcut : CutOff limit e q cut outcome) :
    CutOff limit d p cut outcome := by
  obtain ⟨hcause, ⟨front, b, back, hrest, hoffset, hb, hfront⟩, hbeyond⟩ := hcut
  obtain ⟨taken, htaken, hstart, hpasses⟩ := h
  refine ⟨hcause, ⟨taken ++ front, b, back, ?_, ?_, hb, hpasses.append hfront⟩, hbeyond⟩
  · rw [htaken, hrest, List.append_assoc]
  · rw [hoffset, hstart, List.length_append, Nat.add_assoc]

theorem Place.Reaches.offset_le {p q : Place} (h : p.Reaches q) : p.offset ≤ q.offset := by
  obtain ⟨taken, -, hoffset, -⟩ := h
  exact hoffset ▸ Nat.le_add_right _ _

theorem Place.Reaches.offset_lt {p q : Place} (h : p.Reaches q)
    (hlength : q.rest.length < p.rest.length) : p.offset < q.offset := by
  obtain ⟨taken, hrest, hoffset, -⟩ := h
  rw [hrest, List.length_append] at hlength
  omega

/-- A step with the smaller limit is one with the larger one, or the pass is cut off. -/
theorem step_deeper (hlimit : limit < deeper) {state : State} (hdepth : state.depth ≤ limit)
    (p : Place) :
    step limit state p = step deeper state p ∨
      ∃ cut, step limit state p = .finished (.error cut) ∧
        CutOff limit state.depth p cut (run deeper state p) := by
  cases state with
  | name frame outer => exact .inl rfl
  | separator frame outer => exact .inl rfl
  | done tokens => exact .inl rfl
  | value outer =>
      rcases readValue_deeper hlimit hdepth (skipBlanks p.offset p.rest) with
        hsame | ⟨hequal, hcut, ⟨b, rest, hrest, hb⟩, ⟨next, place⟩, hnext⟩
      · exact .inl (congrArg Outcome.ofStep hsame)
      · refine .inr ⟨_, congrArg Outcome.ofStep hcut, ?_⟩
        have hblanks : p.Leads limit outer.length limit (skipBlanks p.offset p.rest) :=
          hequal ▸ skipBlanks_leads p.offset p.rest
        have hstep : step deeper (.value outer) p = .ofStep (.ok (next, place)) :=
          congrArg Outcome.ofStep hnext
        have hrun : run deeper (.value outer) p = run deeper next place := run_of_step hstep
        refine .extend hblanks ⟨rfl, ⟨[], b, rest, hrest, rfl, hb, .nil _⟩, fun stop hstop => ?_⟩
        obtain ⟨⟨left, hleft⟩, -⟩ := run_reached (hrun ▸ hstop)
        exact ((readValue_reaches hnext).offset_lt (length_readValue_lt hnext)).trans_le
          hleft.offset_le

/-- A pass with the smaller limit comes to the same as one with the larger limit, or it is
cut off. -/
theorem run_deeper (hlimit : limit < deeper) {state : State} {p : Place}
    (hdepth : state.depth ≤ limit) :
    run limit state p = run deeper state p ∨
      ∃ cut, run limit state p = .error cut ∧
        CutOff limit state.depth p cut (run deeper state p) := by
  fun_induction run limit state p with
  | case1 state p result hstep =>
      rcases step_deeper hlimit hdepth p with hsame | ⟨cut, hcut, hcutOff⟩
      · left
        rw [run_eq, ← hsame, hstep]
      · rw [hstep] at hcut
        cases hcut
        exact .inr ⟨cut, rfl, hcutOff⟩
  | case2 state p next place hstep _ ih =>
      have hleads := step_leads hstep
      have hsame : step deeper state p = .go next place := by
        rcases step_deeper hlimit hdepth p with hsame | ⟨cut, hcut, -⟩
        · rw [← hsame, hstep]
        · rw [hstep] at hcut
          cases hcut
      have hrun : run deeper state p = run deeper next place := by
        rw [run_eq, hsame]
      rw [hrun]
      rcases ih (hleads.depth_le hdepth) with hequal | ⟨cut, hcut, hcutOff⟩
      · exact .inl hequal
      · exact .inr ⟨cut, hcut, hcutOff.extend hleads⟩

end Scan

open ByteReader LawfulReader

variable {ρ : Type} [ByteReader ρ] [LawfulReader ρ]

/-- Of two limits the smaller one only cuts off: a reader is tokenized alike, or it is refused
with the smaller limit at the first container that lies inside as many others as that limit
allows, and with the larger limit it is tokenized beyond that place. -/
theorem Tape.read_deeper {limit deeper : Nat} (hlimit : limit < deeper) (r : ρ) :
    Tape.read ⟨limit⟩ r = Tape.read ⟨deeper⟩ r ∨
      ∃ (fault : ReadFault) (front : Bytes) (b : UInt8) (back : Bytes),
        (Tape.read ⟨limit⟩ r).1 = .error fault ∧
        fault.cause.message = "Maximum nesting depth exceeded" ∧
        (content r).drop (offset r) = front ++ b :: back ∧
        fault.offset = offset r + front.length ∧ isOpener b = true ∧
        Region.behind (.outside 0) front = .outside limit ∧
        (∀ k ∈ Region.openings (.outside 0) front, k < limit) ∧
        ∀ later, (Tape.read ⟨deeper⟩ r).1 = .error later → fault.offset < later.offset := by
  have hdepth : (Scan.State.value []).depth ≤ limit := Nat.zero_le limit
  rcases Scan.run_deeper (p := ⟨offset r, left r⟩) hlimit hdepth with hsame | ⟨cut, hcut, hcutOff⟩
  · left
    simp only [Tape.read, Scan.document, hsame]
  · right
    obtain ⟨hcause, ⟨front, b, back, hrest, hoffset, hb, hfront⟩, hbeyond⟩ := hcutOff
    obtain ⟨hfault, hplace⟩ := cut.fault_cause_offset r
    refine ⟨cut.fault r, front, b, back, ?_, by rw [hfault, hcause]; rfl, left_eq r ▸ hrest,
      hplace.trans hoffset, hb, hfront.behind, hfront.openings, fun later hlater => ?_⟩
    · simp only [Tape.read, Scan.document, hcut]
    · unfold Tape.read Scan.document at hlater
      simp only at hlater
      cases hrun : Scan.run deeper (.value []) ⟨offset r, left r⟩ with
      | ok tokens =>
          rw [hrun] at hlater
          cases hlater
      | error stop =>
          rw [hrun] at hlater
          cases hlater
          rw [hplace, (stop.fault_cause_offset r).2]
          exact hbeyond stop hrun

/-- In `["[",[]]` the second container is too deep for the limit 1 and not for the limit 2; the
bracket in the string is none. -/
theorem Tape.read_deeper_second :
    ∃ (fault : ReadFault) (front : Bytes) (b : UInt8) (back : Bytes),
      (Tape.read ⟨1⟩ (SliceReader.ofSource
        (.ofBytes [0x5B, 0x22, 0x5B, 0x22, 0x2C, 0x5B, 0x5D, 0x5D]))).1 = .error fault ∧
      fault.cause.message = "Maximum nesting depth exceeded" ∧
      [0x5B, 0x22, 0x5B, 0x22, 0x2C, 0x5B, 0x5D, 0x5D] = front ++ b :: back ∧
      fault.offset = 0 + front.length ∧ isOpener b = true ∧
      Region.behind (.outside 0) front = .outside 1 ∧
      (∀ k ∈ Region.openings (.outside 0) front, k < 1) ∧
      ∀ later, (Tape.read ⟨2⟩ (SliceReader.ofSource
        (.ofBytes [0x5B, 0x22, 0x5B, 0x22, 0x2C, 0x5B, 0x5D, 0x5D]))).1 = .error later →
          fault.offset < later.offset := by
  have hcut : Scan.document 1 0 [0x5B, 0x22, 0x5B, 0x22, 0x2C, 0x5B, 0x5D, 0x5D] =
      .error ⟨.nestingTooDeep, 5, 5⟩ := by
    cbv
  have hread : (Tape.read ⟨2⟩ (SliceReader.ofSource
      (.ofBytes [0x5B, 0x22, 0x5B, 0x22, 0x2C, 0x5B, 0x5D, 0x5D]))).1 =
        .ok ⟨[⟨.array, 0, 8, 2⟩, ⟨.string, 2, 3, 0⟩, ⟨.array, 5, 7, 0⟩]⟩ := by
    cbv
  rcases Tape.read_deeper (Nat.lt_succ_self 1) (SliceReader.ofSource
    (.ofBytes [0x5B, 0x22, 0x5B, 0x22, 0x2C, 0x5B, 0x5D, 0x5D])) with hsame | hcutOff
  · rw [← hsame] at hread
    have hdocument : Scan.document 1 0 [0x5B, 0x22, 0x5B, 0x22, 0x2C, 0x5B, 0x5D, 0x5D] = .ok _ :=
      read_fst_eq_ok_iff.mp hread
    rw [hcut] at hdocument
    cases hdocument
  · exact hcutOff

end FlatJson
