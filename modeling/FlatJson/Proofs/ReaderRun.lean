import FlatJson.Proofs.Reader

/-!
# Readers agree

What can be asked of a reader (`Access`) concerns some bytes of its text. Where these bytes
lie in the text the access is granted, and the caller gets just them; where they do not, the
reader stays where it is, the buffer of the caller keeps what it holds, and the bounds that were
asked for are reported (`Access.Answers`). A whole sequence of accesses is answered in this way
(`Access.Follows`), and there is only one way to do so.

So readers of the same text cannot be told apart. Apart from what a `LawfulReader` promises this
takes two laws only (`LawfulAccess`), for what readers do in ways of their own: a single byte is
a stretch of one byte, and a stretch is cut out of the text.
-/

namespace FlatJson

open ByteReader LawfulReader

/-! What can be asked of a reader. -/

namespace ByteReader

variable {ρ : Type} [ByteReader ρ]

/-- Fills a buffer with the bytes at an offset. A buffer that is not filled keeps what it
holds. -/
def fill (r : ρ) (at_ : Nat) (buffer : Bytes) : Except OutOfBounds Unit × Bytes :=
  match getBytes r at_ buffer.length with
  | .ok bs => (.ok (), bs)
  | .error e => (.error e, buffer)

/-- Fills a buffer with the next bytes, and only then goes on behind them. -/
def readInto (r : ρ) (buffer : Bytes) : Except OutOfBounds Unit × Bytes × ρ :=
  match fill r (offset r) buffer with
  | (.error e, kept) => (.error e, kept, r)
  | (.ok (), filled) =>
    -- Here the buffer would be filled although the bytes are refused (see readInto_eq).
    match skip r buffer.length with
    | .ok s => (.ok (), filled, s)
    | .error e => (.error e, filled, r)

end ByteReader

/-- One thing that is asked of a reader. -/
inductive Access
  | seek (target : Nat)
  | skip (count : Nat)
  | peek
  | read
  | readInto (buffer : Bytes)
  | byteAt (at_ : Nat)
  | fill (at_ : Nat) (buffer : Bytes)
  | stretch (start stop : Nat)
  deriving DecidableEq

/-- What the caller is left with: what is returned, and what the buffer holds. -/
structure Reply where
  result : Except OutOfBounds Bytes
  buffer : Bytes

namespace Access

section Perform

variable {ρ : Type} [ByteReader ρ] [StretchReader ρ]

/-- The reply to something that moves the reader, which stays where it is if this is refused. -/
def settle (r : ρ) : Except OutOfBounds (Bytes × ρ) → Reply × ρ
  | .ok (bs, s) => (⟨.ok bs, []⟩, s)
  | .error e => (⟨.error e, []⟩, r)

/-- Asks a reader for one thing. -/
def perform (r : ρ) : Access → Reply × ρ
  | seek target => settle r ((ByteReader.seek r target).map ([], ·))
  | skip count => settle r ((ByteReader.skip r count).map ([], ·))
  | peek => (⟨(ByteReader.peek r).map ([·]), []⟩, r)
  | read => settle r ((ByteReader.read r).map fun (b, s) => ([b], s))
  | readInto buffer =>
    let (result, filled, s) := ByteReader.readInto r buffer
    (⟨result.map fun _ => [], filled⟩, s)
  | byteAt at_ => (⟨(getByte r at_).map ([·]), []⟩, r)
  | fill at_ buffer =>
    let (result, filled) := ByteReader.fill r at_ buffer
    (⟨result.map fun _ => [], filled⟩, r)
  | stretch start stop => (⟨StretchReader.stretch r start stop, []⟩, r)

/-- The replies to a sequence of accesses, each with the offset behind it. -/
def trace (r : ρ) : List Access → List (Reply × Nat)
  | [] => []
  | a :: accesses =>
    let (reply, s) := a.perform r
    (reply, offset s) :: trace s accesses

end Perform

/-! How it is to be answered. -/

/-- Where the bytes begin that an access concerns. -/
def start (offset : Nat) : Access → Nat
  | seek target => target
  | byteAt at_ => at_
  | fill at_ _ => at_
  | stretch start _ => start
  | _ => offset

/-- How many bytes an access concerns. -/
def count : Access → Nat
  | seek _ => 0
  | skip count => count
  | readInto buffer => buffer.length
  | fill _ buffer => buffer.length
  | stretch start stop => stop - start
  | _ => 1

/-- The bounds of a stretch are to be in order. -/
def Ordered : Access → Prop
  | stretch start stop => start ≤ stop
  | _ => True

/-- What the buffer of the caller holds in front of an access. -/
def buffer : Access → Bytes
  | readInto buffer => buffer
  | fill _ buffer => buffer
  | _ => []

/-- What the caller gets of the bytes that an access concerns. -/
def shown (bs : Bytes) : Access → Reply
  | seek _ => ⟨.ok [], []⟩
  | skip _ => ⟨.ok [], []⟩
  | readInto _ => ⟨.ok [], bs⟩
  | fill _ _ => ⟨.ok [], bs⟩
  | _ => ⟨.ok bs, []⟩

/-- The offset behind an access that is granted. -/
def next (offset : Nat) : Access → Nat
  | seek target => target
  | skip count => offset + count
  | read => offset + 1
  | readInto buffer => offset + buffer.length
  | _ => offset

/-- An access is granted where the text holds all the bytes that it concerns. -/
def Granted (text : Bytes) (offset : Nat) (a : Access) : Prop :=
  a.Ordered ∧ a.start offset + a.count ≤ text.length

/-- The reply to an access at an offset of a text, and the offset behind it. -/
inductive Answers (text : Bytes) (offset : Nat) (a : Access) : Reply → Nat → Prop
  | granted : a.Granted text offset →
      Answers text offset a (a.shown ((text.drop (a.start offset)).take a.count)) (a.next offset)
  | refused : ¬a.Granted text offset →
      Answers text offset a ⟨.error ⟨a.start offset, a.count, text.length⟩, a.buffer⟩ offset

/-- The replies to a sequence of accesses from an offset of a text on. -/
inductive Follows (text : Bytes) : Nat → List Access → List (Reply × Nat) → Prop
  | nil {offset : Nat} : Follows text offset [] []
  | cons {offset : Nat} {a : Access} {reply : Reply} {after : Nat} {accesses : List Access}
      {trace : List (Reply × Nat)} : a.Answers text offset reply after → after ≤ text.length →
      Follows text after accesses trace → Follows text offset (a :: accesses)
        ((reply, after) :: trace)

variable {text : Bytes} {at_ : Nat} {a : Access}

/-- Bytes behind the end of the text are refused. -/
theorem Answers.of_lt (h : text.length < a.start at_ + a.count) :
    a.Answers text at_ ⟨.error ⟨a.start at_, a.count, text.length⟩, a.buffer⟩ at_ :=
  .refused fun hgranted => Nat.not_le.mpr h hgranted.2

/-- There is one answer to an access. -/
theorem Answers.unique {reply reply' : Reply} {after after' : Nat}
    (h : a.Answers text at_ reply after) (h' : a.Answers text at_ reply' after') :
    reply = reply' ∧ after = after' := by
  cases h with
  | granted hgranted =>
      cases h' with
      | granted => exact ⟨rfl, rfl⟩
      | refused hrefused => exact absurd hgranted hrefused
  | refused hrefused =>
      cases h' with
      | granted hgranted => exact absurd hgranted hrefused
      | refused => exact ⟨rfl, rfl⟩

/-- No access leaves the text. -/
theorem Answers.le_length {reply : Reply} {after : Nat} (h : a.Answers text at_ reply after)
    (hle : at_ ≤ text.length) : after ≤ text.length := by
  cases h with
  | refused => exact hle
  | granted hgranted =>
      have hroom := hgranted.2
      cases a with
      | seek | skip | read | readInto => exact hroom
      | peek | byteAt | fill | stretch => exact hle

theorem Follows.unique {accesses : List Access} {trace trace' : List (Reply × Nat)}
    (h : Follows text at_ accesses trace) (h' : Follows text at_ accesses trace') :
    trace = trace' := by
  induction h generalizing trace' with
  | nil =>
      cases h'
      rfl
  | cons hanswers _ _ ih =>
      cases h' with
      | cons hanswers' _ hfollows =>
          obtain ⟨rfl, rfl⟩ := hanswers.unique hanswers'
          rw [ih hfollows]

end Access

/-! Readers do answer like this. -/

/-- What is promised of the ways that a reader may have of its own. -/
class LawfulAccess (ρ : Type) [ByteReader ρ] [LawfulReader ρ] [StretchReader ρ] : Prop where
  /-- A byte is a stretch of one byte. -/
  map_getByte (r : ρ) (at_ : Nat) : (getByte r at_).map ([·]) = getBytes r at_ 1
  /-- A stretch is cut out of the text. -/
  stretch_eq (r : ρ) (start stop : Nat) : StretchReader.stretch r start stop = slice r start stop

open LawfulAccess

namespace ByteReader

variable {ρ : Type} [ByteReader ρ] [LawfulReader ρ] {r : ρ} {at_ count : Nat}

theorem getBytes_of_le (h : at_ + count ≤ (content r).length) :
    getBytes r at_ count = .ok (((content r).drop at_).take count) := by
  rw [getBytes_eq, if_pos h]

theorem getBytes_of_lt (h : (content r).length < at_ + count) :
    getBytes r at_ count = .error ⟨at_, count, (content r).length⟩ := by
  rw [getBytes_eq, if_neg (Nat.not_le.mpr h)]

theorem skip_of_le (h : offset r + count ≤ (content r).length) :
    ∃ s, skip r count = .ok s ∧ offset s = offset r + count ∧ content s = content r := by
  obtain ⟨s, hseek, hplace⟩ := seek_of_le r h
  refine ⟨s, ?_, hplace⟩
  rw [skip, OutOfBounds.check, limit_eq, if_pos h]
  exact hseek

theorem skip_of_lt (h : (content r).length < offset r + count) :
    skip r count = .error ⟨offset r, count, (content r).length⟩ := by
  rw [skip, OutOfBounds.check, limit_eq, if_neg (Nat.not_le.mpr h)]
  rfl

theorem fill_of_le {buffer : Bytes} (h : at_ + buffer.length ≤ (content r).length) :
    fill r at_ buffer = (.ok (), ((content r).drop at_).take buffer.length) := by
  rw [fill, getBytes_of_le h]

theorem fill_of_lt {buffer : Bytes} (h : (content r).length < at_ + buffer.length) :
    fill r at_ buffer = (.error ⟨at_, buffer.length, (content r).length⟩, buffer) := by
  rw [fill, getBytes_of_lt h]

theorem readInto_of_le {buffer : Bytes} (h : offset r + buffer.length ≤ (content r).length) :
    ∃ s, readInto r buffer =
        (.ok (), ((content r).drop (offset r)).take buffer.length, s) ∧
      offset s = offset r + buffer.length ∧ content s = content r := by
  obtain ⟨s, hskip, hplace⟩ := skip_of_le h
  refine ⟨s, ?_, hplace⟩
  simp only [readInto, fill_of_le h, hskip]

theorem readInto_of_lt {buffer : Bytes} (h : (content r).length < offset r + buffer.length) :
    readInto r buffer =
      (.error ⟨offset r, buffer.length, (content r).length⟩, buffer, r) := by
  rw [readInto, fill_of_lt h]

/-- A buffer takes the bytes that are read next, and nothing if they are refused: what is there
to be read can be skipped. -/
theorem readInto_eq (r : ρ) (buffer : Bytes) :
    readInto r buffer = match readBytes r buffer.length with
      | .ok (bs, s) => (.ok (), bs, s)
      | .error e => (.error e, buffer, r) := by
  rcases Nat.lt_or_ge (content r).length (offset r + buffer.length) with hlt | hle
  · simp only [readInto_of_lt hlt, readBytes, getBytes_of_lt hlt, bind, Except.bind]
  · obtain ⟨s, hskip, -⟩ := skip_of_le hle
    simp only [readInto, fill_of_le hle, readBytes, getBytes_of_le hle, hskip, bind, Except.bind]

section Byte

variable [StretchReader ρ] [LawfulAccess ρ]

theorem read_of_le (h : offset r + 1 ≤ (content r).length) :
    ∃ b s, read r = .ok (b, s) ∧ ((content r).drop (offset r)).take 1 = [b] ∧
      offset s = offset r + 1 ∧ content s = content r := by
  obtain ⟨s, hskip, hplace⟩ := skip_of_le h
  have hbyte := map_getByte r (offset r)
  rw [getBytes_of_le h] at hbyte
  cases hpeek : getByte r (offset r) with
  | error e =>
      rw [hpeek] at hbyte
      cases hbyte
  | ok b =>
      rw [hpeek] at hbyte
      refine ⟨b, s, ?_, (Except.ok.inj hbyte).symm, hplace⟩
      simp only [read, peek, hpeek, hskip, bind, Except.bind]

theorem read_of_lt (h : (content r).length < offset r + 1) :
    read r = .error ⟨offset r, 1, (content r).length⟩ := by
  have hbyte := map_getByte r (offset r)
  rw [getBytes_of_lt h] at hbyte
  cases hpeek : getByte r (offset r) with
  | error e =>
      rw [hpeek] at hbyte
      simp only [read, peek, hpeek, bind, Except.bind]
      exact congrArg Except.error (Except.error.inj hbyte)
  | ok b =>
      rw [hpeek] at hbyte
      cases hbyte

end Byte

/-- A reader that brings no way to a single byte takes a stretch of one byte. -/
theorem map_firstByte (r : ρ) (at_ : Nat) :
    Except.map ([·]) (match getBytes r at_ 1 with
      | .ok (b :: _) => .ok b
      | .ok [] => .error ⟨at_, 1, limit r⟩
      | .error e => .error e) = getBytes r at_ 1 := by
  by_cases h : at_ + 1 ≤ (content r).length
  · rw [getBytes_of_le h, List.drop_eq_getElem_cons (by omega)]
    rfl
  · rw [getBytes_of_lt (Nat.lt_of_not_le h)]
    rfl

end ByteReader

/-! The readers keep these promises. -/

instance {ρ : Type} [ByteReader ρ] [LawfulReader ρ] : LawfulReader (Borrowed ρ) where
  content b := content b.reader
  limit_eq b := limit_eq b.reader
  getBytes_eq b at_ count := getBytes_eq b.reader at_ count
  seek_of_le b target h := by
    obtain ⟨s, hseek, hplace⟩ := seek_of_le b.reader h
    refine ⟨⟨s⟩, ?_, hplace⟩
    simp only [seek, hseek, Except.map]
  seek_of_lt b target h := by
    simp only [seek, seek_of_lt b.reader h, Except.map]

instance : LawfulAccess SliceReader where
  map_getByte r at_ := by
    show (r.byteAt at_).map ([·]) = r.source.getBytes at_ 1
    unfold SliceReader.byteAt Source.getBytes Source.limit
    by_cases h : at_ + 1 ≤ r.source.data.size
    · have hbyte : (r.source.data.extract at_ (at_ + 1)).toList = [r.source.data[at_]] := by
        rw [Array.toList_extract, List.extract_eq_take_drop, Nat.add_sub_cancel_left,
          List.drop_eq_getElem_cons (by rwa [Array.length_toList])]
        rfl
      rw [if_pos h, hbyte, Array.getElem?_eq_getElem h]
      rfl
    · rw [if_neg h, Array.getElem?_eq_none (Nat.le_of_not_lt h)]
      rfl
  stretch_eq r start stop := by
    show (if start ≤ stop ∧ stop ≤ r.source.limit then
        .ok (r.source.data.extract start stop).toList
      else .error ⟨start, stop - start, r.source.limit⟩) =
        if stop < start then .error ⟨start, 0, r.source.limit⟩
        else r.source.getBytes start (stop - start)
    by_cases hordered : start ≤ stop
    · rw [if_neg (Nat.not_lt.mpr hordered), Source.getBytes, Nat.add_sub_cancel' hordered]
      simp only [hordered, true_and]
    · rw [if_pos (Nat.lt_of_not_le hordered), if_neg (fun h => hordered h.1),
        Nat.sub_eq_zero_of_le (Nat.le_of_not_le hordered)]

instance : LawfulAccess PoolReader where
  map_getByte r at_ := map_firstByte r at_
  stretch_eq _ _ _ := rfl

instance {ρ : Type} [ByteReader ρ] [LawfulReader ρ] [StretchReader ρ] [LawfulAccess ρ] :
    LawfulAccess (Borrowed ρ) where
  map_getByte b at_ := map_firstByte b at_
  stretch_eq b start stop := stretch_eq b.reader start stop

namespace Access

section Answers

variable {ρ : Type} [ByteReader ρ] [LawfulReader ρ] {r : ρ} {a : Access}

/-- Bytes that are asked for at once are shown, and the reader stays where it is. -/
theorem answers_getBytes (hordered : a.Ordered) (hnext : a.next (offset r) = offset r)
    (hbuffer : a.buffer = []) (hshown : ∀ bs, a.shown bs = ⟨.ok bs, []⟩) :
    a.Answers (content r) (offset r) ⟨getBytes r (a.start (offset r)) a.count, []⟩
      (offset r) := by
  rcases Nat.lt_or_ge (content r).length (a.start (offset r) + a.count) with hlt | hle
  · have hanswers := Answers.of_lt hlt
    rwa [hbuffer, ← getBytes_of_lt hlt] at hanswers
  · have hanswers := Answers.granted ⟨hordered, hle⟩
    rwa [hshown, hnext, ← getBytes_of_le hle] at hanswers

/-- A reader that moves where it may, and stays where it is otherwise, answers. -/
theorem settle_answers {x : Except OutOfBounds (Bytes × ρ)} (hordered : a.Ordered)
    (hbuffer : a.buffer = [])
    (hlt : (content r).length < a.start (offset r) + a.count →
      x = .error ⟨a.start (offset r), a.count, (content r).length⟩)
    (hle : a.start (offset r) + a.count ≤ (content r).length → ∃ bs s, x = .ok (bs, s) ∧
      a.shown (((content r).drop (a.start (offset r))).take a.count) = ⟨.ok bs, []⟩ ∧
      offset s = a.next (offset r) ∧ content s = content r) :
    ∃ reply s, settle r x = (reply, s) ∧
      a.Answers (content r) (offset r) reply (offset s) ∧ content s = content r := by
  rcases Nat.lt_or_ge (content r).length (a.start (offset r) + a.count) with h | h
  · refine ⟨_, r, by rw [hlt h]; rfl, ?_, rfl⟩
    rw [← hbuffer]
    exact .of_lt h
  · obtain ⟨bs, s, rfl, hshown, hoffset, hcontent⟩ := hle h
    refine ⟨_, s, rfl, ?_, hcontent⟩
    rw [← hshown, hoffset]
    exact .granted ⟨hordered, h⟩

end Answers

variable {ρ : Type} [ByteReader ρ] [LawfulReader ρ] [StretchReader ρ] [LawfulAccess ρ]

/-- Every reader answers, and goes on reading the same text. -/
theorem perform_answers (r : ρ) (a : Access) :
    ∃ reply s, a.perform r = (reply, s) ∧
      a.Answers (content r) (offset r) reply (offset s) ∧ content s = content r := by
  cases a with
  | seek target =>
      refine settle_answers trivial rfl (fun h => ?_) fun h => ?_
      · rw [seek_of_lt r (show (content r).length < target from h)]
        rfl
      · obtain ⟨s, hseek, hplace⟩ := seek_of_le r (show target ≤ (content r).length from h)
        exact ⟨[], s, by rw [hseek]; rfl, rfl, hplace⟩
  | skip count =>
      refine settle_answers trivial rfl (fun h => ?_) fun h => ?_
      · rw [skip_of_lt (show (content r).length < offset r + count from h)]
        rfl
      · obtain ⟨s, hskip, hplace⟩ :=
          skip_of_le (show offset r + count ≤ (content r).length from h)
        exact ⟨[], s, by rw [hskip]; rfl, rfl, hplace⟩
  | read =>
      refine settle_answers trivial rfl (fun h => ?_) fun h => ?_
      · rw [read_of_lt h]
        rfl
      · obtain ⟨b, s, hread, hb, hplace⟩ := read_of_le h
        exact ⟨[b], s, by rw [hread]; rfl, congrArg (fun bs => Reply.mk (.ok bs) []) hb, hplace⟩
  | peek =>
      refine ⟨_, r, rfl, ?_, rfl⟩
      rw [ByteReader.peek, map_getByte]
      exact answers_getBytes trivial rfl rfl fun _ => rfl
  | byteAt at_ =>
      refine ⟨_, r, rfl, ?_, rfl⟩
      rw [map_getByte]
      exact answers_getBytes trivial rfl rfl fun _ => rfl
  | stretch start stop =>
      refine ⟨_, r, rfl, ?_, rfl⟩
      rw [stretch_eq, slice]
      by_cases h : stop < start
      · -- Between bounds in the wrong order lies no byte, so no byte is reported.
        have hrefused : ¬(stretch start stop).Granted (content r) (offset r) :=
          fun hgranted => Nat.not_le.mpr h hgranted.1
        have hanswers := Answers.refused hrefused
        have hnone : (stretch start stop).count = 0 := Nat.sub_eq_zero_of_le (Nat.le_of_lt h)
        rw [hnone] at hanswers
        rwa [if_pos h, limit_eq]
      · rw [if_neg h]
        exact answers_getBytes (Nat.le_of_not_lt h) rfl rfl fun _ => rfl
  | fill at_ buffer =>
      rcases Nat.lt_or_ge (content r).length (at_ + buffer.length) with h | h
      · refine ⟨_, r, ?_, .of_lt h, rfl⟩
        rw [perform, fill_of_lt h]
        rfl
      · refine ⟨_, r, ?_, .granted ⟨trivial, h⟩, rfl⟩
        rw [perform, fill_of_le h]
        rfl
  | readInto buffer =>
      rcases Nat.lt_or_ge (content r).length (offset r + buffer.length) with h | h
      · refine ⟨_, r, ?_, .of_lt h, rfl⟩
        rw [perform, readInto_of_lt h]
        rfl
      · obtain ⟨s, hread, hoffset, hcontent⟩ := readInto_of_le h
        have hanswers : (readInto buffer).Answers (content r) (offset r) _
            (offset r + buffer.length) := .granted ⟨trivial, h⟩
        rw [← hoffset] at hanswers
        refine ⟨_, s, ?_, hanswers, hcontent⟩
        rw [perform, hread]
        rfl

/-- A run from an offset in the text stays in it, and is answered access by access. -/
theorem trace_follows (accesses : List Access) {r : ρ} (h : offset r ≤ (content r).length) :
    Follows (content r) (offset r) accesses (trace r accesses) := by
  induction accesses generalizing r with
  | nil => exact .nil
  | cons a accesses ih =>
      -- The text stays the same, and the offset in it.
      obtain ⟨reply, s, hperform, hanswers, hcontent⟩ := perform_answers r a
      have hle := hanswers.le_length h
      have hfollows := ih (hcontent ▸ hle)
      rw [hcontent] at hfollows
      rw [trace, hperform]
      exact .cons hanswers hle hfollows

theorem follows_of_start {text : Bytes} (accesses : List Access) {r : ρ}
    (hcontent : content r = text) (hoffset : offset r = 0) :
    Follows text 0 accesses (trace r accesses) := by
  have hfollows := trace_follows accesses (hoffset ▸ Nat.zero_le (content r).length)
  rwa [hcontent, hoffset] at hfollows

end Access

/-! Bounds are checked on machine words. -/

/-- Asks the same of words. A sum that is no word is refused. -/
def OutOfBounds.checkWords (offset requested limit : UInt64) : Except OutOfBounds Unit :=
  if offset.toBitVec.uaddOverflow requested.toBitVec then
    .error ⟨offset.toNat, requested.toNat, limit.toNat⟩
  else if offset + requested ≤ limit then .ok ()
  else .error ⟨offset.toNat, requested.toNat, limit.toNat⟩

theorem OutOfBounds.checkWords_eq (offset requested limit : UInt64) :
    checkWords offset requested limit =
      check offset.toNat requested.toNat limit.toNat := by
  have hlimit := limit.toNat_lt
  unfold checkWords check
  split
  next h =>
    have hsum : 2 ^ 64 ≤ offset.toNat + requested.toNat := by
      simpa [BitVec.uaddOverflow] using h
    rw [if_neg (by omega)]
  next h =>
    have hsum : offset.toNat + requested.toNat < 2 ^ 64 := by
      simpa [BitVec.uaddOverflow] using h
    have hadd : (offset + requested).toNat = offset.toNat + requested.toNat := by
      rw [UInt64.toNat_add, Nat.mod_eq_of_lt hsum]
    simp only [UInt64.le_iff_toNat_le, hadd]

namespace Access

/-- Readers at the start of the same text cannot be told apart, whether it is held as a whole or
lies in a pool, and whether the readers are lent out or not: they give the same replies with
the same faults, and have the same offset behind each of them. So do all accesses follow the
text: the offset never leaves it, what is granted concerns just the bytes that were asked for,
and what is refused changes neither the offset nor the buffer. Nor does it matter that bounds
are checked on machine words. -/
theorem readers_agree {text : Bytes} {p : PoolReader} (hcontent : content p = text)
    (hposition : p.position = 0) (accesses : List Access) :
    (∃ replies, Follows text 0 accesses replies ∧
      trace (SliceReader.ofSource (.ofBytes text)) accesses = replies ∧
      trace p accesses = replies ∧
      trace (Borrowed.mk (SliceReader.ofSource (.ofBytes text))) accesses = replies ∧
      trace (Borrowed.mk p) accesses = replies) ∧
    ∀ offset requested limit : UInt64, OutOfBounds.checkWords offset requested limit =
      OutOfBounds.check offset.toNat requested.toNat limit.toNat := by
  have hslice : Follows text 0 accesses (trace (SliceReader.ofSource (.ofBytes text)) accesses) :=
    follows_of_start accesses rfl rfl
  have hpool : Follows text 0 accesses (trace p accesses) :=
    follows_of_start accesses hcontent hposition
  have hlent : Follows text 0 accesses
      (trace (Borrowed.mk (SliceReader.ofSource (.ofBytes text))) accesses) :=
    follows_of_start accesses rfl rfl
  have hlentPool : Follows text 0 accesses (trace (Borrowed.mk p) accesses) :=
    follows_of_start accesses hcontent hposition
  exact ⟨⟨_, hslice, rfl, hpool.unique hslice, hlent.unique hslice, hlentPool.unique hslice⟩,
    OutOfBounds.checkWords_eq⟩

/-- Of two bytes in the middle of a pool one is read, the other is asked for together with more
bytes than there are words, and then both are asked for again. -/
theorem readers_agree_words :
    content (⟨#[0x30, 0x31, 0x32, 0x33], 1, 2, 0, by decide⟩ : PoolReader) = [0x31, 0x32] ∧
      trace (Borrowed.mk (⟨#[0x30, 0x31, 0x32, 0x33], 1, 2, 0, by decide⟩ : PoolReader))
          [.read, .skip 18446744073709551615, .stretch 0 2] =
        trace (SliceReader.ofSource (.ofBytes [0x31, 0x32]))
          [.read, .skip 18446744073709551615, .stretch 0 2] := by
  have hcontent : content (⟨#[0x30, 0x31, 0x32, 0x33], 1, 2, 0, by decide⟩ : PoolReader) =
      [0x31, 0x32] := rfl
  obtain ⟨⟨_, -, hslice, -, -, hlent⟩, -⟩ := readers_agree hcontent rfl
    [.read, .skip 18446744073709551615, .stretch 0 2]
  exact ⟨hcontent, hlent.trans hslice.symm⟩

end Access

end FlatJson
