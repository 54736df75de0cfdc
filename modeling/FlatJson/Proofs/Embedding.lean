import FlatJson.Proofs.Faults
import FlatJson.Proofs.Reads
import FlatJson.Proofs.Scan.Shift

/-!
# Documents inside longer ones

A document may stand inside of a longer one, behind some bytes and in front of
others, and its tokens among other tokens. A decoder that reads the document on its
own, and the same decoder at the place of the document in the longer one, do the same:
the two cursors move along together, the values are the same, and faults differ in
their offset alone (`Decoder.Follows`). The codecs of larger types inherit this from
those of their parts. Nothing is said of tokens or bytes that are not there, since
those may well be there in the longer document.
-/

namespace FlatJson

/-- The fault of the same text `n` bytes further on. -/
def ReadFault.shift (n : Nat) (fault : ReadFault) : ReadFault :=
  { fault with offset := n + fault.offset }

def Fault.shift (n : Nat) : Fault → Fault
  | .read fault => .read (fault.shift n)
  | fault => fault

/-- What comes of the same text `n` bytes further on. -/
def ReadFault.shifted {α : Type} (n : Nat) : Except ReadFault α → Except ReadFault α :=
  Except.mapError (ReadFault.shift n)

def Fault.shifted {α : Type} (n : Nat) : Except Fault α → Except Fault α :=
  Except.mapError (Fault.shift n)

/-- A reader of texts that does not look at the offset of a text, except for the faults
that it blames on the text. -/
def Shifts {α : Type} (parse : Bytes → Nat → Except ReadFault α) : Prop :=
  ∀ n text offset, parse text (n + offset) = ReadFault.shifted n (parse text offset)

theorem Scalar.literal_shift (n : Nat) (text : Bytes) (offset : Nat) :
    literal text (n + offset) = ReadFault.shifted n (literal text offset) := by
  unfold literal
  split
  · rfl
  · cases Literal.ofText? text <;> rfl

theorem Scalar.shifts_parseFloat (f : Format) : Shifts (parseFloat f) := by
  intro n text offset
  unfold parseFloat
  rw [literal_shift]
  cases literal text offset with
  | error fault => rfl
  | ok l =>
      show (if (l.toBinary f).isFinite then _ else _) =
        ReadFault.shifted n (if (l.toBinary f).isFinite then _ else _)
      split <;> rfl

theorem Scalar.shifts_parseInteger (t : IntType) : Shifts (parseInteger t) := by
  intro n text offset
  unfold parseInteger
  rw [literal_shift]
  cases literal text offset with
  | error fault => rfl
  | ok l =>
      simp only [ReadFault.shifted, Except.mapError, bind, Except.bind]
      split
      · rfl
      · cases l.member? t <;> rfl

theorem TextForm.shifts_parseNumeral {α : Type} (form : TextForm α) : Shifts form.parseNumeral := by
  intro n text offset
  unfold parseNumeral
  rw [Scalar.literal_shift]
  cases Scalar.literal text offset with
  | error fault => rfl
  | ok l =>
      simp only [ReadFault.shifted, Except.mapError, bind, Except.bind]
      cases form.parse text <;> rfl

theorem Escape.resolveOnto_shift (n : Nat) (acc : Bytes) (offset : Nat) (bs : Bytes) :
    resolveOnto acc (n + offset) bs =
      (resolveOnto acc offset bs).mapError (Prod.map (n + ·) id) := by
  fun_induction resolveOnto acc offset bs with
  | case1 acc offset => rw [resolveOnto]; rfl
  | case2 acc offset b rest hb meaning left hread hlt ih =>
      rw [resolveOnto, if_pos hb]
      split
      · next hagain =>
          rw [hread] at hagain
          cases hagain
          rw [Nat.add_assoc]
          exact ih
      · next hagain => rw [hread] at hagain; cases hagain
  | case3 acc offset b rest hb hread =>
      rw [resolveOnto, if_pos hb]
      split
      · next hagain => rw [hread] at hagain; cases hagain
      · rfl
  | case4 acc offset b rest hb ih =>
      rw [resolveOnto, if_neg hb]
      exact ih

theorem Escape.shifts_unescape : Shifts unescape := by
  intro n raw offset
  unfold unescape
  rw [resolveOnto_shift]
  cases resolveOnto [] offset raw with
  | error place => rfl
  | ok bs =>
      simp only [Except.mapError]
      cases Utf8.toString? bs <;> rfl

/-! Tokens of a document inside a longer one. -/

/-- A longer document holds the document `s` behind the bytes `front`. -/
def Source.Within (front back : Bytes) (s whole : Source) : Prop :=
  whole.toBytes = front ++ (s.toBytes ++ back)

/-- The text of a token lies in a document. -/
def Token.Fits (s : Source) (t : Token) : Prop :=
  t.start + t.length ≤ s.toBytes.length

theorem Grammar.Stands.fits {s : Source} {t : Token} (h : Stands s.toBytes t) : t.Fits s := by
  have hspan := h.start_le_stop
  have hstop := h.stop_le_length
  unfold Token.Fits Token.length
  omega

section Tokens

variable {front back : Bytes} {s whole : Source}

theorem Source.getBytes_within (hs : s.Within front back whole) {start count : Nat}
    (hfits : start + count ≤ s.toBytes.length) :
    whole.getBytes (front.length + start) count = s.getBytes start count := by
  have hle : front.length + start + count ≤ whole.toBytes.length := by
    rw [hs, List.length_append, List.length_append]
    omega
  have hstart : start ≤ s.toBytes.length := (Nat.le_add_right _ _).trans hfits
  have hcount : count ≤ (s.toBytes.drop start).length := by
    rw [List.length_drop]
    omega
  rw [getBytes_eq, getBytes_eq, if_pos hle, if_pos hfits, hs, List.drop_length_add_append,
    List.drop_append_of_le_length hstart, List.take_append_of_le_length hcount]

theorem Source.startOf_within (hs : s.Within front back whole) {t : Token} (ht : t.Fits s) :
    whole.startOf (t.shift front.length) = s.startOf t := by
  have hfits : t.start + min t.length (excerptLimit + longestTail) ≤ s.toBytes.length :=
    (Nat.add_le_add_left (Nat.min_le_left _ _) _).trans ht
  unfold startOf
  rw [Token.shift_start, Token.shift_length, getBytes_within hs hfits]

theorem Source.mismatch_within (hs : s.Within front back whole) {t : Token} (ht : t.Fits s)
    (what : String) :
    whole.mismatch what (t.shift front.length) = (s.mismatch what t).shift front.length := by
  unfold mismatch
  rw [startOf_within hs ht]
  rfl

/-- A reader of tokens does the same in a longer document. -/
def Scalar.Moves {α : Type} (read : Source → Token → Except Fault α) : Prop :=
  ∀ ⦃front back : Bytes⦄ ⦃s whole : Source⦄, s.Within front back whole →
    ∀ ⦃t : Token⦄, t.Fits s →
      read whole (t.shift front.length) = Fault.shifted front.length (read s t)

theorem Scalar.expectKind_within (kind : Kind) (hs : s.Within front back whole) {t : Token}
    (ht : t.Fits s) :
    expectKind whole kind (t.shift front.length) =
      Fault.shifted front.length (expectKind s kind t) := by
  simp only [expectKind, Token.shift_kind, Source.mismatch_within hs ht]
  by_cases hkind : t.kind = kind
  · rw [if_pos hkind, if_pos hkind]
    rfl
  · rw [if_neg hkind, if_neg hkind]
    rfl

theorem Scalar.moves_withText {α : Type} (kind : Kind)
    {parse : Bytes → Nat → Except ReadFault α} (hparse : Shifts parse) :
    Moves fun s t => withText s kind t parse := by
  intro front back s whole hs t ht
  have htext : whole.textOf (t.shift front.length) = s.textOf t := by
    unfold Source.textOf
    rw [Token.shift_start, Token.shift_length, Source.getBytes_within hs ht]
  simp only [withText, htext, Token.shift_start, hparse front.length, expectKind_within kind hs ht]
  cases expectKind s kind t with
  | error fault => rfl
  | ok u =>
      simp only [Fault.shifted, Except.mapError]
      cases s.textOf t with
      | error fault => rfl
      | ok text =>
          simp only
          cases parse text t.start <;> rfl

theorem Scalar.moves_bool : Moves Scalar.bool := by
  intro front back s whole hs t ht
  unfold Scalar.bool
  rw [Source.mismatch_within hs ht, Token.shift_kind]
  cases t.kind <;> rfl

theorem Scalar.moves_null : Moves Scalar.null := by
  intro front back s whole hs t ht
  unfold Scalar.null
  rw [Source.mismatch_within hs ht, Token.shift_kind]
  cases t.kind <;> rfl

theorem Scalar.moves_children (kind : Kind) : Moves (Scalar.children kind) := by
  intro front back s whole hs t ht
  unfold Scalar.children
  rw [expectKind_within kind hs ht]
  cases expectKind s kind t <;> rfl

theorem Scalar.moves_string : Moves Scalar.string :=
  moves_withText .string Escape.shifts_unescape

theorem Scalar.moves_float (f : Format) : Moves (Scalar.float f) :=
  moves_withText .number (shifts_parseFloat f)

theorem Scalar.moves_integer (type : IntType) : Moves (Scalar.integer type) :=
  moves_withText .number (shifts_parseInteger type)

theorem Value.moves_ofToken : Scalar.Moves Value.ofToken := by
  intro front back s whole hs t ht
  unfold Value.ofToken
  rw [Scalar.moves_string hs ht, Scalar.moves_float .binary64 hs ht, Token.shift_kind,
    Token.shift_count]
  cases t.kind with
  | string => cases Scalar.string s t <;> rfl
  | number => cases Scalar.float .binary64 s t <;> rfl
  | _ => rfl

theorem Value.take_within (hs : s.Within front back whole) {t : Token} (ht : t.Fits s)
    (frames : List Frame) :
    take whole (t.shift front.length) frames = Fault.shifted front.length (take s t frames) := by
  unfold take
  rw [Scalar.moves_string hs ht, Value.moves_ofToken hs ht]
  split
  · cases Scalar.string s t <;> rfl
  · cases Value.ofToken s t with
    | error fault => rfl
    | ok step => cases step <;> rfl

end Tokens

/-! Cursors in a document inside a longer one. -/

/-- The document of the cursor `d` holds that of `c` behind the bytes `front`, and in
front of `d` stand the tokens in front of `c`, as far on, with the tokens `more` behind
them. -/
structure Cursor.Within (front back : Bytes) (more : List Token) (c d : Cursor) : Prop where
  source : c.source.Within front back d.source
  rest : d.rest = c.rest.map (Token.shift front.length) ++ more
  fits : ∀ t ∈ c.rest, t.Fits c.source

namespace Decoder

variable {α β : Type} {front back : Bytes} {more : List Token}

/-- A success is the same success, and the cursors have moved along together; the fault
of a text is the same fault further on. -/
def Accords (front back : Bytes) (more : List Token) :
    EStateM.Result Fault Cursor α → EStateM.Result Fault Cursor α → Prop
  | .ok x c, outcome => ∃ d, outcome = .ok x d ∧ c.Within front back more d
  | .error (.read fault) _, outcome =>
    ∃ d, outcome = .error (.read (fault.shift front.length)) d
  | .error _ _, _ => True

/-- Where one document stands inside a longer one, the decoder does the same in both. -/
def Follows (read : Decoder α) : Prop :=
  ∀ ⦃front back : Bytes⦄ ⦃more : List Token⦄ ⦃c d : Cursor⦄, c.Within front back more d →
    Accords front back more (read c) (read d)

theorem Accords.bind {read again : Decoder α} {next nextAgain : α → Decoder β} {c d : Cursor}
    (h : Accords front back more (read c) (again d))
    (hnext : ∀ x ⦃c d : Cursor⦄, c.Within front back more d →
      Accords front back more (next x c) (nextAgain x d)) :
    Accords front back more ((read >>= next) c) ((again >>= nextAgain) d) := by
  cases hread : read c with
  | ok x e =>
      rw [hread] at h
      obtain ⟨f, hagain, hwithin⟩ := h
      rw [bind_of_ok _ hread, bind_of_ok _ hagain]
      exact hnext x hwithin
  | error fault e =>
      rw [hread] at h
      rw [bind_of_error _ hread]
      cases fault with
      | read fault =>
          obtain ⟨f, hagain⟩ := h
          exact ⟨f, bind_of_error _ hagain⟩
      | write fault => trivial
      | bounds fault => trivial

theorem follows_pure (x : α) : Follows (pure x : Decoder α) :=
  fun _ _ _ _ _ h => ⟨_, rfl, h⟩

theorem Follows.bind {read : Decoder α} {next : α → Decoder β} (h : Follows read)
    (hnext : ∀ x, Follows (next x)) : Follows (read >>= next) :=
  fun _ _ _ _ _ hwithin => (h hwithin).bind fun x _ _ hmore => hnext x hmore

theorem accords_error (fault : Fault) (c d : Cursor) :
    Accords front back more (.error fault c : EStateM.Result Fault Cursor α)
      (.error (fault.shift front.length) d) := by
  cases fault with
  | read fault => exact ⟨d, rfl⟩
  | write fault => trivial
  | bounds fault => trivial

theorem follows_scalar {read : Source → Token → Except Fault α} (h : Scalar.Moves read) :
    Follows (scalar read) := by
  intro front back more c d hwithin
  obtain ⟨source, position, ts⟩ := c
  obtain ⟨whole, place, us⟩ := d
  obtain ⟨hsource, rfl, hfits⟩ := hwithin
  cases ts with
  | nil => trivial
  | cons t ts =>
      have hmore : ∀ u ∈ ts, u.Fits source := fun u hu => hfits u (List.mem_cons_of_mem t hu)
      simp only [List.map_cons, List.cons_append]
      rw [scalar_cons, scalar_cons, h hsource (hfits t List.mem_cons_self)]
      cases read source t with
      | ok x => exact ⟨_, rfl, hsource, rfl, hmore⟩
      | error fault => exact accords_error fault _ _

/-- A look at the next token sees the same token, further on. -/
theorem accords_peek {next nextAgain : Token → Decoder α} {c d : Cursor}
    (hwithin : c.Within front back more d)
    (hnext : ∀ t, Accords front back more (next t c) (nextAgain (t.shift front.length) d)) :
    Accords front back more ((peek >>= next) c) ((peek >>= nextAgain) d) := by
  obtain ⟨source, position, ts⟩ := c
  obtain ⟨whole, place, us⟩ := d
  obtain ⟨hsource, hrest, hfits⟩ := hwithin
  cases ts with
  | nil => trivial
  | cons t ts =>
      simp only [List.map_cons, List.cons_append] at hrest
      subst hrest
      exact hnext t

theorem follows_isNull : Follows isNull :=
  fun _ _ _ _ _ hwithin => accords_peek hwithin fun _ => follows_pure _ hwithin

theorem follows_repeatOnto {read : Decoder α} (h : Follows read) (acc : List α) (n : Nat) :
    Follows (repeatOnto read acc n) := by
  induction n generalizing acc with
  | zero => exact follows_pure _
  | succ n ih => exact h.bind fun x => ih (x :: acc)

/-- Where no tokens stand behind those of the document, the end is the end. -/
theorem accords_expectEnd {c d : Cursor} (hwithin : c.Within front back [] d) :
    Accords front back [] (expectEnd c) (expectEnd d) := by
  obtain ⟨source, position, ts⟩ := c
  obtain ⟨whole, place, us⟩ := d
  obtain ⟨hsource, hrest, hfits⟩ := hwithin
  rw [List.append_nil] at hrest
  simp only at hsource hrest hfits
  subst hrest
  cases ts with
  | nil => exact ⟨_, rfl, hsource, rfl, hfits⟩
  | cons t ts =>
      have hstart := Source.startOf_within hsource (hfits t List.mem_cons_self)
      refine ⟨⟨whole, place, (t :: ts).map (Token.shift front.length)⟩, ?_⟩
      simp only [expectEnd, get_bind, List.map_cons, Source.tokenText, hstart]
      rfl

end Decoder

open Decoder

/-- The walk along a tape on behalf of the containers that are not complete. -/
def Value.walk (frames : List Frame) : Decoder Value := do
  let c ← get
  let (result, position, rest) := readFrom c.source frames c.position c.rest
  set { c with position := position, rest := rest }
  match result with
  | .ok v => return v
  | .error fault => throw fault

theorem Value.walk_cons (frames : List Frame) (source : Source) (position : Nat) (t : Token)
    (ts : List Token) :
    walk frames ⟨source, position, t :: ts⟩ =
      match take source t frames with
      | .error fault => .error fault ⟨source, position + 1, ts⟩
      | .ok (.inl v) => .ok v ⟨source, position + 1, ts⟩
      | .ok (.inr frames) => walk frames ⟨source, position + 1, ts⟩ := by
  unfold walk
  rw [get_bind, readFrom]
  cases take source t frames with
  | error fault => rfl
  | ok step => cases step <;> rfl

theorem Value.follows_walk (frames : List Frame) : Follows (walk frames) := by
  intro front back more c d hwithin
  obtain ⟨source, position, ts⟩ := c
  obtain ⟨whole, place, us⟩ := d
  obtain ⟨hsource, rfl, hfits⟩ := hwithin
  induction ts generalizing frames position place with
  | nil => trivial
  | cons t ts ih =>
      have hmore : ∀ u ∈ ts, u.Fits source := fun u hu => hfits u (List.mem_cons_of_mem t hu)
      simp only [List.map_cons, List.cons_append]
      rw [walk_cons, walk_cons, take_within hsource (hfits t List.mem_cons_self)]
      cases take source t frames with
      | error fault => exact accords_error fault _ _
      | ok step =>
          cases step with
          | inl v => exact ⟨_, rfl, hsource, rfl, hmore⟩
          | inr frames => exact ih frames (position + 1) (place + 1) hmore hsource

theorem Value.follows_decode : Follows Value.decode := follows_walk []

theorem TextForm.follows_quoted {α : Type} (form : TextForm α) : Follows form.quoted.decode := by
  intro front back more c d hwithin
  refine accords_peek hwithin fun t => ?_
  have hstring : Follows Decoder.string := follows_scalar Scalar.moves_string
  refine (hstring hwithin).bind fun s c d h => ?_
  cases form.parse (Utf8.ofString s) with
  | some x =>
      simp only
      exact follows_pure x h
  | none =>
      simp only
      exact ⟨_, rfl⟩

theorem Codec.follows_option {α : Type} {c : Codec α} (h : Follows c.decode) :
    Follows c.option.decode := by
  refine follows_isNull.bind fun isNull => ?_
  cases isNull with
  | true => exact (follows_scalar Scalar.moves_null).bind fun _ => follows_pure none
  | false => exact h.bind fun x => follows_pure (some x)

theorem Decoder.inherited_follows : Inherited fun _ read => Follows read where
  bool := follows_scalar Scalar.moves_bool
  null := follows_scalar Scalar.moves_null
  integer t := follows_scalar (Scalar.moves_integer t)
  float f := follows_scalar (Scalar.moves_float f)
  string := follows_scalar Scalar.moves_string
  value := Value.follows_decode
  numeral form := follows_scalar (Scalar.moves_withText .number form.shifts_parseNumeral)
  quoted form := form.follows_quoted
  map f h := h.bind fun x => follows_pure (f x)
  option h := Codec.follows_option h
  list h := (follows_scalar (Scalar.moves_children .array)).bind fun count =>
    follows_repeatOnto h [] count

/-- The codec of a shape does the same wherever the document stands. -/
theorem Shape.follows_decode (s : Shape) : Follows s.codec.decode :=
  inherited_follows.decode s

/-- So a tape is read as the same value, or with the same fault, where the document is
all that the longer one holds behind the bytes in front of it. -/
theorem Codec.ofTape_within {α : Type} {c : Codec α} (h : Follows c.decode) {front back : Bytes}
    {source whole : Source} (hsource : source.Within front back whole) {tape : Tape}
    (hfits : ∀ t ∈ tape.tokens, t.Fits source) :
    (∀ x, c.ofTape tape source = .ok x → c.ofTape (tape.shift front.length) whole = .ok x) ∧
      ∀ fault, c.ofTape tape source = .error (.read fault) →
        c.ofTape (tape.shift front.length) whole = .error (.read (fault.shift front.length)) := by
  have hwithin : Cursor.Within front back [] (tape.cursor source)
      ((tape.shift front.length).cursor whole) := ⟨hsource, (List.append_nil _).symm, hfits⟩
  have haccords := (h hwithin).bind fun x _ _ hmore =>
    (accords_expectEnd hmore).bind fun _ _ _ hend => follows_pure x hend
  unfold Codec.ofTape
  simp only [EStateM.run]
  cases hread : (c.decode >>= fun x => expectEnd >>= fun _ => pure x) (tape.cursor source) with
  | ok x e =>
      rw [hread] at haccords
      obtain ⟨d, hagain, -⟩ := haccords
      rw [hagain]
      refine ⟨fun y hy => hy, fun fault hfault => ?_⟩
      cases hfault
  | error fault e =>
      rw [hread] at haccords
      refine ⟨fun y hy => ?_, fun g hg => ?_⟩
      · cases hy
      · cases hg
        obtain ⟨d, hagain⟩ := haccords
        rw [hagain]

/-! A tree inside a document. -/

open Grammar

/-- The listing of a tree that begins further on is the same listing, shifted: the
pass reads both off the same text. -/
theorem Grammar.Tree.tokens_shift (t : Tree) (n : Nat) :
    t.tokens n = (t.tokens 0).map (Token.shift n) := by
  have hdocument (offset : Nat) : Scan.document t.height offset t.text = .ok ⟨t.tokens offset⟩ :=
    Scan.document_eq_ok_iff.mpr
      ⟨⟨Value.noBlanks, t, Value.noBlanks⟩, List.append_nil _, Nat.le_refl _, rfl⟩
  have hshift := Scan.document_shift n t.height 0 t.text
  rw [hdocument, hdocument] at hshift
  exact congrArg Tape.tokens (Except.ok.inj hshift)

/-- The listing of a tree is refused with a fault wherever in a document the tree lies, as far
on as the tree. -/
def Decoder.Fails {α : Type} (read : Decoder α) (t : Tree) (fault : ReadFault) : Prop :=
  ∀ ⦃source : Source⦄ ⦃start : Nat⦄, Lies source.toBytes start t.text →
    ∀ (position : Nat) (rest : List Token), ∃ d,
      read ⟨source, position, t.tokens start ++ rest⟩ = .error (.read (fault.shift start)) d

/-- So is the text of the tree alone. -/
theorem Decoder.Fails.ofSource {α : Type} {c : Codec α} {t : Tree} {fault : ReadFault}
    (h : Fails c.decode t fault) {limits : Limits} (hheight : t.height ≤ limits.maxDepth) :
    c.ofSource limits (.ofBytes t.text) = .error (.read fault) := by
  obtain ⟨d, hread⟩ := h (Lies.self t.text) 0 []
  rw [List.append_nil, ReadFault.shift, Nat.zero_add] at hread
  rw [Codec.ofSource, t.ofSource_text hheight]
  exact Codec.ofTape_of_error hread

/-- In front of a tree the codec of a shape does what it does in front of the text of the tree
alone. -/
theorem Shape.reads_or_fails (s : Shape) (t : Tree) :
    (∃ x, Reads s.codec.decode t x) ∨ ∃ fault, Fails s.codec.decode t fault := by
  have htape := t.ofSource_text (Nat.le_refl (⟨t.height⟩ : Limits).maxDepth)
  have hsubtree := (Tape.subtree_of_read htape).1
  have hstands : ∀ u ∈ t.tokens 0, Stands (Source.ofBytes t.text).toBytes u :=
    Tape.stands_of_read htape
  have hfits : ∀ u ∈ t.tokens 0, u.Fits (.ofBytes t.text) := fun u hu => (hstands u hu).fits
  have hwithin {source : Source} {front back : Bytes}
      (hsource : source.toBytes = front ++ (t.text ++ back)) (position : Nat) (rest : List Token) :
      Cursor.Within front back rest (Tape.cursor ⟨t.tokens 0⟩ (.ofBytes t.text))
        ⟨source, position, t.tokens front.length ++ rest⟩ :=
    ⟨hsource, congrArg (· ++ rest) (t.tokens_shift front.length), hfits⟩
  rcases s.decode_cases hsubtree hstands with ⟨x, hdecode, -⟩ | ⟨fault, d, hdecode, -⟩
  · refine .inl ⟨x, fun source start hlies position rest => ?_⟩
    obtain ⟨front, back, hsource, rfl⟩ := hlies
    have haccords := s.follows_decode (hwithin hsource position rest)
    rw [hdecode] at haccords
    obtain ⟨d, hread, -⟩ := haccords
    have hends := s.takesOne_decode ⟨source, position, t.tokens front.length ++ rest⟩ rest
      (t.subtree_tokens front.length rest)
    rw [hread, Cursor.past_append] at hends
    exact hread.trans (congrArg _ hends)
  · refine .inr ⟨fault, fun source start hlies position rest => ?_⟩
    obtain ⟨front, back, hsource, rfl⟩ := hlies
    have haccords := s.follows_decode (hwithin hsource position rest)
    rw [hdecode] at haccords
    exact haccords

end FlatJson
