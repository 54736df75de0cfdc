import FlatJson.Fault
import FlatJson.Number.Literal
import FlatJson.Tape

/-!
# From bytes to tokens

One forward pass over a document delimits its tokens. The pass is a small
machine: `State` says what has to come next, and the containers that are still
open are a list of frames, so that deep nesting costs a longer list and nothing
else. A frame keeps the tokens met inside its container; when the container
closes, its own token, by then complete, is put before them.

Strings and numbers are only delimited here. What an escape or a numeral means
is asked when it is read.

Each step takes at least one byte (`length_step_lt`), so that the pass ends.
-/

namespace FlatJson

namespace Scan

open Ascii

/-- A place in a document: its offset, and what is left from there. -/
structure Place where
  offset : Nat
  rest : Bytes
  deriving Repr

/-- The offset of the end of the document. -/
def Place.limit (p : Place) : Nat :=
  p.offset + p.rest.length

/-- Why and where a document ceases to be one, and how far it had been read. -/
structure Stop where
  cause : ReadCause
  offset : Nat
  resting : Nat
  deriving DecidableEq, Repr

/-- A container whose closing delimiter has not come yet. `inside` holds the
tokens of the `count` children met so far. -/
structure Frame where
  isObject : Bool
  start : Nat
  count : Nat
  inside : Array Token
  deriving Repr

namespace Frame

/-- The kind of the container. -/
def kind (f : Frame) : Kind :=
  if f.isObject then .object else .array

/-- The delimiter that closes the container. -/
def closer (f : Frame) : UInt8 :=
  if f.isObject then closeBrace else closeBracket

/-- The tokens of the container, once it is closed before the offset `stop`. -/
def close (f : Frame) (stop : Nat) : Array Token :=
  #[⟨f.kind, f.start, stop, f.count⟩] ++ f.inside

end Frame

/-- What has to come next. -/
inductive State
  /-- A value, inside the containers of a list, the innermost first. -/
  | value (outer : List Frame)
  /-- The name of a member of the object `frame`. -/
  | name (frame : Frame) (outer : List Frame)
  /-- A comma, or the delimiter that closes `frame`. -/
  | separator (frame : Frame) (outer : List Frame)
  /-- Nothing but blanks. -/
  | done (tokens : Array Token)
  deriving Repr

/-- A value has been read in full: it counts as a child of the innermost open
container, or it is the document. -/
def deliver (tokens : Array Token) : List Frame → State
  | [] => .done tokens
  | f :: outer =>
    .separator { f with count := f.count + 1, inside := f.inside ++ tokens } outer

/-- The first place from here on that holds no blank. -/
def skipBlanks (offset : Nat) : Bytes → Place
  | [] => ⟨offset, []⟩
  | b :: rest => if isBlank b then skipBlanks (offset + 1) rest else ⟨offset, b :: rest⟩

/-- The fault of a document that ends too early. -/
def endOfInput (limit resting : Nat) : Stop :=
  ⟨.endOfInput, limit, resting⟩

/-- Reads on to just past the quote that closes a string. Only that quote
matters here, so a backslash takes whatever byte follows it along. -/
def closeString (opening offset : Nat) : Bytes → Except Stop Place
  | [] => .error ⟨.unterminatedString, opening, offset⟩
  | b :: rest =>
    if b == quote then .ok ⟨offset + 1, rest⟩
    else if b == backslash then
      match rest with
      | [] => .error ⟨.unterminatedString, opening, offset + 1⟩
      | _ :: rest => closeString opening (offset + 2) rest
    else if isControl b then .error ⟨.controlCharacter, offset, offset + 1⟩
    else closeString opening (offset + 1) rest

/-- Reads a string from its opening quote, whose offset is given along with what
follows the quote. -/
def string (opening : Nat) (rest : Bytes) : Except Stop (Token × Place) :=
  match closeString opening (opening + 1) rest with
  | .ok after => .ok (.scalar .string (opening + 1) (after.offset - 1), after)
  | .error stop => .error stop

/-- Reads the rest of a word from `offset` on, the word having begun at
`start`. -/
def word (start offset : Nat) : Bytes → Bytes → Except Stop Place
  | [], rest => .ok ⟨offset, rest⟩
  | _ :: _, [] => .error (endOfInput offset offset)
  | w :: expected, b :: rest =>
    if b == w then word start (offset + 1) expected rest
    else .error ⟨.invalidLiteral, start, offset + 1⟩

/-- Reads one of the three words. -/
def literal (kind : Kind) (expected : Bytes) (p : Place) : Except Stop (Token × Place) :=
  match word p.offset p.offset expected p.rest with
  | .ok after => .ok (.scalar kind p.offset after.offset, after)
  | .error stop => .error stop

/-- Reads a number. A digit that is missing at the end of the document is a
digit that could still have come. -/
def number (p : Place) : Except Stop (Token × Place) :=
  match Literal.scan p.rest with
  | .error [] => .error (endOfInput p.limit p.offset)
  | .error (_ :: _) => .error ⟨.invalidNumber, p.offset, p.offset⟩
  | .ok (l, rest) =>
    if Literal.looksHexadecimal p.rest then .error ⟨.hexadecimal, p.offset, p.offset⟩
    else
      let stop := p.offset + l.text.length
      .ok (.scalar .number p.offset stop, ⟨stop, rest⟩)

/-- The letters of the three words. -/
def yesWord : Bytes := [0x74, 0x72, 0x75, 0x65]
def noWord : Bytes := [0x66, 0x61, 0x6C, 0x73, 0x65]
def nullWord : Bytes := [0x6E, 0x75, 0x6C, 0x6C]

/-- Reads a value that is no container. -/
def scalar (b : UInt8) (p : Place) : Except Stop (Token × Place) :=
  if b == quote then string p.offset p.rest.tail
  else if b == 0x74 then literal .yes yesWord p
  else if b == 0x66 then literal .no noWord p
  else if b == 0x6E then literal .null nullWord p
  else if b == minus || isDigit b then number p
  else .error ⟨.unexpectedCharacter, p.offset, p.offset⟩

/-- Reads on behind an opening delimiter: an empty container is complete at
once, and any other one becomes the innermost open container. -/
def enter (frame : Frame) (outer : List Frame) (p : Place) : State × Place :=
  match p.rest with
  | [] => (if frame.isObject then .name frame outer else .value (frame :: outer), p)
  | b :: rest =>
    if b == frame.closer then (deliver (frame.close (p.offset + 1)) outer, ⟨p.offset + 1, rest⟩)
    else (if frame.isObject then .name frame outer else .value (frame :: outer), p)

/-- Reads the start of a value: all of a scalar, or the opening delimiter of a
container, which may not lie inside `maxDepth` others. -/
def readValue (maxDepth : Nat) (outer : List Frame) (p : Place) : Except Stop (State × Place) :=
  match p.rest with
  | [] => .error (endOfInput p.offset p.offset)
  | b :: rest =>
    if b == openBrace || b == openBracket then
      if maxDepth ≤ outer.length then .error ⟨.nestingTooDeep, p.offset, p.offset⟩
      else .ok (enter ⟨b == openBrace, p.offset, 0, #[]⟩ outer (skipBlanks (p.offset + 1) rest))
    else
      match scalar b p with
      | .ok (token, after) => .ok (deliver #[token] outer, after)
      | .error stop => .error stop

/-- Reads the name of a member and the colon behind it. -/
def readName (frame : Frame) (outer : List Frame) (p : Place) : Except Stop (State × Place) :=
  match p.rest with
  | [] => .error (endOfInput p.offset p.offset)
  | b :: rest =>
    if b == quote then
      match string p.offset rest with
      | .error stop => .error stop
      | .ok (token, after) =>
        let colonPlace := skipBlanks after.offset after.rest
        match colonPlace.rest with
        | [] => .error (endOfInput colonPlace.offset colonPlace.offset)
        | c :: rest =>
          if c == colon then
            .ok (.value ({ frame with inside := frame.inside.push token } :: outer),
              ⟨colonPlace.offset + 1, rest⟩)
          else .error ⟨.expectedColon, colonPlace.offset, colonPlace.offset + 1⟩
    else .error ⟨.expectedKey, p.offset, p.offset⟩

/-- Reads what separates two children, or what closes their container. A comma
right before the closing delimiter is refused. -/
def readSeparator (frame : Frame) (outer : List Frame) (p : Place) :
    Except Stop (State × Place) :=
  match p.rest with
  | [] => .error (endOfInput p.offset p.offset)
  | b :: rest =>
    if b == comma then
      let next := skipBlanks (p.offset + 1) rest
      if next.rest.head? == some frame.closer then
        .error ⟨.trailingComma, p.offset, next.offset⟩
      else .ok (if frame.isObject then .name frame outer else .value (frame :: outer), next)
    else if b == frame.closer then
      .ok (deliver (frame.close (p.offset + 1)) outer, ⟨p.offset + 1, rest⟩)
    else .error ⟨.expectedSeparator frame.kind, p.offset, p.offset + 1⟩

/-- Reads the end of a document. -/
def readEnd (tokens : Array Token) (p : Place) : Except Stop (Array Token) :=
  match p.rest with
  | [] => .ok tokens
  | _ :: _ => .error ⟨.trailingGarbage, p.offset, p.offset⟩

/-- What a step of the pass comes to. -/
inductive Outcome
  | go (state : State) (place : Place)
  | finished (result : Except Stop (Array Token))

/-- A step that goes on where it succeeds. -/
def Outcome.ofStep : Except Stop (State × Place) → Outcome
  | .ok (state, place) => .go state place
  | .error stop => .finished (.error stop)

/-- One step of the pass: blanks, and then what the state asks for. -/
def step (maxDepth : Nat) (state : State) (p : Place) : Outcome :=
  let p := skipBlanks p.offset p.rest
  match state with
  | .value outer => .ofStep (readValue maxDepth outer p)
  | .name frame outer => .ofStep (readName frame outer p)
  | .separator frame outer => .ofStep (readSeparator frame outer p)
  | .done tokens => .finished (readEnd tokens p)

theorem length_skipBlanks_le (offset : Nat) (bs : Bytes) :
    (skipBlanks offset bs).rest.length ≤ bs.length := by
  induction bs generalizing offset with
  | nil => exact Nat.le_refl _
  | cons b rest ih =>
    rw [skipBlanks]
    split
    · exact Nat.le_succ_of_le (ih _)
    · exact Nat.le_refl _

theorem length_closeString_lt {opening offset : Nat} {bs : Bytes} {after : Place}
    (h : closeString opening offset bs = .ok after) : after.rest.length < bs.length := by
  fun_induction closeString opening offset bs with
  | case1 => cases h
  | case2 offset b rest hb => cases h; exact Nat.lt_succ_self _
  | case3 => cases h
  | case4 offset b hq hb c rest ih =>
    have := ih h
    simp only [List.length_cons]
    omega
  | case5 => cases h
  | case6 offset b rest hq hb hc ih =>
    have := ih h
    simp only [List.length_cons]
    omega

theorem length_string_lt {opening : Nat} {bs : Bytes} {token : Token} {after : Place}
    (h : string opening bs = .ok (token, after)) : after.rest.length < bs.length := by
  unfold string at h
  split at h
  · next hs => cases h; exact length_closeString_lt hs
  · cases h

theorem length_word {start offset : Nat} {expected bs : Bytes} {after : Place}
    (h : word start offset expected bs = .ok after) :
    after.rest.length + expected.length = bs.length := by
  fun_induction word start offset expected bs with
  | case1 => cases h; simp
  | case2 => cases h
  | case3 offset w expected b rest hb ih =>
    have := ih h
    simp only [List.length_cons]
    omega
  | case4 => cases h

theorem length_literal_lt {kind : Kind} {expected : Bytes} {p : Place} {token : Token}
    {after : Place} (hne : expected ≠ []) (h : literal kind expected p = .ok (token, after)) :
    after.rest.length < p.rest.length := by
  unfold literal at h
  split at h
  · next hw =>
    cases h
    have hlen := length_word hw
    have hpos := List.length_pos_iff.2 hne
    omega
  · cases h

theorem length_number_lt {p : Place} {token : Token} {after : Place}
    (h : number p = .ok (token, after)) : after.rest.length < p.rest.length := by
  unfold number at h
  split at h
  · cases h
  · cases h
  · next hs =>
    split at h
    · cases h
    · cases h; exact Literal.length_scan_lt hs

theorem length_scalar_lt {b : UInt8} {p : Place} {token : Token} {after : Place}
    (h : scalar b p = .ok (token, after)) : after.rest.length < p.rest.length := by
  unfold scalar at h
  split at h
  · have hlt := length_string_lt h
    have hle : p.rest.tail.length ≤ p.rest.length := by
      rw [List.length_tail]; exact Nat.sub_le _ _
    omega
  · split at h
    · exact length_literal_lt (by decide) h
    · split at h
      · exact length_literal_lt (by decide) h
      · split at h
        · exact length_literal_lt (by decide) h
        · split at h
          · exact length_number_lt h
          · cases h

theorem length_enter_le (frame : Frame) (outer : List Frame) (p : Place) :
    (enter frame outer p).2.rest.length ≤ p.rest.length := by
  unfold enter
  split
  · exact Nat.le_refl _
  · next hp =>
    split
    · rw [hp]; exact Nat.le_succ _
    · exact Nat.le_refl _

theorem length_readValue_lt {maxDepth : Nat} {outer : List Frame} {p : Place}
    {next : State × Place} (h : readValue maxDepth outer p = .ok next) :
    next.2.rest.length < p.rest.length := by
  unfold readValue at h
  split at h
  · cases h
  · next b rest hp =>
    split at h
    · split at h
      · cases h
      · cases h
        have h1 := length_enter_le ⟨b == openBrace, p.offset, 0, #[]⟩ outer
          (skipBlanks (p.offset + 1) rest)
        have h2 := length_skipBlanks_le (p.offset + 1) rest
        rw [hp, List.length_cons]
        omega
    · split at h
      · next hs => cases h; exact length_scalar_lt hs
      · cases h

theorem length_readName_lt {frame : Frame} {outer : List Frame} {p : Place}
    {next : State × Place} (h : readName frame outer p = .ok next) :
    next.2.rest.length < p.rest.length := by
  unfold readName at h
  split at h
  · cases h
  · next b rest hp =>
    split at h
    · split at h
      · cases h
      · next token after hs =>
        simp only at h
        split at h
        · cases h
        · next c left hc =>
          split at h
          · cases h
            have h1 := length_string_lt hs
            have h2 := length_skipBlanks_le after.offset after.rest
            rw [hc, List.length_cons] at h2
            rw [hp, List.length_cons]
            show left.length < rest.length + 1
            omega
          · cases h
    · cases h

theorem length_readSeparator_lt {frame : Frame} {outer : List Frame} {p : Place}
    {next : State × Place} (h : readSeparator frame outer p = .ok next) :
    next.2.rest.length < p.rest.length := by
  unfold readSeparator at h
  split at h
  · cases h
  · next b rest hp =>
    split at h
    · simp only at h
      split at h
      · cases h
      · cases h
        have := length_skipBlanks_le (p.offset + 1) rest
        rw [hp, List.length_cons]
        show (skipBlanks (p.offset + 1) rest).rest.length < rest.length + 1
        omega
    · split at h
      · cases h
        rw [hp]
        exact Nat.lt_succ_self _
      · cases h

/-- Every step but the last takes at least one byte. -/
theorem length_step_lt {maxDepth : Nat} {state next : State} {p place : Place}
    (h : step maxDepth state p = .go next place) : place.rest.length < p.rest.length := by
  have hblanks := length_skipBlanks_le p.offset p.rest
  have key {r : Except Stop (State × Place)} (hr : Outcome.ofStep r = .go next place) :
      r = .ok (next, place) := by
    unfold Outcome.ofStep at hr
    split at hr
    · cases hr; rfl
    · cases hr
  unfold step at h
  cases state with
  | value outer => have := length_readValue_lt (key h); simp only at this; omega
  | name frame outer => have := length_readName_lt (key h); simp only at this; omega
  | separator frame outer => have := length_readSeparator_lt (key h); simp only at this; omega
  | done tokens => cases h

/-- The pass from a state on. -/
def run (maxDepth : Nat) (state : State) (p : Place) : Except Stop (Array Token) :=
  match h : step maxDepth state p with
  | .finished result => result
  | .go next place =>
    have := length_step_lt h
    run maxDepth next place
termination_by p.rest.length

/-- The tokens of the document that a text is, the text beginning at `offset`. -/
def document (maxDepth offset : Nat) (text : Bytes) : Except Stop Tape :=
  match run maxDepth (.value []) ⟨offset, text⟩ with
  | .ok tokens => .ok ⟨tokens.toList⟩
  | .error stop => .error stop

end Scan

end FlatJson
