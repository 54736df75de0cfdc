import FlatJson.Catalog.TextForm
import FlatJson.Proofs.Meaning
import FlatJson.Proofs.Tape.Read

/-!
# Decoding values

Decoding walks along the listing of a tree, with the containers that are not
complete on a stack. Over the listing of one tree the walk does one of two
things (`Decides`): the tree denotes a value, and the walk goes on as after that
value has been delivered, or it denotes none, and the walk fails. The same holds
of the children of a container, for the frame of that container.
-/

namespace FlatJson

open Grammar

namespace Source

/-- The text of a token is asked of the document in which it stands. -/
theorem textOf_of_lies {s : Source} {t : Token} {bs : Bytes} (h : Lies s.toBytes t.start bs)
    (hstop : t.stop = t.start + bs.length) : s.textOf t = .ok bs := by
  have hle := h.le_length
  obtain ⟨before, after, htext, hstart⟩ := h
  rw [textOf, getBytes_eq, Token.length, hstop, Nat.add_sub_cancel_left, if_pos hle, htext,
    ← hstart, List.drop_left, List.take_left]

end Source

/-- The text of a number literal is scanned in full. -/
theorem Literal.ofText?_numeral (n : Numeral) : ofText? n.literal.text = some n.literal := by
  have hscan := scan_append n.wellFormed (Scan.delimited_nil.stops n.literal)
  rw [List.append_nil] at hscan
  rw [ofText?, hscan]

namespace Scalar

/-- A number literal is read in full. -/
theorem literal_numeral (n : Numeral) (offset : Nat) :
    literal n.literal.text offset = .ok n.literal := by
  have hhex := Scan.looksHexadecimal_append n Scan.delimited_nil
  rw [List.append_nil] at hhex
  rw [literal, hhex, Literal.ofText?_numeral]
  rfl

theorem parseFloat_numeral (f : Format) (n : Numeral) (offset : Nat) :
    parseFloat f n.literal.text offset =
      if (n.literal.toBinary f).isFinite then .ok (n.literal.toBinary f)
      else .error (.of .numberOutOfRange n.literal.text offset) := by
  rw [parseFloat, literal_numeral]
  rfl

theorem parseInteger_numeral (type : IntType) (n : Numeral) (offset : Nat) :
    parseInteger type n.literal.text offset =
      if !n.literal.isInteger then .error (.of .expectedInteger n.literal.text offset)
      else
        match n.literal.member? type with
        | some m => .ok m
        | none => .error (.of .integerOutOfRange n.literal.text offset) := by
  rw [parseInteger, literal_numeral]
  rfl

theorem parseNumeral_numeral {α : Type} (form : TextForm α) (n : Numeral) (offset : Nat) :
    form.parseNumeral n.literal.text offset =
      match form.parse n.literal.text with
      | some x => .ok x
      | none => .error (.of form.refusal n.literal.text offset) := by
  rw [TextForm.parseNumeral, literal_numeral]
  rfl

theorem withText_eq {α : Type} {s : Source} {t : Token} {bs : Bytes}
    (htext : s.textOf t = .ok bs) (parse : Bytes → Nat → Except ReadFault α) :
    withText s t.kind t parse = (parse bs t.start).mapError .read := by
  unfold withText expectKind
  rw [if_pos rfl, htext]
  cases h : parse bs t.start <;> simp [h, Except.mapError]

/-- A number is read if it is rounded to a finite number. -/
theorem float_numeral {s : Source} {n : Numeral} {start : Nat}
    (h : Lies s.toBytes start n.literal.text) :
    ((n.literal.toBinary .binary64).isFinite = true ∧
        float .binary64 s ((Lexeme.number n).token start) =
          .ok (n.literal.toBinary .binary64)) ∨
      ((n.literal.toBinary .binary64).isFinite = false ∧
        ∃ fault, float .binary64 s ((Lexeme.number n).token start) = .error fault) := by
  have htext : s.textOf ((Lexeme.number n).token start) = .ok n.literal.text :=
    Source.textOf_of_lies h rfl
  have hparse := withText_eq htext (parseFloat .binary64)
  rw [float, show Kind.number = ((Lexeme.number n).token start).kind from rfl, hparse,
    parseFloat_numeral]
  cases (n.literal.toBinary .binary64).isFinite with
  | true => exact .inl ⟨rfl, rfl⟩
  | false => exact .inr ⟨rfl, _, rfl⟩

/-- A string is read if it spells a text. -/
theorem string_quoted {s : Source} {q : Quoted} {start : Nat} (h : Lies s.toBytes start q.text) :
    (∃ text : String, Escape.Spells q.raw text.toList ∧
        string s ((Lexeme.string q).token start) = .ok text) ∨
      ((∀ text : String, ¬Escape.Spells q.raw text.toList) ∧
        ∃ fault, string s ((Lexeme.string q).token start) = .error fault) := by
  have htext : s.textOf ((Lexeme.string q).token start) = .ok q.raw :=
    Source.textOf_of_lies h.tail.left rfl
  have hparse := withText_eq htext Escape.unescape
  rw [string, show Kind.string = ((Lexeme.string q).token start).kind from rfl, hparse]
  cases hread : Escape.unescape q.raw ((Lexeme.string q).token start).start with
  | ok text => exact .inl ⟨text, (Escape.unescape_eq_ok_iff q.inside).mp hread, rfl⟩
  | error fault =>
      refine .inr ⟨fun text hspells => ?_, .read fault, rfl⟩
      rw [(Escape.unescape_eq_ok_iff q.inside).mpr hspells] at hread
      cases hread

theorem string_of_spells {s : Source} {q : Quoted} {start : Nat}
    (h : Lies s.toBytes start q.text) {text : String} (hspells : Escape.Spells q.raw text.toList) :
    string s ((Lexeme.string q).token start) = .ok text := by
  rcases string_quoted h with ⟨other, hother, hread⟩ | ⟨hnone, -⟩
  · rwa [spells_unique hother hspells] at hread
  · exact absurd hspells (hnone text)

end Scalar

namespace Value

/-- The walk goes on after a value has been delivered: it is over, or there are
containers to complete. -/
def resume (s : Source) (position : Nat) (rest : List Token) :
    Value ⊕ List Frame → Except Fault Value × Nat × List Token
  | .inl v => (.ok v, position, rest)
  | .inr frames => readFrom s frames position rest

/-- Either something is denoted, and the outcome is that of going on with it, or
nothing is, and the outcome is a fault. -/
def Decides {α : Type} (denotes : α → Prop) (outcome : Except Fault Value × Nat × List Token)
    (resumed : α → Except Fault Value × Nat × List Token) : Prop :=
  (∃ x, denotes x ∧ outcome = resumed x) ∨
    (∀ x, ¬denotes x) ∧ ∃ fault, outcome.1 = .error fault

/-- What is denoted is made of a first part and of the rest. -/
theorem Decides.bind {α β : Type} {denotes : α → Prop} {whole : β → Prop}
    {outcome : Except Fault Value × Nat × List Token}
    {resumed : α → Except Fault Value × Nat × List Token}
    {finished : β → Except Fault Value × Nat × List Token} (h : Decides denotes outcome resumed)
    (hfirst : ∀ y, whole y → ∃ x, denotes x)
    (hrest : ∀ x, denotes x → Decides whole (resumed x) finished) :
    Decides whole outcome finished := by
  rcases h with ⟨x, hx, rfl⟩ | ⟨hnone, hfault⟩
  · exact hrest x hx
  · refine .inr ⟨fun y hy => ?_, hfault⟩
    obtain ⟨x, hx⟩ := hfirst y hy
    exact hnone x hx

/-- What is denoted is put together with what is there already. -/
theorem Decides.map {α β : Type} {denotes : α → Prop} {whole : β → Prop}
    {outcome : Except Fault Value × Nat × List Token}
    {resumed : α → Except Fault Value × Nat × List Token}
    {finished : β → Except Fault Value × Nat × List Token} (f : α → β)
    (h : Decides denotes outcome resumed) (hpart : ∀ y, whole y → ∃ x, denotes x)
    (hwhole : ∀ x, denotes x → whole (f x)) (hresumed : ∀ x, resumed x = finished (f x)) :
    Decides whole outcome finished := by
  rcases h with ⟨x, hx, rfl⟩ | ⟨hnone, hfault⟩
  · exact .inl ⟨f x, hwhole x hx, hresumed x⟩
  · refine .inr ⟨fun y hy => ?_, hfault⟩
    obtain ⟨x, hx⟩ := hpart y hy
    exact hnone x hx

/-- A value may come next: the innermost container is not waiting for the name of
a member. -/
def Ready : List Frame → Prop
  | .object _ none _ :: _ => False
  | _ => True

theorem ready_array (left : Nat) (done : List Value) (outer : List Frame) :
    Ready (.array left done :: outer) := trivial

theorem ready_object (left : Nat) (name : String) (done : List (String × Value))
    (outer : List Frame) : Ready (.object left (some name) done :: outer) := trivial

theorem take_ready {s : Source} {frames : List Frame} (hready : Ready frames) (t : Token) :
    take s t frames =
      match ofToken s t with
      | .ok (.complete v) => .ok (deliver v frames)
      | .ok (.pending frame) => .ok (.inr (frame :: frames))
      | .error fault => .error fault := by
  unfold take
  split
  · exact absurd hready id
  · rfl

theorem readFrom_cons {s : Source} {frames : List Frame} (hready : Ready frames) (t : Token)
    (position : Nat) (rest : List Token) :
    readFrom s frames position (t :: rest) =
      match ofToken s t with
      | .ok (.complete v) => resume s (position + 1) rest (deliver v frames)
      | .ok (.pending frame) => readFrom s (frame :: frames) (position + 1) rest
      | .error fault => (.error fault, position + 1, rest) := by
  rw [readFrom, take_ready hready]
  cases ofToken s t with
  | error fault => rfl
  | ok step =>
      cases step with
      | pending frame => rfl
      | complete v => cases hdeliver : deliver v frames <;> simp [resume, hdeliver]

theorem readFrom_name (s : Source) (left : Nat) (done : List (String × Value))
    (outer : List Frame) (t : Token) (position : Nat) (rest : List Token) :
    readFrom s (.object left none done :: outer) position (t :: rest) =
      match Scalar.string s t with
      | .ok name => readFrom s (.object left (some name) done :: outer) (position + 1) rest
      | .error fault => (.error fault, position + 1, rest) := by
  rw [readFrom, take]
  cases Scalar.string s t <;> rfl

/-- A lexeme is read as what it denotes. -/
theorem readFrom_lexeme {s : Source} {x : Lexeme} {start : Nat} (h : Lies s.toBytes start x.text)
    {frames : List Frame} (hready : Ready frames) (position : Nat) (rest : List Token) :
    Decides x.Denotes (readFrom s frames position (x.token start :: rest))
      fun v => resume s (position + 1) rest (deliver v frames) := by
  rw [readFrom_cons hready]
  cases x with
  | word w =>
      refine .inl ⟨w.value, .word w, ?_⟩
      cases w <;> rfl
  | number n =>
      have htoken : ofToken s ((Lexeme.number n).token start) =
          (Scalar.float .binary64 s ((Lexeme.number n).token start)).map fun x =>
            .complete (.number x) := rfl
      rw [htoken]
      rcases Scalar.float_numeral h with ⟨hfinite, hread⟩ | ⟨hfinite, fault, hread⟩
      · rw [hread]
        exact .inl ⟨_, .number hfinite, rfl⟩
      · rw [hread]
        refine .inr ⟨fun v hv => ?_, fault, rfl⟩
        cases hv with
        | number hn =>
            rw [hfinite] at hn
            cases hn
  | string q =>
      have htoken : ofToken s ((Lexeme.string q).token start) =
          (Scalar.string s ((Lexeme.string q).token start)).map fun text =>
            .complete (.string text) := rfl
      rw [htoken]
      rcases Scalar.string_quoted h with ⟨text, hspells, hread⟩ | ⟨hnone, fault, hread⟩
      · rw [hread]
        exact .inl ⟨_, .string hspells, rfl⟩
      · rw [hread]
        refine .inr ⟨fun v hv => ?_, fault, rfl⟩
        cases hv with
        | string hspells => exact hnone _ hspells

theorem deliver_array_last (v : Value) (done : List Value) (outer : List Frame) :
    deliver v (.array 1 done :: outer) = deliver (.array (done.reverse ++ [v])) outer := by
  rw [deliver, Frame.store, if_pos (Nat.le_refl 1), List.reverse_cons]

theorem deliver_array_more {n : Nat} (hn : 0 < n) (v : Value) (done : List Value)
    (outer : List Frame) :
    deliver v (.array (n + 1) done :: outer) = .inr (.array n (v :: done) :: outer) := by
  rw [deliver, Frame.store, if_neg (by omega)]
  rfl

theorem deliver_object_last (v : Value) (name : String) (done : List (String × Value))
    (outer : List Frame) :
    deliver v (.object 1 (some name) done :: outer) =
      deliver (.object (done.reverse ++ [(name, v)])) outer := by
  rw [deliver, Frame.store, if_pos (Nat.le_refl 1), List.reverse_cons]
  rfl

theorem deliver_object_more {n : Nat} (hn : 0 < n) (v : Value) (name : String)
    (done : List (String × Value)) (outer : List Frame) :
    deliver v (.object (n + 1) (some name) done :: outer) =
      .inr (.object n none ((name, v) :: done) :: outer) := by
  rw [deliver, Frame.store, if_neg (by omega)]
  rfl

/-- The name of a member is read as what it spells. -/
theorem readFrom_quoted {s : Source} {q : Quoted} {start : Nat} (h : Lies s.toBytes start q.text)
    (left : Nat) (done : List (String × Value)) (outer : List Frame) (position : Nat)
    (rest : List Token) :
    Decides (fun name : String => Escape.Spells q.raw name.toList)
      (readFrom s (.object left none done :: outer) position
        ((Lexeme.string q).token start :: rest))
      fun name => readFrom s (.object left (some name) done :: outer) (position + 1) rest := by
  rw [readFrom_name]
  rcases Scalar.string_quoted h with ⟨name, hspells, hread⟩ | ⟨hnone, fault, hread⟩
  · rw [hread]
    exact .inl ⟨name, hspells, rfl⟩
  · rw [hread]
    exact .inr ⟨hnone, fault, rfl⟩

end Value

namespace Grammar

theorem Children.size_pos {isObject : Bool} (children : Children isObject) :
    0 < children.size := by
  cases children with
  | last label before t after => exact Nat.one_pos
  | more label before t after others => exact Nat.succ_pos _

open Value

mutual

/-- A tree is read as what it denotes. -/
theorem Tree.decides {s : Source} : ∀ (t : Tree) {start : Nat}, Lies s.toBytes start t.text →
    ∀ {frames : List Frame}, Ready frames → ∀ (position : Nat) (rest : List Token),
    Decides t.Denotes (readFrom s frames position (t.tokens start ++ rest))
      fun v => resume s (position + (t.tokens start).length) rest (deliver v frames)
  | .scalar x, start, h, frames, hready, position, rest => by
      refine (readFrom_lexeme h hready position rest).map id ?_ ?_ fun _ => rfl
      · intro v hv
        cases hv with
        | scalar hv => exact ⟨v, hv⟩
      · intro v hv
        exact .scalar hv
  | .empty false inside, start, h, frames, hready, position, rest => by
      refine .inl ⟨_, .emptyArray inside, ?_⟩
      rw [Tree.tokens, List.singleton_append, readFrom_cons hready]
      rfl
  | .empty true inside, start, h, frames, hready, position, rest => by
      refine .inl ⟨_, .emptyObject inside, ?_⟩
      rw [Tree.tokens, List.singleton_append, readFrom_cons hready]
      rfl
  | .container false children, start, h, frames, hready, position, rest => by
      have hchildren := Children.decides_elements children h.tail.left frames (position + 1) rest []
      have hstep : readFrom s frames position
          ((Tree.container false children).tokens start ++ rest) =
            readFrom s (.array children.size [] :: frames) (position + 1)
              (children.tokens (start + 1) ++ rest) := by
        rw [Tree.tokens, List.cons_append, readFrom_cons hready]
        simp only [ofToken, containerKind, Bool.false_eq_true, if_false,
          if_neg children.size_pos.ne']
      rw [hstep]
      refine hchildren.map Value.array ?_ (fun vs => .array) fun vs => ?_
      · intro v hv
        cases hv with
        | array hvs => exact ⟨_, hvs⟩
      · rw [Tree.tokens, List.length_cons, List.reverse_nil, List.nil_append, Nat.add_assoc,
          Nat.add_comm 1]
  | .container true children, start, h, frames, hready, position, rest => by
      have hchildren := Children.decides_members children h.tail.left frames (position + 1) rest []
      have hstep : readFrom s frames position
          ((Tree.container true children).tokens start ++ rest) =
            readFrom s (.object children.size none [] :: frames) (position + 1)
              (children.tokens (start + 1) ++ rest) := by
        rw [Tree.tokens, List.cons_append, readFrom_cons hready]
        simp only [ofToken, containerKind, if_true, if_neg children.size_pos.ne']
      rw [hstep]
      refine hchildren.map Value.object ?_ (fun ms => .object) fun ms => ?_
      · intro v hv
        cases hv with
        | object hms => exact ⟨_, hms⟩
      · rw [Tree.tokens, List.length_cons, List.reverse_nil, List.nil_append, Nat.add_assoc,
          Nat.add_comm 1]

/-- The children of an array are read as the elements that they denote. -/
theorem Children.decides_elements {s : Source} : ∀ (children : Children false) {start : Nat},
    Lies s.toBytes start children.text → ∀ (outer : List Frame) (position : Nat)
    (rest : List Token) (done : List Value),
    Decides children.Elements
      (readFrom s (.array children.size done :: outer) position (children.tokens start ++ rest))
      fun vs => resume s (position + (children.tokens start).length) rest
        (deliver (.array (done.reverse ++ vs)) outer)
  | .last .element before t after, start, h, outer, position, rest, done => by
      obtain ⟨-, ht⟩ := Children.lies_last h
      refine (Tree.decides t ht (ready_array 1 done outer) position rest).map (fun v => [v]) ?_
        (fun v => .last) ?_
      · intro vs hvs
        cases hvs with
        | last hv => exact ⟨_, hv⟩
      · intro v
        rw [deliver_array_last]
        rfl
  | .more .element before t after others, start, h, outer, position, rest, done => by
      obtain ⟨-, ht, hothers⟩ := Children.lies_more h
      rw [Children.size, Children.tokens, List.append_assoc]
      refine (Tree.decides t ht (ready_array _ done outer) position _).bind ?_ fun v hv => ?_
      · intro vs hvs
        cases hvs with
        | more hv _ => exact ⟨_, hv⟩
      · rw [deliver_array_more others.size_pos, resume]
        refine (Children.decides_elements others hothers outer _ rest (v :: done)).map
          (fun vs => v :: vs) ?_ (fun vs => .more hv) fun vs => ?_
        · intro vs hvs
          cases hvs with
          | more _ hvs => exact ⟨_, hvs⟩
        · simp [Label.tokens, Nat.add_assoc]

/-- The children of an object are read as the members that they denote. -/
theorem Children.decides_members {s : Source} : ∀ (children : Children true) {start : Nat},
    Lies s.toBytes start children.text → ∀ (outer : List Frame) (position : Nat)
    (rest : List Token) (done : List (String × Value)),
    Decides children.Members
      (readFrom s (.object children.size none done :: outer) position
        (children.tokens start ++ rest))
      fun ms => resume s (position + (children.tokens start).length) rest
        (deliver (.object (done.reverse ++ ms)) outer)
  | .last (.name first q second) before t after, start, h, outer, position, rest, done => by
      obtain ⟨hlabel, ht⟩ := Children.lies_last h
      have hq : Lies s.toBytes (start + first.bytes.length) q.text := hlabel.left.left.right
      refine (readFrom_quoted hq 1 done outer position _).bind ?_ fun name hname => ?_
      · intro ms hms
        cases hms with
        | last hname _ => exact ⟨_, hname⟩
      · refine (Tree.decides t ht (ready_object 1 name done outer) (position + 1) rest).map
          (fun v => [(name, v)]) ?_ (fun v => .last hname) fun v => ?_
        · intro ms hms
          cases hms with
          | last _ hv => exact ⟨_, hv⟩
        · rw [deliver_object_last]
          simp [Children.tokens, Label.tokens, Nat.add_assoc, Nat.add_comm 1]
  | .more (.name first q second) before t after others, start, h, outer, position, rest,
      done => by
      obtain ⟨hlabel, ht, hothers⟩ := Children.lies_more h
      have hq : Lies s.toBytes (start + first.bytes.length) q.text := hlabel.left.left.right
      rw [Children.size, Children.tokens, Label.tokens, List.append_assoc,
        List.append_assoc, List.singleton_append]
      refine (readFrom_quoted hq (others.size + 1) done outer position _).bind ?_
        fun name hname => ?_
      · intro ms hms
        cases hms with
        | more hname _ _ => exact ⟨_, hname⟩
      · refine (Tree.decides t ht (ready_object _ name done outer) (position + 1) _).bind ?_
          fun v hv => ?_
        · intro ms hms
          cases hms with
          | more _ hv _ => exact ⟨_, hv⟩
        · rw [deliver_object_more others.size_pos, resume]
          refine (Children.decides_members others hothers outer _ rest ((name, v) :: done)).map
            (fun ms => (name, v) :: ms) ?_ (fun ms => .more hname hv) fun ms => ?_
          · intro ms hms
            cases hms with
            | more _ _ hms => exact ⟨_, hms⟩
          · simp [Nat.add_assoc, Nat.add_comm 1]

end

end Grammar

/-- What follows a look at the cursor is run with it. -/
theorem Decoder.get_bind {α : Type} (next : Cursor → Decoder α) (c : Cursor) :
    (get >>= next : Decoder α) c = next c c :=
  rfl

namespace Value

theorem decode_of_ok {c : Cursor} {v : Value} {position : Nat} {rest : List Token}
    (h : readFrom c.source [] c.position c.rest = (.ok v, position, rest)) :
    Value.decode c = .ok v ⟨c.source, position, rest⟩ := by
  unfold Value.decode
  rw [Decoder.get_bind, h]
  rfl

theorem decode_of_error {c : Cursor} {fault : Fault} {position : Nat} {rest : List Token}
    (h : readFrom c.source [] c.position c.rest = (.error fault, position, rest)) :
    Value.decode c = .error fault ⟨c.source, position, rest⟩ := by
  unfold Value.decode
  rw [Decoder.get_bind, h]
  rfl

end Value

/-- The walk along the listing of a document decides whether the document denotes a
value. -/
theorem Grammar.Document.decides (d : Document) {bs : Bytes} (hd : d.text = bs) :
    Value.Decides d.tree.Denotes (Value.readFrom (.ofBytes bs) [] 0 (d.tokens 0))
      fun v => (.ok v, (d.tokens 0).length, []) := by
  have hlies : Lies (Source.ofBytes bs).toBytes (0 + d.before.bytes.length) d.tree.text :=
    d.lies_tree hd
  have hready : Value.Ready [] := trivial
  have htree := Tree.decides d.tree hlies hready 0 []
  have hlength : 0 + (d.tree.tokens (0 + d.before.bytes.length)).length =
      (d.tokens 0).length := Nat.zero_add _
  rw [List.append_nil, hlength] at htree
  exact htree

namespace Codec

/-- A tape is one value if the walk along it succeeds and takes all of it. -/
theorem value_ofTape_eq_ok_iff {tape : Tape} {source : Source} {v : Value} :
    Codec.value.ofTape tape source = .ok v ↔
      ∃ position, Value.readFrom source [] 0 tape.tokens = (.ok v, position, []) := by
  rcases hread : Value.readFrom source [] 0 tape.tokens with ⟨result, position, rest⟩
  unfold ofTape
  cases result with
  | error fault =>
      have hdecode : Codec.value.decode (tape.cursor source) =
          .error fault ⟨source, position, rest⟩ := Value.decode_of_error hread
      simp [EStateM.run, bind, EStateM.bind, hdecode]
  | ok w =>
      have hdecode : Codec.value.decode (tape.cursor source) =
          .ok w ⟨source, position, rest⟩ := Value.decode_of_ok hread
      cases rest with
      | nil =>
          have hend : Decoder.expectEnd ⟨source, position, []⟩ =
              .ok () ⟨source, position, []⟩ := rfl
          simp [EStateM.run, bind, EStateM.bind, hdecode, hend, pure, EStateM.pure]
      | cons t rest =>
          have hend : Decoder.expectEnd ⟨source, position, t :: rest⟩ =
              .error (.read (.of .unconsumed (Utf8.ofString (source.tokenText t)) t.start))
                ⟨source, position, t :: rest⟩ := rfl
          simp [EStateM.run, bind, EStateM.bind, hdecode, hend]

/-- A document is read as the value that it denotes, if it is not too deep. -/
theorem value_ofSource_eq_ok_iff {limits : Limits} {bs : Bytes} {v : Value} :
    Codec.value.ofSource limits (.ofBytes bs) = .ok v ↔
      ∃ d : Document, d.text = bs ∧ d.tree.height ≤ limits.maxDepth ∧ d.tree.Denotes v := by
  have hread (tape : Tape) : Tape.ofSource limits (.ofBytes bs) = .ok tape ↔
      Scan.document limits.maxDepth 0 bs = .ok tape := Tape.read_fst_eq_ok_iff
  constructor
  · intro h
    unfold ofSource at h
    cases htape : Tape.ofSource limits (.ofBytes bs) with
    | error fault =>
        rw [htape] at h
        cases h
    | ok tape =>
        rw [htape] at h
        obtain ⟨d, hd, hheight, htokens⟩ := Scan.document_eq_ok_iff.mp ((hread tape).mp htape)
        obtain ⟨position, hposition⟩ := value_ofTape_eq_ok_iff.mp h
        rw [htokens] at hposition
        rcases d.decides hd with ⟨w, hw, hresult⟩ | ⟨-, fault, hfault⟩
        · rw [hresult] at hposition
          cases hposition
          exact ⟨d, hd, hheight, hw⟩
        · rw [hposition] at hfault
          cases hfault
  · intro h
    rcases h with ⟨d, hd, hheight, hv⟩
    have htape := (hread ⟨d.tokens 0⟩).mpr
      (Scan.document_eq_ok_iff.mpr ⟨d, hd, hheight, rfl⟩)
    rw [ofSource, htape]
    refine value_ofTape_eq_ok_iff.mpr ⟨(d.tokens 0).length, ?_⟩
    rcases d.decides hd with ⟨w, hw, hresult⟩ | ⟨hnone, -⟩
    · rw [hresult, hw.unique hv]
    · exact absurd hv (hnone v)

/-- A text is read as a value if and only if it is a document in which at most
256 containers lie inside each other and which denotes that value. -/
theorem value_ofBytes_denotes {bs : Bytes} {v : Value} :
    Codec.value.ofBytes bs = .ok v ↔
      ∃ d : Document, d.text = bs ∧ d.tree.height ≤ 256 ∧ d.tree.Denotes v :=
  value_ofSource_eq_ok_iff

end Codec

end FlatJson
