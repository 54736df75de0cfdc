import FlatJson.Proofs.Carries

/-!
# Values of any shape, seen as values of a shape

A document can be read as a value of some shape, or as a value of any shape that is
then taken for one of that shape (`Shape.project`). For the shapes that are made of
truth values, units, floating-point numbers, strings and values of any shape, the two
agree on every text (`Shape.ofBytes_eq_ok_iff`): the codec of the shape follows the
shape and looks ahead for null, the walk of a value follows the tokens, and both are
compared with what a derivation denotes (`Grammar.Tree.Projects`).
-/

namespace FlatJson

open Grammar Decoder

namespace Shape

/-- The shape is made of shapes that a value of any shape has parts for. -/
def dynamic : Shape → Bool
  | bool | unit | double | string | value => true
  | option s | list s | boxed s => s.dynamic
  | _ => false

end Shape

namespace Value

def asUnit? : Value → Option Unit
  | null => some ()
  | _ => none

/-- Null is none, and every other value is an optional value that is there. -/
def asOption? {α : Type} (project : Value → Option α) (v : Value) : Option (Option α) :=
  if v.isNull then some none else (project v).map some

/-- An array is a list, if all of its elements are what the list is to hold. -/
def asList? {α : Type} (project : Value → Option α) (v : Value) : Option (List α) :=
  v.asArray?.bind fun vs => vs.mapM project

end Value

/-- The value of a shape that a value of any shape is. -/
def Shape.project : (s : Shape) → Value → Option s.Carrier
  | bool => Value.asBool?
  | unit => Value.asUnit?
  | double => Value.asNumber?
  | string => Value.asString?
  | value => some
  | option s => Value.asOption? s.project
  | list s => Value.asList? s.project
  | boxed s => s.project
  | _ => fun _ => none

/-! The kind of a value is that of its first token. -/

/-- The kind of the token that a value begins with. -/
def Value.kind : Value → Kind
  | null => .null
  | bool b => if b then .yes else .no
  | number _ => .number
  | string _ => .string
  | array _ => .array
  | object _ => .object

namespace Grammar

theorem Tree.Denotes.kind_eq {t : Tree} {v : Value} (h : t.Denotes v) : v.kind = t.kind := by
  cases h with
  | scalar hx =>
      cases hx with
      | word w => cases w <;> rfl
      | number => rfl
      | string => rfl
  | emptyArray | emptyObject | array | object => rfl

end Grammar

variable {α : Type}

/-- In front of a tree a decoder reads what the value of the tree projects to, or it
fails, and the tree has no value or one that projects to nothing. -/
def Grammar.Tree.Projects (t : Tree) (project : Value → Option α) (read : Decoder α) : Prop :=
  ∀ ⦃source : Source⦄ ⦃start : Nat⦄, Lies source.toBytes start t.text →
    ∀ (position : Nat) (rest : List Token),
      (∃ v x, t.Denotes v ∧ project v = some x ∧
        read ⟨source, position, t.tokens start ++ rest⟩ =
          .ok x ⟨source, position + (t.tokens start).length, rest⟩) ∨
      (∀ v, t.Denotes v → project v = none) ∧
        ∃ fault d, read ⟨source, position, t.tokens start ++ rest⟩ = .error fault d

/-! Scalars. -/

section Scalars

variable {t : Tree} {project : Value → Option α} {read : Source → Token → Except Fault α}

/-- A kind of token at which the decoder fails is one whose values do not project. -/
theorem Grammar.Tree.projects_of_kind
    (hread : ∀ source token, token.kind = t.kind → ∃ fault, read source token = .error fault)
    (hproject : ∀ v : Value, v.kind = t.kind → project v = none) :
    t.Projects project (Decoder.scalar read) := by
  intro source start _ position rest
  obtain ⟨token, more, htokens, hkind⟩ := t.exists_token start
  obtain ⟨fault, hfault⟩ := hread source token hkind
  refine .inr ⟨fun v hv => hproject v hv.kind_eq, fault, ⟨source, position + 1, more ++ rest⟩, ?_⟩
  rw [htokens, List.cons_append, scalar_cons, hfault]

theorem Grammar.Tree.projects_word {w : Word} {x : α} (hproject : project w.value = some x)
    (hread : ∀ source start, read source ((Lexeme.word w).token start) = .ok x) :
    (Tree.scalar (.word w)).Projects project (Decoder.scalar read) :=
  fun _ _ _ position rest =>
    .inl ⟨_, x, .scalar (.word w), hproject, scalar_lexeme (hread _ _) position rest⟩

theorem Scalar.withText_of_kind_ne {source : Source} {kind : Kind} {token : Token}
    (h : token.kind ≠ kind) (parse : Bytes → Nat → Except ReadFault α) :
    ∃ fault, withText source kind token parse = .error fault := by
  unfold withText expectKind
  rw [if_neg h]
  exact ⟨_, rfl⟩

end Scalars

namespace Grammar.Tree

theorem projects_bool (t : Tree) : t.Projects Value.asBool? Decoder.bool := by
  by_cases hyes : t.kind = .yes
  · obtain rfl : t = .scalar (.word .yes) := begins hyes
    exact projects_word rfl fun _ _ => rfl
  by_cases hno : t.kind = .no
  · obtain rfl : t = .scalar (.word .no) := begins hno
    exact projects_word rfl fun _ _ => rfl
  refine projects_of_kind (fun source token hkind => ?_) fun v hv => ?_
  · rw [← hkind] at hyes hno
    unfold Scalar.bool
    split
    · next h => exact absurd h hyes
    · next h => exact absurd h hno
    · exact ⟨_, rfl⟩
  · cases v with
    | bool b =>
        cases b with
        | true => exact absurd hv.symm hyes
        | false => exact absurd hv.symm hno
    | _ => rfl

theorem projects_unit (t : Tree) : t.Projects Value.asUnit? Decoder.null := by
  by_cases hnull : t.kind = .null
  · obtain rfl : t = .scalar (.word .null) := begins hnull
    exact projects_word rfl fun _ _ => rfl
  refine projects_of_kind (fun source token hkind => ?_) fun v hv => ?_
  · rw [← hkind] at hnull
    unfold Scalar.null
    split
    · next h => exact absurd h hnull
    · exact ⟨_, rfl⟩
  · cases v with
    | null => exact absurd hv.symm hnull
    | _ => rfl

theorem projects_number (t : Tree) :
    t.Projects Value.asNumber? (Decoder.float .binary64) := by
  by_cases hnumber : t.kind = .number
  · obtain ⟨n, rfl⟩ := begins hnumber
    intro source start hlies position rest
    rcases Scalar.float_numeral hlies with ⟨hfinite, hread⟩ | ⟨hinfinite, fault, hread⟩
    · exact .inl ⟨_, _, .scalar (.number hfinite), rfl, scalar_lexeme hread position rest⟩
    · refine .inr ⟨fun v hv => ?_, fault, ⟨source, position + 1, rest⟩, ?_⟩
      · cases hv with
        | scalar hx =>
            cases hx with
            | number hfinite => exact absurd hfinite (by rw [hinfinite]; decide)
      · rw [tokens, List.singleton_append, Decoder.float, scalar_cons, hread]
  refine projects_of_kind (fun source token hkind => ?_) fun v hv => ?_
  · rw [← hkind] at hnumber
    exact Scalar.withText_of_kind_ne hnumber _
  · cases v with
    | number x => exact absurd hv.symm hnumber
    | _ => rfl

theorem projects_string (t : Tree) : t.Projects Value.asString? Decoder.string := by
  by_cases hstring : t.kind = .string
  · obtain ⟨q, rfl⟩ := begins hstring
    intro source start hlies position rest
    rcases Scalar.string_quoted hlies with ⟨text, hspells, hread⟩ | ⟨hnone, fault, hread⟩
    · exact .inl ⟨_, _, .scalar (.string hspells), rfl, scalar_lexeme hread position rest⟩
    · refine .inr ⟨fun v hv => ?_, fault, ⟨source, position + 1, rest⟩, ?_⟩
      · cases hv with
        | scalar hx =>
            cases hx with
            | string hspells => exact absurd hspells (hnone _)
      · rw [tokens, List.singleton_append, Decoder.string, scalar_cons, hread]
  refine projects_of_kind (fun source token hkind => ?_) fun v hv => ?_
  · rw [← hkind] at hstring
    exact Scalar.withText_of_kind_ne hstring _
  · cases v with
    | string text => exact absurd hv.symm hstring
    | _ => rfl

theorem projects_value (t : Tree) : t.Projects some Value.decode := by
  intro source start hlies position rest
  rcases t.decides hlies Value.ready_nil position rest with ⟨v, hv, hread⟩ | ⟨hnone, fault, hread⟩
  · exact .inl ⟨v, v, hv, rfl, Value.decode_of_ok hread⟩
  · rcases hwalk : Value.readFrom source [] position (t.tokens start ++ rest) with
      ⟨result, place, left⟩
    rw [hwalk] at hread
    obtain rfl : result = .error fault := hread
    exact .inr ⟨fun v hv => absurd hv (hnone v), fault, _, Value.decode_of_error hwalk⟩

/-! Optional values and lists. -/

theorem projects_option {c : Codec α} {project : Value → Option α} {t : Tree}
    (h : t.Projects project c.decode) :
    t.Projects (Value.asOption? project) c.option.decode := by
  intro source start hlies position rest
  have hlook (next : Bool → Decoder (Option α)) :=
    bind_of_ok next (Codec.isNull_tokens t source start position rest)
  by_cases hnull : t.text = Word.null.text
  · obtain rfl := eq_null hnull
    exact .inl ⟨.null, none, .scalar (.word .null), rfl,
      (Codec.carries_none c).reads hlies position rest⟩
  · rw [decide_eq_false hnull] at hlook
    have hvalue : ∀ v, t.Denotes v → v.isNull = false := by
      intro v hv
      cases v with
      | null =>
          have hword : t = .scalar (.word .null) := begins hv.kind_eq.symm
          exact absurd (congrArg text hword) hnull
      | _ => rfl
    rcases h hlies position rest with ⟨v, x, hv, hx, hread⟩ | ⟨hnone, fault, d, hread⟩
    · refine .inl ⟨v, some x, hv, ?_, (hlook _).trans (bind_of_ok _ hread)⟩
      rw [Value.asOption?, hvalue v hv, hx]
      rfl
    · refine .inr ⟨fun v hv => ?_, fault, d, (hlook _).trans (bind_of_error _ hread)⟩
      rw [Value.asOption?, hvalue v hv, hnone v hv]
      rfl

end Grammar.Tree

/-- The elements of an array are read one by one, onto those read before, as what their
values project to. -/
theorem Grammar.Children.projects {c : Codec α} {project : Value → Option α}
    (h : ∀ t : Tree, t.Projects project c.decode) : ∀ (children : Children false)
    {source : Source} {start : Nat}, Lies source.toBytes start children.text →
    ∀ (acc : List α) (position : Nat) (rest : List Token),
      (∃ vs xs, children.Elements vs ∧ vs.mapM project = some xs ∧
        repeatOnto c.decode acc children.size
            ⟨source, position, children.tokens start ++ rest⟩ =
          .ok (acc.reverse ++ xs) ⟨source, position + (children.tokens start).length, rest⟩) ∨
      (∀ vs, children.Elements vs → vs.mapM project = none) ∧
        ∃ fault d, repeatOnto c.decode acc children.size
          ⟨source, position, children.tokens start ++ rest⟩ = .error fault d
  | .last .element before t after, source, start, hlies, acc, position, rest => by
      obtain ⟨-, ht⟩ := Children.lies_last hlies
      rcases h t ht position rest with ⟨v, x, hv, hx, hread⟩ | ⟨hnone, fault, d, hread⟩
      · exact .inl ⟨[v], [x], .last hv, by simp [hx], repeatOnto_last acc hread⟩
      · refine .inr ⟨fun vs hvs => ?_, fault, d, bind_of_error _ hread⟩
        cases hvs with
        | last hv => simp [hnone _ hv]
  | .more .element before t after others, source, start, hlies, acc, position, rest => by
      obtain ⟨-, ht, hothers⟩ := Children.lies_more hlies
      rw [Children.size, Children.tokens, Label.tokens, List.nil_append, List.append_assoc]
      rcases h t ht position _ with ⟨v, x, hv, hx, hread⟩ | ⟨hnone, fault, d, hread⟩
      · rcases Children.projects h others hothers (x :: acc) _ rest with
          ⟨vs, xs, hvs, hxs, hmore⟩ | ⟨hnone, fault, d, hmore⟩
        · refine .inl ⟨v :: vs, x :: xs, .more hv hvs, by simp [hx, hxs], ?_⟩
          rw [List.length_append, ← Nat.add_assoc]
          exact repeatOnto_more hread hmore
        · refine .inr ⟨fun ws hws => ?_, fault, d, (bind_of_ok _ hread).trans hmore⟩
          cases hws with
          | more hw hws => simp [hnone _ hws]
      · refine .inr ⟨fun ws hws => ?_, fault, d, bind_of_error _ hread⟩
        cases hws with
        | more hw hws => simp [hnone _ hw]

theorem Grammar.Tree.projects_list {c : Codec α} {project : Value → Option α}
    (h : ∀ t : Tree, t.Projects project c.decode) (t : Tree) :
    t.Projects (Value.asList? project) c.list.decode := by
  intro source start hlies position rest
  obtain ⟨token, more, htokens, hkind⟩ := t.exists_token start
  have hbegin := beginArray_cons source position token (more ++ rest)
  rw [hkind, ← List.cons_append, ← htokens] at hbegin
  rcases hbegin with ⟨harray, hcount⟩ | ⟨hother, fault, hfault⟩
  · rcases begins harray with ⟨inside, rfl⟩ | ⟨children, rfl⟩
    · cases htokens
      exact .inl ⟨.array [], [], .emptyArray inside, rfl, bind_of_ok _ hcount⟩
    · cases htokens
      rcases Children.projects h children hlies.tail.left [] (position + 1) rest with
        ⟨vs, xs, hvs, hxs, hread⟩ | ⟨hnone, fault, d, hread⟩
      · rw [← Tree.length_tokens_container] at hread
        exact .inl ⟨.array vs, xs, .array hvs, hxs, (bind_of_ok _ hcount).trans hread⟩
      · refine .inr ⟨fun v hv => ?_, fault, d, (bind_of_ok _ hcount).trans hread⟩
        cases hv with
        | array hvs => exact hnone _ hvs
  · refine .inr ⟨fun v hv => ?_, fault, _, bind_of_error _ hfault⟩
    cases v with
    | array vs => exact absurd hv.kind_eq.symm hother
    | _ => rfl

namespace Shape

/-- In front of any tree, a shape is read as what the value of the tree projects to. -/
theorem projects (s : Shape) (hs : s.dynamic = true) (t : Tree) :
    t.Projects s.project s.codec.decode := by
  induction s generalizing t with
  | bool => exact t.projects_bool
  | unit => exact t.projects_unit
  | double => exact t.projects_number
  | string => exact t.projects_string
  | value => exact t.projects_value
  | option s ih => exact Tree.projects_option (ih hs t)
  | list s ih => exact Tree.projects_list (ih hs) t
  | boxed s ih => exact ih hs t
  | _ => cases hs

end Shape

/-- What is read of the tape of a document is what the value of the document projects to. -/
theorem Grammar.Tree.Projects.ofTape {project : Value → Option α} {c : Codec α} {d : Document}
    (h : d.tree.Projects project c.decode) {source : Source} (hd : d.text = source.toBytes) :
    (∃ v x, d.tree.Denotes v ∧ project v = some x ∧
        c.ofTape ⟨d.tokens 0⟩ source = .ok x) ∨
      (∀ v, d.tree.Denotes v → project v = none) ∧
        ∃ fault, c.ofTape ⟨d.tokens 0⟩ source = .error fault := by
  have hlies : Lies source.toBytes (0 + d.before.bytes.length) d.tree.text := d.lies_tree hd
  have hread := h hlies 0 []
  rw [List.append_nil] at hread
  rcases hread with ⟨v, x, hv, hx, hread⟩ | ⟨hnone, fault, e, hread⟩
  · exact .inl ⟨v, x, hv, hx, Codec.ofTape_of_ok hread rfl⟩
  · exact .inr ⟨hnone, fault, Codec.ofTape_of_error hread⟩

/-- The tape of a document is read as the value of the document. -/
theorem Codec.value_ofTape_tokens_iff {d : Document} {source : Source}
    (hd : d.text = source.toBytes) {v : Value} :
    Codec.value.ofTape ⟨d.tokens 0⟩ source = .ok v ↔ d.tree.Denotes v := by
  have hprojects : d.tree.Projects some Codec.value.decode := d.tree.projects_value
  rcases hprojects.ofTape hd with ⟨w, u, hw, hu, hread⟩ | ⟨hnone, fault, hread⟩
  · cases hu
    rw [hread, Except.ok.injEq]
    exact ⟨fun h => h ▸ hw, hw.unique⟩
  · rw [hread]
    exact iff_of_false (by rintro ⟨⟩) fun hv => by cases hnone v hv

/-- A text is read as a value of a shape if and only if it is read as a value of any
shape that is, seen as one of the shape, that value. -/
theorem Shape.ofBytes_eq_ok_iff (s : Shape) (hs : s.dynamic = true) (bs : Bytes)
    (x : s.Carrier) :
    s.codec.ofBytes bs = .ok x ↔
      ∃ v, Codec.value.ofBytes bs = .ok v ∧ s.project v = some x := by
  unfold Codec.ofBytes Codec.ofSource
  cases htape : Tape.ofSource {} (.ofBytes bs) with
  | error fault => simp
  | ok tape =>
      obtain ⟨d, hd, -, htokens⟩ :=
        Scan.document_eq_ok_iff.mp (Tape.read_fst_eq_ok_iff.mp htape)
      obtain rfl : tape = ⟨d.tokens 0⟩ := congrArg Tape.mk htokens
      have htext : d.text = (Source.ofBytes bs).toBytes := hd
      simp only [Codec.value_ofTape_tokens_iff htext]
      rcases (s.projects hs d.tree).ofTape htext with ⟨v, y, hv, hy, hread⟩ | ⟨hnone, fault, hread⟩
      · rw [hread, Except.ok.injEq]
        constructor
        · rintro rfl
          exact ⟨v, hv, hy⟩
        · rintro ⟨w, hw, hx⟩
          rw [hw.unique hv, hy] at hx
          exact Option.some.inj hx
      · rw [hread]
        refine iff_of_false (by rintro ⟨⟩) ?_
        rintro ⟨v, hv, hx⟩
        rw [hnone v hv] at hx
        cases hx

/-- The text `[null,[]]` is read as a list of optional lists, and so it has a value, of
which that list is made. -/
theorem Shape.ofBytes_eq_ok_iff_lists :
    ∃ v, Codec.value.ofBytes [0x5B, 0x6E, 0x75, 0x6C, 0x6C, 0x2C, 0x5B, 0x5D, 0x5D] = .ok v ∧
      (Shape.list (.option (.list .value))).project v = some [none, some []] := by
  have hread : (Shape.list (.option (.list .value))).codec.ofBytes
      [0x5B, 0x6E, 0x75, 0x6C, 0x6C, 0x2C, 0x5B, 0x5D, 0x5D] = .ok [none, some []] := by
    have htape : Tape.ofSource {}
        (.ofBytes [0x5B, 0x6E, 0x75, 0x6C, 0x6C, 0x2C, 0x5B, 0x5D, 0x5D]) =
          .ok ⟨[⟨.array, 0, 9, 2⟩, ⟨.null, 1, 5, 0⟩, ⟨.array, 6, 8, 0⟩]⟩ := by
      cbv
    rw [Codec.ofBytes, Codec.ofSource, htape]
    rfl
  exact (Shape.ofBytes_eq_ok_iff (.list (.option (.list .value))) rfl _ _).mp hread

end FlatJson
