import Mathlib.Data.List.Forall2
import FlatJson.Proofs.OneValue
import FlatJson.Proofs.RoundTrip

/-!
# Trees that are read

What comes of the listing of a tree is said of the tree, not of one of the places where it
may lie: a decoder reads a value off it everywhere (`Decoder.Reads`), or fails everywhere
(`Decoder.Rejects`), and a decoder that does one or the other does the same at all these
places (`Decoder.Settles`). An array is read as the list of what is read of its elements
(`Decoder.reads_list`), and a document as its tree is (`Document.ofSource_of_reads`).
-/

namespace FlatJson

open Grammar

namespace Grammar

/-- A text lies in itself. -/
theorem Lies.self (bs : Bytes) : Lies (Source.ofBytes bs).toBytes 0 bs :=
  ⟨[], [], (List.append_nil _).symm, rfl⟩

/-- The text of a tree is tokenized as the listing of the tree. -/
theorem Tree.ofSource_text (t : Tree) {limits : Limits} (hheight : t.height ≤ limits.maxDepth) :
    Tape.ofSource limits (.ofBytes t.text) = .ok ⟨t.tokens 0⟩ :=
  Tape.read_fst_eq_ok_iff.mpr (Scan.document_eq_ok_iff.mpr
    ⟨⟨Value.noBlanks, t, Value.noBlanks⟩, List.append_nil _, hheight, rfl⟩)

/-! The token that a tree begins with. -/

/-- The kind of the token that a tree begins with. -/
def Tree.kind : Tree → Kind
  | .scalar x => (x.token 0).kind
  | .empty isObject _ | .container isObject _ => containerKind isObject

theorem Tree.exists_token (t : Tree) (start : Nat) :
    ∃ token more, t.tokens start = token :: more ∧ token.kind = t.kind := by
  cases t with
  | scalar x => cases x <;> exact ⟨_, [], rfl, rfl⟩
  | empty isObject inside => exact ⟨_, [], rfl, rfl⟩
  | container isObject children => exact ⟨_, _, rfl, rfl⟩

/-- The trees that begin with a token of a kind. -/
def Tree.Begins (t : Tree) : Kind → Prop
  | .null => t = .scalar (.word .null)
  | .yes => t = .scalar (.word .yes)
  | .no => t = .scalar (.word .no)
  | .number => ∃ n, t = .scalar (.number n)
  | .string => ∃ q, t = .scalar (.string q)
  | .array => (∃ inside, t = .empty false inside) ∨ ∃ children, t = .container false children
  | .object => (∃ inside, t = .empty true inside) ∨ ∃ children, t = .container true children

theorem Tree.begins {t : Tree} {kind : Kind} (h : t.kind = kind) : t.Begins kind := by
  subst h
  cases t with
  | scalar x =>
      cases x with
      | word w => cases w <;> rfl
      | number n => exact ⟨n, rfl⟩
      | string q => exact ⟨q, rfl⟩
  | empty isObject inside => cases isObject <;> exact .inl ⟨inside, rfl⟩
  | container isObject children => cases isObject <;> exact .inr ⟨children, rfl⟩

/-- A container has one token more than its children. -/
theorem Tree.length_tokens_container {isObject : Bool} (children : Children isObject)
    (start position : Nat) :
    position + ((Tree.container isObject children).tokens start).length =
      position + 1 + (children.tokens (start + 1)).length := by
  rw [Tree.tokens, List.length_cons]
  omega

/-- The text of a tree is short enough for a tape to speak of all that is in it. -/
def Tree.Small (t : Tree) : Prop :=
  t.text.length ≤ Token.maxEntries

end Grammar

namespace Decoder

variable {α β : Type}

/-- The listing of a tree is read as `x`, wherever in a document the tree lies. -/
def Reads (read : Decoder α) (t : Tree) (x : α) : Prop :=
  ∀ ⦃source : Source⦄ ⦃start : Nat⦄, Lies source.toBytes start t.text →
    ∀ (position : Nat) (rest : List Token),
      read ⟨source, position, t.tokens start ++ rest⟩ =
        .ok x ⟨source, position + (t.tokens start).length, rest⟩

/-- The listing of a tree is not read, wherever in a document the tree lies. -/
def Rejects (read : Decoder α) (t : Tree) : Prop :=
  ∀ ⦃source : Source⦄ ⦃start : Nat⦄, Lies source.toBytes start t.text →
    ∀ (position : Nat) (rest : List Token),
      ∃ fault d, read ⟨source, position, t.tokens start ++ rest⟩ = .error fault d

/-- In front of a tree a decoder does the same wherever the tree lies. -/
def Settles (read : Decoder α) (t : Tree) : Prop :=
  (∃ x, Reads read t x) ∨ Rejects read t

variable {read : Decoder α} {t : Tree} {x y : α}

theorem Reads.not_rejects (h : Reads read t x) : ¬Rejects read t := by
  intro hrejects
  obtain ⟨fault, d, hfault⟩ := hrejects (Lies.self t.text) 0 []
  rw [h (Lies.self t.text) 0 []] at hfault
  cases hfault

theorem Reads.unique (hx : Reads read t x) (hy : Reads read t y) : x = y := by
  have h := hy (Lies.self t.text) 0 []
  rw [hx (Lies.self t.text) 0 []] at h
  cases h
  rfl

theorem Reads.map (h : Reads read t x) (f : α → β) :
    Reads (read >>= fun x => pure (f x)) t (f x) :=
  fun _ _ hlies position rest => bind_of_ok _ (h hlies position rest)

theorem Rejects.bind (h : Rejects read t) (next : α → Decoder β) : Rejects (read >>= next) t := by
  intro source start hlies position rest
  obtain ⟨fault, d, hfault⟩ := h hlies position rest
  exact ⟨fault, d, bind_of_error next hfault⟩

/-- A success at one place is a success at every place. -/
theorem Settles.reads (h : Settles read t) {source : Source} {start position : Nat}
    {rest : List Token} {c : Cursor} (hlies : Lies source.toBytes start t.text)
    (hread : read ⟨source, position, t.tokens start ++ rest⟩ = .ok x c) : Reads read t x := by
  rcases h with ⟨y, hy⟩ | hrejects
  · rw [hy hlies] at hread
    cases hread
    exact hy
  · obtain ⟨fault, d, hfault⟩ := hrejects hlies position rest
    rw [hread] at hfault
    cases hfault

theorem Settles.of_reads_map (h : Settles read t) {f : α → β} {z : β}
    (hz : Reads (read >>= fun x => pure (f x)) t z) : ∃ x, Reads read t x ∧ z = f x := by
  rcases h with ⟨x, hx⟩ | hrejects
  · exact ⟨x, hx, hz.unique (hx.map f)⟩
  · exact absurd (hrejects.bind _) hz.not_rejects

theorem scalar_lexeme {read : Source → Token → Except Fault α} {x : Lexeme} {source : Source}
    {start : Nat} {y : α} (h : read source (x.token start) = .ok y) (position : Nat)
    (rest : List Token) :
    scalar read ⟨source, position, (Tree.scalar x).tokens start ++ rest⟩ =
      .ok y ⟨source, position + ((Tree.scalar x).tokens start).length, rest⟩ := by
  rw [Tree.tokens, List.singleton_append, scalar_cons, h]
  rfl

/-- What asks for the children of a container of one kind fails in front of anything else. -/
theorem rejects_children {kind : Kind} (h : t.kind ≠ kind) :
    Rejects (scalar (Scalar.children kind)) t := by
  intro source start _ position rest
  obtain ⟨token, more, htokens, hkind⟩ := t.exists_token start
  rw [htokens, List.cons_append]
  rcases children_cons kind source position token (more ++ rest) with
    ⟨hsame, -⟩ | ⟨-, fault, hfault⟩
  · exact absurd (hkind.symm.trans hsame) h
  · exact ⟨fault, _, hfault⟩

/-- A tree that is not too large is passed over. -/
theorem reads_skipValue (h : t.Small) : Reads skipValue t () :=
  fun _ start _ _ rest => skipValue_tokens t ((t.length_tokens_le start).trans h) rest

end Decoder

/-! Lists. -/

namespace Grammar

/-- The values of some children, in the order of the text. -/
def Children.values {isObject : Bool} : Children isObject → List Tree
  | .last _ _ t _ => [t]
  | .more _ _ t _ others => t :: others.values

/-- The elements of a tree that is an array. -/
def Tree.elements? : Tree → Option (List Tree)
  | .empty false _ => some []
  | .container false children => some children.values
  | _ => none

end Grammar

namespace Decoder

variable {α : Type} {c : Codec α}

/-- Elements that are read one by one are read onto those read before. -/
theorem repeatOnto_values : ∀ (children : Children false) {xs : List α},
    List.Forall₂ (Reads c.decode) children.values xs →
    ∀ {source : Source} {start : Nat}, Lies source.toBytes start children.text →
    ∀ (acc : List α) (position : Nat) (rest : List Token),
      repeatOnto c.decode acc children.size ⟨source, position, children.tokens start ++ rest⟩ =
        .ok (acc.reverse ++ xs) ⟨source, position + (children.tokens start).length, rest⟩
  | .last .element before t after, _, .cons ht .nil, source, start, hlies, acc, position, rest =>
      repeatOnto_last acc (ht (Children.lies_last hlies).2 position rest)
  | .more .element before t after others, _, .cons ht hothers, source, start, hlies, acc, position,
      rest => by
      obtain ⟨-, hfirst, hlater⟩ := Children.lies_more hlies
      rw [Children.size, Children.tokens, Label.tokens, List.nil_append, List.append_assoc,
        List.length_append, ← Nat.add_assoc]
      exact repeatOnto_more (ht hfirst position _)
        (repeatOnto_values others hothers hlater _ _ rest)

/-- Where one element is not read, the elements are not read. -/
theorem repeatOnto_values_of_settles : ∀ (children : Children false),
    (∀ t ∈ children.values, Settles c.decode t) →
    (∃ xs, List.Forall₂ (Reads c.decode) children.values xs) ∨
    ∀ {source : Source} {start : Nat}, Lies source.toBytes start children.text →
    ∀ (acc : List α) (position : Nat) (rest : List Token), ∃ fault d,
      repeatOnto c.decode acc children.size ⟨source, position, children.tokens start ++ rest⟩ =
        .error fault d
  | .last .element before t after, h => by
      rcases h t (List.mem_singleton.mpr rfl) with ⟨x, hx⟩ | hrejects
      · exact .inl ⟨[x], .cons hx .nil⟩
      · exact .inr fun hlies acc position rest =>
          hrejects.bind _ (Children.lies_last hlies).2 position rest
  | .more .element before t after others, h => by
      obtain ⟨ht, hothers⟩ := List.forall_mem_cons.mp h
      rcases ht with ⟨x, hx⟩ | hrejects
      · rcases repeatOnto_values_of_settles others hothers with ⟨xs, hxs⟩ | hrejects
        · exact .inl ⟨x :: xs, .cons hx hxs⟩
        · refine .inr fun {source start} hlies acc position rest => ?_
          obtain ⟨-, hfirst, hlater⟩ := Children.lies_more hlies
          rw [Children.size, Children.tokens, Label.tokens, List.nil_append, List.append_assoc]
          obtain ⟨fault, d, hfault⟩ := hrejects hlater (x :: acc) _ rest
          exact ⟨fault, d, (bind_of_ok _ (hx hfirst position _)).trans hfault⟩
      · refine .inr fun {source start} hlies acc position rest => ?_
        obtain ⟨-, hfirst, -⟩ := Children.lies_more hlies
        rw [Children.size, Children.tokens, Label.tokens, List.nil_append, List.append_assoc]
        exact hrejects.bind _ hfirst position _

/-- Behind the token of an array its elements are read. -/
theorem list_container (children : Children false) (source : Source) (start position : Nat)
    (rest : List Token) :
    c.list.decode ⟨source, position, (Tree.container false children).tokens start ++ rest⟩ =
      repeatOnto c.decode [] children.size
        ⟨source, position + 1, children.tokens (start + 1) ++ rest⟩ :=
  rfl

theorem reads_list {t : Tree} {ts : List Tree} {xs : List α} (hts : t.elements? = some ts)
    (h : List.Forall₂ (Reads c.decode) ts xs) : Reads c.list.decode t xs := by
  intro source start hlies position rest
  cases t with
  | scalar x => cases hts
  | empty isObject inside =>
      cases isObject <;> cases hts
      cases h
      rfl
  | container isObject children =>
      cases isObject <;> cases hts
      rw [list_container, Tree.length_tokens_container]
      exact repeatOnto_values children h hlies.tail.left [] (position + 1) rest

/-- A list is read if its tree is an array of which all the elements are read. -/
theorem settles_list {t : Tree} (h : ∀ ts, t.elements? = some ts → ∀ u ∈ ts, Settles c.decode u) :
    (∃ ts xs, t.elements? = some ts ∧ List.Forall₂ (Reads c.decode) ts xs) ∨
      Rejects c.list.decode t := by
  by_cases hkind : t.kind = .array
  · rcases Tree.begins hkind with ⟨inside, rfl⟩ | ⟨children, rfl⟩
    · exact .inl ⟨[], [], rfl, .nil⟩
    · rcases repeatOnto_values_of_settles children (h _ rfl) with ⟨xs, hxs⟩ | hrejects
      · exact .inl ⟨_, xs, rfl, hxs⟩
      · exact .inr fun source start hlies position rest =>
          hrejects hlies.tail.left [] (position + 1) rest
  · exact .inr ((rejects_children hkind).bind _)

end Decoder

/-! Documents. -/

namespace Grammar.Document

open Decoder

variable {α : Type} {c : Codec α} {d : Document} {limits : Limits} {x : α}

theorem small_tree (h : d.text.length ≤ Token.maxEntries) : d.tree.Small := by
  simp only [Document.text, List.length_append] at h
  unfold Tree.Small
  omega

/-- The tape of a document is read as its tree is. -/
theorem ofTape_of_reads (h : Reads c.decode d.tree x) {source : Source}
    (hd : d.text = source.toBytes) : c.ofTape ⟨d.tokens 0⟩ source = .ok x := by
  have hlies : Lies source.toBytes (0 + d.before.bytes.length) d.tree.text := d.lies_tree hd
  have hread := h hlies 0 []
  rw [List.append_nil] at hread
  exact Codec.ofTape_of_ok hread rfl

theorem ofTape_of_rejects (h : Rejects c.decode d.tree) {source : Source}
    (hd : d.text = source.toBytes) : ∃ fault, c.ofTape ⟨d.tokens 0⟩ source = .error fault := by
  have hlies : Lies source.toBytes (0 + d.before.bytes.length) d.tree.text := d.lies_tree hd
  obtain ⟨fault, e, hfault⟩ := h hlies 0 []
  rw [List.append_nil] at hfault
  exact ⟨fault, Codec.ofTape_of_error hfault⟩

/-- A document that is not too deep is tokenized as its listing. -/
theorem ofSource_text (hheight : d.tree.height ≤ limits.maxDepth) :
    Tape.ofSource limits (.ofBytes d.text) = .ok ⟨d.tokens 0⟩ :=
  Tape.read_fst_eq_ok_iff.mpr (Scan.document_eq_ok_iff.mpr ⟨d, rfl, hheight, rfl⟩)

/-- A document that is not too deep is read if its tree is. -/
theorem ofSource_of_reads (h : Reads c.decode d.tree x)
    (hheight : d.tree.height ≤ limits.maxDepth) :
    c.ofSource limits (.ofBytes d.text) = .ok x := by
  rw [Codec.ofSource, ofSource_text hheight]
  exact ofTape_of_reads h rfl

theorem reads_of_ofSource (hsettles : Settles c.decode d.tree)
    (h : c.ofSource limits (.ofBytes d.text) = .ok x) : Reads c.decode d.tree x := by
  cases htape : Tape.ofSource limits (.ofBytes d.text) with
  | error fault =>
      rw [Codec.ofSource, htape] at h
      cases h
  | ok tape =>
      obtain ⟨e, he, -, htokens⟩ := Scan.document_eq_ok_iff.mp (Tape.read_fst_eq_ok_iff.mp htape)
      obtain rfl : tape = ⟨d.tokens 0⟩ :=
        congrArg Tape.mk (htokens.trans (Document.tokens_eq_of_text_eq he 0))
      have hread : c.ofTape ⟨d.tokens 0⟩ (.ofBytes d.text) = .ok x := by
        rwa [Codec.ofSource, htape] at h
      rcases hsettles with ⟨y, hy⟩ | hrejects
      · rw [ofTape_of_reads hy rfl] at hread
        cases hread
        exact hy
      · obtain ⟨fault, hfault⟩ : ∃ fault, c.ofTape ⟨d.tokens 0⟩ (.ofBytes d.text) = .error fault :=
          ofTape_of_rejects hrejects rfl
        rw [hfault] at hread
        cases hread

end Grammar.Document

/-- What is read of a tree is read of the text of the tree alone. -/
theorem Decoder.Reads.ofSource {α : Type} {c : Codec α} {t : Tree} {x : α}
    (h : Reads c.decode t x) {limits : Limits} (hheight : t.height ≤ limits.maxDepth) :
    c.ofSource limits (.ofBytes t.text) = .ok x := by
  have hread := h (Lies.self t.text) 0 []
  rw [List.append_nil] at hread
  rw [Codec.ofSource, t.ofSource_text hheight]
  exact Codec.ofTape_of_ok hread rfl

end FlatJson
