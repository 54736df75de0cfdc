import FlatJson.Proofs.Number.Store
import FlatJson.Proofs.Reads

/-!
# Codecs that read what they write

A codec writes a value as the text of a tree, and reads off the listing of that
tree what it has written, wherever in a document the tree lies
(`Codec.Carries`). That may be another value than the one that was written: an
optional value that is written as null is read as none. The codecs of larger
types carry what those of their parts carry.
-/

namespace FlatJson

open Grammar Decoder

variable {α : Type}

namespace Codec

/-- A value `x` is written as the text of a tree, and the listing of the tree is
read as `y`. -/
structure Carries (c : Codec α) (t : Tree) (x y : α) : Prop where
  writes : Emission.Writes (c.emit x) t.text
  reads : ∀ {source : Source} {start : Nat}, Lies source.toBytes start t.text →
    ∀ (position : Nat) (rest : List Token),
      c.decode ⟨source, position, t.tokens start ++ rest⟩ =
        .ok y ⟨source, position + (t.tokens start).length, rest⟩

theorem Carries.toBytes {c : Codec α} {t : Tree} {x y : α} (h : c.Carries t x y) :
    c.toBytes x = .ok t.text :=
  Emission.toBytes_of_writes h.writes

theorem Carries.reads_tree {c : Codec α} {t : Tree} {x y : α} (h : c.Carries t x y) :
    Reads c.decode t y :=
  fun _ _ hlies => h.reads hlies

/-- What is carried is read from what is written, as a document on its own. -/
theorem Carries.ofSource {c : Codec α} {t : Tree} {x y : α} (h : c.Carries t x y)
    {limits : Limits} (hheight : t.height ≤ limits.maxDepth) :
    c.ofSource limits (.ofBytes t.text) = .ok y :=
  h.reads_tree.ofSource hheight

theorem carries_bool (b : Bool) :
    Codec.bool.Carries (.scalar (.word (if b then .yes else .no))) b b := by
  cases b with
  | true => exact ⟨Emission.writes_raw _, fun _ => scalar_lexeme rfl⟩
  | false => exact ⟨Emission.writes_raw _, fun _ => scalar_lexeme rfl⟩

theorem carries_unit (u : Unit) : Codec.unit.Carries (.scalar (.word .null)) u u :=
  ⟨Emission.writes_raw _, fun _ => scalar_lexeme rfl⟩

/-- A codec of numbers carries what its parser makes of the literal that it
writes. -/
theorem carries_number {c : Codec α} {parse : Bytes → Nat → Except ReadFault α}
    (hdecode : c.decode = scalar fun s t => Scalar.withText s .number t parse) {n : Numeral}
    {x : α} (hwrites : Emission.Writes (c.emit x) n.literal.text)
    (hparse : ∀ offset, parse n.literal.text offset = .ok x) :
    c.Carries (.scalar (.number n)) x x := by
  refine ⟨hwrites, fun {source start} hlies position rest => ?_⟩
  have htext : source.textOf ((Lexeme.number n).token start) = .ok n.literal.text :=
    Source.textOf_of_lies hlies rfl
  have hread := Scalar.withText_eq_ok_iff.mpr ⟨rfl, _, htext, hparse start⟩
  rw [hdecode]
  exact scalar_cons_eq_ok_iff.mpr ⟨hread, rfl⟩

end Codec

namespace Literal

/-- The literal of an integer. -/
def ofInt (n : Int) : Literal :=
  ⟨decide (n < 0), Ascii.digits n.natAbs, none, none⟩

theorem wellFormed_ofInt (n : Int) : (ofInt n).WellFormed :=
  ⟨Ascii.isDigits_digits _, by simp [ofInt], by simp [ofInt], by simp [ofInt], by simp [ofInt]⟩

theorem text_ofInt (n : Int) : (ofInt n).text = Ascii.integer n := by
  unfold Literal.text ofInt Ascii.integer
  by_cases h : n < 0 <;> simp [h]

theorem integer_ofInt (n : Int) : (ofInt n).integer = n := by
  unfold Literal.integer ofInt
  rw [Ascii.numeral_digits]
  by_cases h : n < 0
  · simp only [h, decide_true, if_true]
    omega
  · simp only [h, decide_false, Bool.false_eq_true, if_false]
    omega

/-- The literal of a member of an integer type is read as that member. -/
theorem member?_ofInt (t : IntType) (n : t.Member) : (ofInt n.val).member? t = some n := by
  have hsign : (t.isUnsigned && (ofInt n.val).negative) = false := by
    cases t with
    | signed bits => rfl
    | unsigned bits =>
        have hleast : 0 ≤ n.val := n.property.1
        exact decide_eq_false (Int.not_lt.mpr hleast)
  rw [member?, hsign, integer_ofInt, IntType.ofInt?, dif_pos n.property]
  rfl

end Literal

namespace Codec

theorem exists_carries_integer (t : IntType) (n : t.Member) :
    ∃ l : Numeral, (Codec.integer t).Carries (.scalar (.number l)) n n := by
  let l : Numeral := ⟨Literal.ofInt n.val, Literal.wellFormed_ofInt n.val⟩
  have htext : l.literal.text = Ascii.integer n.val := Literal.text_ofInt n.val
  refine ⟨l, carries_number rfl ?_ fun offset => ?_⟩
  · show Emission.Writes (Emission.integer n.val) l.literal.text
    rw [htext, Emission.integer_eq]
    exact Emission.writes_raw _
  · have hmember : l.literal.member? t = some n := Literal.member?_ofInt t n
    rw [Scalar.parseInteger_numeral, hmember]
    rfl

theorem exists_carries_float {f : Format} (hf : f.Proper)
    (hsmall : f.bias + f.precision + 1 < 10 * Exponent.cap) {x : Binary f}
    (hx : x.isFinite = true) :
    ∃ l : Numeral, (Codec.float f).Carries (.scalar (.number l)) x x := by
  obtain ⟨l, htext, hround⟩ := Binary.exists_numeral hf hsmall hx
  refine ⟨l, carries_number rfl ?_ fun offset => ?_⟩
  · show Emission.Writes (Emission.float x) l.literal.text
    rw [Emission.float, if_pos hx, htext]
    exact Emission.writes_raw _
  · rw [Scalar.parseFloat_numeral, hround, if_pos hx]

/-- A number that is kept as its text is read as that text. -/
theorem exists_carries_numeral {form : TextForm α} {x : α}
    (hnumber : Literal.isNumberText (form.text x) = true)
    (hparse : form.parse (form.text x) = some x) :
    ∃ l : Numeral, form.numeral.Carries (.scalar (.number l)) x x := by
  unfold Literal.isNumberText Literal.ofText? at hnumber
  split at hnumber
  · next l hscan =>
      obtain ⟨hwell, htext, -⟩ := Literal.scan_eq_ok_iff.mp hscan
      rw [List.append_nil] at htext
      refine ⟨⟨l, hwell⟩, carries_number rfl ?_ fun offset => ?_⟩
      · rw [← htext]
        exact Emission.writes_raw _
      · rw [Scalar.parseNumeral_numeral, ← htext, hparse]
  · cases hnumber

theorem exists_carries_bigInteger (x : BigInteger) :
    ∃ l : Numeral, BigInteger.form.numeral.Carries (.scalar (.number l)) x x :=
  exists_carries_numeral (Literal.isNumberText_of_isIntegerText x.isIntegerText)
    (dif_pos x.isIntegerText)

theorem exists_carries_bigDecimal (x : BigDecimal) :
    ∃ l : Numeral, BigDecimal.form.numeral.Carries (.scalar (.number l)) x x :=
  exists_carries_numeral x.isNumberText (dif_pos x.isNumberText)

theorem exists_carries_year (y : Year) :
    ∃ l : Numeral, Year.codec.Carries (.scalar (.number l)) y y := by
  obtain ⟨l, hwrites, hreads⟩ := exists_carries_integer .int32 y.value
  exact ⟨l, hwrites, fun hlies position rest => bind_of_ok _ (hreads hlies position rest)⟩

theorem exists_carries_string (s : String) :
    ∃ q : Quoted, Codec.string.Carries (.scalar (.string q)) s s := by
  obtain ⟨q, hwrites, hspells⟩ := Escape.exists_quoted s
  exact ⟨q, hwrites, fun hlies => scalar_lexeme (Scalar.string_of_spells hlies hspells)⟩

theorem exists_carries_value {v : Value} (h : v.AllFinite) :
    ∃ t : Tree, Codec.value.Carries t v v ∧ t.height = v.height := by
  obtain ⟨t, hwrites, hdenotes, hheight⟩ := Value.exists_tree v h
  refine ⟨t, ⟨hwrites, fun hlies position rest => ?_⟩, hheight⟩
  rcases Tree.decides t hlies Value.ready_nil position rest with ⟨w, hw, hread⟩ | ⟨hnone, -⟩
  · rw [hw.unique hdenotes] at hread
    exact Value.decode_of_ok hread
  · exact absurd hdenotes (hnone v)

end Codec

/-! Optional values. -/

namespace Grammar

/-- Only the word itself has the text `null`. -/
theorem Tree.eq_null {t : Tree} (h : t.text = Word.null.text) : t = .scalar (.word .null) := by
  have hhead : t.text.head? = some 0x6E := by rw [h]; rfl
  cases t with
  | scalar x =>
      cases x with
      | word w => cases w <;> first | rfl | cases h
      | number n =>
          obtain ⟨b, rest, htext, hb⟩ := Scan.exists_cons_numeral n
          rw [Tree.text, Lexeme.text, htext, List.head?_cons] at hhead
          cases hhead
          cases hb
      | string q => cases h
  | empty isObject inside => cases isObject <;> cases hhead
  | container isObject children => cases isObject <;> cases hhead

theorem Tree.kind_eq_null_iff {t : Tree} : t.kind = .null ↔ t.text = Word.null.text := by
  constructor
  · intro h
    rw [show t = .scalar (.word .null) from Tree.begins h]
    rfl
  · intro h
    rw [Tree.eq_null h]
    rfl

end Grammar

namespace Codec

variable {c : Codec α} {t : Tree} {x y : α}

theorem Carries.toBytes_ne_null (h : c.Carries t x y) (ht : t ≠ .scalar (.word .null)) :
    c.toBytes x ≠ .ok Word.null.text :=
  fun hnull => ht (Tree.eq_null (Except.ok.inj (h.toBytes.symm.trans hnull)))

theorem isNull_tokens (t : Tree) (source : Source) (start position : Nat) (rest : List Token) :
    Decoder.isNull ⟨source, position, t.tokens start ++ rest⟩ =
      .ok (decide (t.text = Word.null.text)) ⟨source, position, t.tokens start ++ rest⟩ := by
  obtain ⟨token, more, htokens, hkind⟩ := t.exists_token start
  have hnull : (token.kind == .null) = decide (t.text = Word.null.text) := by
    rw [beq_eq_decide, hkind]
    exact decide_eq_decide.mpr Tree.kind_eq_null_iff
  rw [htokens, ← hnull]
  rfl

/-- None is written as null, and read as none. -/
theorem carries_none (c : Codec α) : c.option.Carries (.scalar (.word .null)) none none := by
  refine ⟨Emission.writes_raw _, fun {source start} _ position rest => ?_⟩
  have hnull : Decoder.null ⟨source, position, (Tree.scalar (.word .null)).tokens start ++ rest⟩ =
      .ok () ⟨source, position + ((Tree.scalar (.word .null)).tokens start).length, rest⟩ :=
    scalar_lexeme rfl position rest
  refine (bind_of_ok _ (isNull_tokens _ source start position rest)).trans ?_
  exact bind_of_ok _ hnull

/-- So is a value that is written as null. -/
theorem Carries.option_null (h : c.Carries t x y) (ht : t.text = Word.null.text) :
    c.option.Carries t (some x) none := by
  obtain rfl := Tree.eq_null ht
  exact ⟨h.writes, (carries_none c).reads⟩

theorem Carries.option (h : c.Carries t x y) (ht : t.text ≠ Word.null.text) :
    c.option.Carries t (some x) (some y) := by
  refine ⟨h.writes, fun {source start} hlies position rest => ?_⟩
  refine (bind_of_ok _ (isNull_tokens t source start position rest)).trans ?_
  rw [decide_eq_false ht]
  exact bind_of_ok _ (h.reads hlies position rest)

/-! Lists. -/

/-- The same of the elements of a list, which are read onto those read before. -/
structure CarriesAll (c : Codec α) (children : Children false) (xs ys : List α) : Prop where
  writes : Emission.Writes (Emission.separated (xs.map c.emit)) children.text
  reads : ∀ {source : Source} {start : Nat}, Lies source.toBytes start children.text →
    ∀ (acc : List α) (position : Nat) (rest : List Token),
      repeatOnto c.decode acc children.size
          ⟨source, position, children.tokens start ++ rest⟩ =
        .ok (acc.reverse ++ ys) ⟨source, position + (children.tokens start).length, rest⟩

open Value

theorem Carries.last (h : c.Carries t x y) :
    c.CarriesAll (.last .element noBlanks t noBlanks) [x] [y] :=
  ⟨h.writes.last, fun hlies acc position rest =>
    repeatOnto_last acc (h.reads (Children.lies_last hlies).2 position rest)⟩

theorem Carries.more {others : Children false} {z : α} {xs ys : List α} (h : c.Carries t x y)
    (hs : c.CarriesAll others (z :: xs) ys) :
    c.CarriesAll (.more .element noBlanks t noBlanks others) (x :: z :: xs) (y :: ys) := by
  refine ⟨h.writes.more hs.writes, fun {source start} hlies acc position rest => ?_⟩
  obtain ⟨-, ht, hothers⟩ := Children.lies_more hlies
  rw [Children.size, Children.tokens, Label.tokens, List.nil_append, List.append_assoc,
    List.length_append, ← Nat.add_assoc]
  exact repeatOnto_more (h.reads ht position _) (hs.reads hothers _ _ rest)

/-- Where the elements of a list are carried, so are all of them together. -/
theorem exists_carriesAll {height : Nat} {norm : α → α} : ∀ {xs : List α}, xs ≠ [] →
    (∀ x ∈ xs, ∃ t, c.Carries t x (norm x) ∧ t.height ≤ height) →
    ∃ children, c.CarriesAll children xs (xs.map norm) ∧ children.height ≤ height
  | [], hne, _ => absurd rfl hne
  | [x], _, h => by
      obtain ⟨t, ht, hheight⟩ := h x List.mem_cons_self
      exact ⟨_, ht.last, hheight⟩
  | x :: z :: xs, _, h => by
      obtain ⟨t, ht, hheight⟩ := h x List.mem_cons_self
      obtain ⟨others, hothers, hheights⟩ :=
        exists_carriesAll (List.cons_ne_nil z xs) fun w hw => h w (List.mem_cons_of_mem x hw)
      exact ⟨_, ht.more hothers, max_le hheight hheights⟩

/-- Lists are written as arrays of what is written of their elements. -/
theorem exists_carries_list {height : Nat} {norm : α → α} (xs : List α)
    (h : ∀ x ∈ xs, ∃ t, c.Carries t x (norm x) ∧ t.height ≤ height) :
    ∃ t, c.list.Carries t xs (xs.map norm) ∧ t.height ≤ height + 1 := by
  by_cases hne : xs = []
  · subst hne
    exact ⟨.empty false noBlanks, ⟨Emission.writes_empty false, fun _ _ _ => rfl⟩,
      Nat.le_add_left 1 _⟩
  · obtain ⟨children, hchildren, hheight⟩ := exists_carriesAll hne h
    refine ⟨.container false children, ⟨hchildren.writes.container,
      fun {source start} hlies position rest => ?_⟩, Nat.succ_le_succ hheight⟩
    rw [list_container, Tree.length_tokens_container]
    exact hchildren.reads hlies.tail.left [] (position + 1) rest

end Codec

end FlatJson
