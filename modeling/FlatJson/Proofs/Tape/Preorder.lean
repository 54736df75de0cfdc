import FlatJson.Cursor
import FlatJson.Proofs.Scan.Lexeme

/-!
# Preorder listings

What the listing of a tree (`Tree.tokens`) says about a text in which the tree
lies, and about the tree itself. The spans of the tokens cut their parts out of
the text (`Tree.cut_tokens`). The counts of the containers say where each subtree
ends: `Subtree` consumes one value by the counts alone, and consumes the listing
of a tree in full, and so does a cursor that passes over a value.
-/

namespace FlatJson

namespace Grammar

open Cursor

/-- Some bytes stand in a text, from an offset on. -/
def Lies (text : Bytes) (start : Nat) (bs : Bytes) : Prop :=
  ∃ before after, text = before ++ (bs ++ after) ∧ before.length = start

theorem Lies.left {text : Bytes} {start : Nat} {bs cs : Bytes} (h : Lies text start (bs ++ cs)) :
    Lies text start bs := by
  obtain ⟨before, after, rfl, rfl⟩ := h
  exact ⟨before, cs ++ after, by simp, rfl⟩

theorem Lies.right {text : Bytes} {start : Nat} {bs cs : Bytes}
    (h : Lies text start (bs ++ cs)) : Lies text (start + bs.length) cs := by
  obtain ⟨before, after, rfl, rfl⟩ := h
  exact ⟨before ++ bs, after, by simp, by simp⟩

theorem Lies.tail {text : Bytes} {start : Nat} {b : UInt8} {bs : Bytes}
    (h : Lies text start (b :: bs)) : Lies text (start + 1) bs :=
  @Lies.right text start [b] bs h

theorem Lies.le_length {text : Bytes} {start : Nat} {bs : Bytes} (h : Lies text start bs) :
    start + bs.length ≤ text.length := by
  obtain ⟨before, after, rfl, rfl⟩ := h
  simp only [List.length_append]
  omega

/-- A text stands in itself, and so does what is left of it. -/
theorem lies_drop {text : Bytes} {start : Nat} (h : start ≤ text.length) :
    Lies text start (text.drop start) := by
  refine ⟨text.take start, [], by simp, ?_⟩
  rw [List.length_take, Nat.min_eq_left h]

/-- Where some children lie, their parts lie one behind the other. -/
theorem Children.lies_last {text : Bytes} {start : Nat} {isObject : Bool} {label : Label isObject}
    {before after : Blanks} {t : Tree}
    (h : Lies text start (Children.last label before t after).text) :
    Lies text start label.text ∧
      Lies text (start + label.text.length + before.bytes.length) t.text := by
  rw [Children.text] at h
  refine ⟨h.left.left.left, ?_⟩
  simpa [Nat.add_assoc] using h.left.right

theorem Children.lies_more {text : Bytes} {start : Nat} {isObject : Bool} {label : Label isObject}
    {before after : Blanks} {t : Tree} {others : Children isObject}
    (h : Lies text start (Children.more label before t after others).text) :
    Lies text start label.text ∧
      Lies text (start + label.text.length + before.bytes.length) t.text ∧
      Lies text (start + label.text.length + before.bytes.length + t.text.length +
        after.bytes.length + 1) others.text := by
  rw [Children.text] at h
  refine ⟨h.left.left.left.left, ?_, ?_⟩
  · simpa [Nat.add_assoc] using h.left.left.right
  · simpa [Nat.add_assoc] using h.right.tail

/-- The bytes of a text that a token spans. -/
def cut (text : Bytes) (t : Token) : Bytes :=
  (text.take t.stop).drop t.start

theorem Lies.cut_eq {text : Bytes} {start : Nat} {bs : Bytes} (h : Lies text start bs)
    {t : Token} (hstart : t.start = start) (hstop : t.stop = start + bs.length) :
    cut text t = bs := by
  obtain ⟨before, after, rfl, rfl⟩ := h
  rw [cut, hstart, hstop, ← List.append_assoc, ← List.length_append, List.take_left,
    List.drop_left]

theorem cut_lexeme {text : Bytes} {start : Nat} (x : Lexeme) (h : Lies text start x.text) :
    cut text (x.token start) = x.core := by
  cases x with
  | word w => exact h.cut_eq rfl rfl
  | number n => exact h.cut_eq rfl rfl
  | string s => exact h.tail.left.cut_eq rfl rfl

theorem cut_label {text : Bytes} {start : Nat} {isObject : Bool} (label : Label isObject)
    (h : Lies text start label.text) :
    (label.tokens start).map (cut text) = label.cores := by
  cases label with
  | element => rfl
  | name before s after =>
      have hs : Lies text (start + before.bytes.length) s.text := h.left.left.right
      exact congrArg (fun bs => [bs]) (cut_lexeme (.string s) hs)

mutual

/-- The tokens of a tree span the parts of its text that they stand for. -/
theorem Tree.cut_tokens {text : Bytes} : ∀ (t : Tree) {start : Nat}, Lies text start t.text →
    (t.tokens start).map (cut text) = t.cores
  | .scalar x, start, h => by
      rw [Tree.tokens, Tree.cores, List.map_singleton, cut_lexeme x h]
  | .empty isObject inside, start, h => by
      rw [Tree.tokens, Tree.cores, List.map_singleton, h.cut_eq rfl]
      simp only [Tree.text, List.length_cons, List.length_append, List.length_nil]
      omega
  | .container isObject children, start, h => by
      rw [Tree.tokens, Tree.cores, List.map_cons, Children.cut_tokens children h.tail.left,
        h.cut_eq rfl]
      simp only [Tree.text, List.length_cons, List.length_append, List.length_nil]
      omega

theorem Children.cut_tokens {text : Bytes} : ∀ {isObject : Bool} (children : Children isObject)
    {start : Nat}, Lies text start children.text →
    (children.tokens start).map (cut text) = children.cores
  | _, .last label before t after, start, h => by
      obtain ⟨hlabel, ht⟩ := Children.lies_last h
      rw [Children.tokens, Children.cores, List.map_append, cut_label label hlabel,
        Tree.cut_tokens t ht]
  | _, .more label before t after others, start, h => by
      obtain ⟨hlabel, ht, hothers⟩ := Children.lies_more h
      rw [Children.tokens, Children.cores, List.map_append, List.map_append,
        cut_label label hlabel, Tree.cut_tokens t ht, Children.cut_tokens others hothers]

end

/-! Consuming a listing by its counts. -/

mutual

/-- One subtree stands at the front of a list of tokens, and the rest comes
after it: a scalar without children, or a container with as many children behind
it as it counts. -/
inductive Subtree : List Token → List Token → Prop
  | scalar {t : Token} {rest : List Token} :
      t.kind.isContainer = false → t.count = 0 → Subtree (t :: rest) rest
  | container {t : Token} {isObject : Bool} {ts rest : List Token} :
      t.kind = containerKind isObject → Subtrees isObject t.count ts rest → Subtree (t :: ts) rest

/-- As many children of a container stand at the front: values in an array,
strings with their values in an object. -/
inductive Subtrees : Bool → Nat → List Token → List Token → Prop
  | nil {isObject : Bool} {rest : List Token} : Subtrees isObject 0 rest rest
  | element {n : Nat} {ts us rest : List Token} :
      Subtree ts us → Subtrees false n us rest → Subtrees false (n + 1) ts rest
  | member {n : Nat} {name : Token} {ts us rest : List Token} :
      name.kind = .string → name.count = 0 → Subtree ts us → Subtrees true n us rest →
      Subtrees true (n + 1) (name :: ts) rest

end

mutual

theorem Subtree.suffix : ∀ {ts rest : List Token}, Subtree ts rest → rest <:+ ts
  | _, _, .scalar _ _ => List.suffix_cons _ _
  | _, _, .container _ h => h.suffix.trans (List.suffix_cons _ _)

theorem Subtrees.suffix : ∀ {isObject : Bool} {n : Nat} {ts rest : List Token},
    Subtrees isObject n ts rest → rest <:+ ts
  | _, _, _, _, .nil => List.suffix_refl _
  | _, _, _, _, .element h hs => hs.suffix.trans h.suffix
  | _, _, _, _, .member _ _ h hs => (hs.suffix.trans h.suffix).trans (List.suffix_cons _ _)

end

/-- A subtree has a token at least. -/
theorem Subtree.length_lt {ts rest : List Token} (h : Subtree ts rest) :
    rest.length < ts.length := by
  cases h with
  | scalar _ _ => exact Nat.lt_succ_self _
  | container _ h => exact Nat.lt_succ_of_le h.suffix.length_le

/-- The number of entries that `n` children own in their container. -/
def entries (isObject : Bool) (n : Nat) : Nat :=
  if isObject then 2 * n else n

theorem Subtrees.entries_le : ∀ {isObject : Bool} {n : Nat} {ts rest : List Token},
    Subtrees isObject n ts rest → entries isObject n + rest.length ≤ ts.length
  | isObject, _, _, _, .nil => by cases isObject <;> simp [entries]
  | _, _, _, _, .element h hs => by
      have hmore := hs.entries_le
      have hone := h.length_lt
      simp only [entries, Bool.false_eq_true, if_false] at hmore ⊢
      omega
  | _, _, _, _, .member _ _ h hs => by
      have hmore := hs.entries_le
      have hone := h.length_lt
      simp only [entries, if_true, List.length_cons] at hmore ⊢
      omega

/-- The children of a container are values that stand one behind the other, where a name
is a value of its own. -/
theorem Subtrees.values : ∀ {isObject : Bool} {n : Nat} {ts rest : List Token},
    Subtrees isObject n ts rest → Subtrees false (entries isObject n) ts rest
  | isObject, _, _, _, .nil => by
      cases isObject <;> exact .nil
  | _, _, _, _, .element h hs => .element h hs.values
  | _, _, _, _, .member hkind hcount h hs =>
      .element (.scalar (by rw [hkind]; rfl) hcount) (.element h hs.values)

/-- The children of a container stand behind its token. -/
theorem Subtree.children {t : Token} {ts rest : List Token} (h : Subtree (t :: ts) rest)
    {isObject : Bool} (hkind : t.kind = containerKind isObject) :
    Subtrees isObject t.count ts rest := by
  cases h with
  | scalar hscalar _ =>
      rw [hkind] at hscalar
      cases isObject <;> cases hscalar
  | @container _ other _ _ hother hchildren =>
      rw [hkind] at hother
      cases isObject <;> cases other <;> first | exact hchildren | cases hother

mutual

/-- A subtree begins at every token of a subtree: a name is one on its own. -/
theorem Subtree.of_suffix : ∀ {ts rest us : List Token}, Subtree ts rest → us <:+ ts →
    rest.length < us.length → ∃ left, Subtree us left
  | t :: _, rest, us, .scalar hkind hcount, hus, hlength => by
      rcases List.suffix_cons_iff.mp hus with rfl | hus
      · exact ⟨rest, .scalar hkind hcount⟩
      · exact absurd hus.length_le (Nat.not_le.mpr hlength)
  | t :: _, rest, us, .container hkind h, hus, hlength => by
      rcases List.suffix_cons_iff.mp hus with rfl | hus
      · exact ⟨rest, .container hkind h⟩
      · exact h.of_suffix hus hlength

theorem Subtrees.of_suffix : ∀ {isObject : Bool} {n : Nat} {ts rest us : List Token},
    Subtrees isObject n ts rest → us <:+ ts → rest.length < us.length → ∃ left, Subtree us left
  | _, _, _, _, _, .nil, hus, hlength => absurd hus.length_le (Nat.not_le.mpr hlength)
  | _, _, _, _, us, @Subtrees.element _ _ left _ h hs, hus, hlength => by
      rcases Nat.lt_or_ge left.length us.length with hlong | hshort
      · exact h.of_suffix hus hlong
      · exact hs.of_suffix (List.suffix_of_suffix_length_le hus h.suffix hshort) hlength
  | _, _, _, _, us, @Subtrees.member _ _ _ left _ hkind hcount h hs, hus, hlength => by
      rcases List.suffix_cons_iff.mp hus with rfl | hus
      · exact ⟨_, .scalar (by rw [hkind]; rfl) hcount⟩
      · rcases Nat.lt_or_ge left.length us.length with hlong | hshort
        · exact h.of_suffix hus hlong
        · exact hs.of_suffix (List.suffix_of_suffix_length_le hus h.suffix hshort) hlength

end

/-- A token that owns no entries is passed over on its own. -/
theorem passOver_cons {t : Token} (ht : t.ownedEntries = 0) (pending position : Nat)
    (rest : List Token) :
    passOver (pending + 1) position (t :: rest) = passOver pending (position + 1) rest := by
  rw [passOver, ht, Nat.add_zero]

theorem ownedEntries_scalar {t : Token} (h : t.kind.isContainer = false) : t.ownedEntries = 0 := by
  unfold Token.ownedEntries
  cases hkind : t.kind <;> simp_all [Kind.isContainer]

/-- Where a tape can speak of all the tokens, a container owns as many entries as
its children have. -/
theorem ownedEntries_container {t : Token} {isObject : Bool}
    (hkind : t.kind = containerKind isObject)
    (hsmall : entries isObject t.count ≤ Token.maxEntries) :
    t.ownedEntries = entries isObject t.count := by
  unfold Token.ownedEntries
  rw [hkind]
  cases isObject with
  | false => rfl
  | true => exact Nat.min_eq_left hsmall

mutual

/-- A cursor passes over a subtree as over one value. -/
theorem Subtree.passOver : ∀ {ts rest : List Token}, Subtree ts rest →
    ts.length ≤ Token.maxEntries + rest.length → ∀ pending position : Nat,
    Cursor.passOver (pending + 1) position ts =
      Cursor.passOver pending (position + (ts.length - rest.length)) rest
  | t :: _, rest, .scalar hkind _, _, pending, position => by
      rw [passOver_cons (ownedEntries_scalar hkind), List.length_cons, Nat.add_sub_cancel_left]
  | t :: ts, rest, .container hkind h, hsmall, pending, position => by
      rw [List.length_cons] at hsmall
      have hentries := h.entries_le
      have hlength := h.suffix.length_le
      rw [Cursor.passOver, ownedEntries_container hkind (by omega), h.passOver (by omega),
        List.length_cons]
      congr 1
      omega

/-- Children are passed over as the entries that they have. -/
theorem Subtrees.passOver : ∀ {isObject : Bool} {n : Nat} {ts rest : List Token},
    Subtrees isObject n ts rest → ts.length ≤ Token.maxEntries + rest.length →
    ∀ pending position : Nat,
    Cursor.passOver (pending + entries isObject n) position ts =
      Cursor.passOver pending (position + (ts.length - rest.length)) rest
  | isObject, _, _, _, .nil, _, pending, position => by
      cases isObject <;> simp [entries]
  | _, n + 1, ts, rest, .element h hs, hsmall, pending, position => by
      have hlength := h.length_lt
      have hmore := hs.suffix.length_le
      have hentries : pending + entries false (n + 1) = pending + entries false n + 1 := rfl
      rw [hentries, h.passOver (by omega), hs.passOver (by omega)]
      congr 1
      omega
  | _, n + 1, name :: ts, rest, .member hkind _ h hs, hsmall, pending, position => by
      rw [List.length_cons] at hsmall
      have hlength := h.length_lt
      have hmore := hs.suffix.length_le
      have hname : name.ownedEntries = 0 := ownedEntries_scalar (by rw [hkind]; rfl)
      have hentries : pending + entries true (n + 1) = pending + entries true n + 1 + 1 := by
        simp only [entries, if_true]
        omega
      rw [hentries, passOver_cons hname, h.passOver (by omega), hs.passOver (by omega),
        List.length_cons]
      congr 1
      omega

end

theorem subtree_lexeme (x : Lexeme) (start : Nat) (rest : List Token) :
    Subtree (x.token start :: rest) rest := by
  cases x with
  | word w => cases w <;> exact .scalar rfl rfl
  | number n => exact .scalar rfl rfl
  | string s => exact .scalar rfl rfl

theorem subtrees_child {isObject : Bool} (label : Label isObject) (start : Nat) {n : Nat}
    {ts us rest : List Token} (ht : Subtree ts us) (hrest : Subtrees isObject n us rest) :
    Subtrees isObject (n + 1) (label.tokens start ++ ts) rest := by
  cases label with
  | element => exact .element ht hrest
  | name before s after => exact .member rfl rfl ht hrest

mutual

/-- The counts in the listing of a tree say where the tree ends. -/
theorem Tree.subtree_tokens : ∀ (t : Tree) (start : Nat) (rest : List Token),
    Subtree (t.tokens start ++ rest) rest
  | .scalar x, start, rest => subtree_lexeme x start rest
  | .empty isObject _, _, _ => .container (rfl : _ = containerKind isObject) .nil
  | .container _ children, start, rest =>
      .container rfl (Children.subtrees_tokens children (start + 1) rest)

theorem Children.subtrees_tokens : ∀ {isObject : Bool} (children : Children isObject)
    (start : Nat) (rest : List Token),
    Subtrees isObject children.size (children.tokens start ++ rest) rest
  | _, .last label before t after, start, rest => by
      rw [Children.tokens, Children.size, List.append_assoc]
      exact subtrees_child label start (Tree.subtree_tokens t _ rest) .nil
  | _, .more label before t after others, start, rest => by
      rw [Children.tokens, Children.size, List.append_assoc, List.append_assoc]
      exact subtrees_child label start (Tree.subtree_tokens t _ _)
        (Children.subtrees_tokens others _ rest)

end

/-! Lengths: a token stands for one byte of the text at least. -/

theorem length_lexeme_pos (x : Lexeme) : 0 < x.text.length := by
  obtain ⟨b, rest, htext, -⟩ := Scan.exists_cons_lexeme x
  simp [htext]

theorem length_label_tokens_le {isObject : Bool} (label : Label isObject) (start : Nat) :
    (label.tokens start).length ≤ label.text.length := by
  cases label with
  | element => exact Nat.zero_le _
  | name before s after =>
      simp only [Label.tokens, Label.text, Quoted.text, List.length_append, List.length_cons,
        List.length_nil]
      omega

mutual

theorem Tree.length_tokens_le : ∀ (t : Tree) (start : Nat),
    (t.tokens start).length ≤ t.text.length
  | .scalar x, _ => length_lexeme_pos x
  | .empty isObject inside, _ => by
      simp only [Tree.tokens, Tree.text, List.length_cons, List.length_append, List.length_nil]
      omega
  | .container isObject children, start => by
      have hchildren := Children.length_tokens_le children (start + 1)
      simp only [Tree.tokens, Tree.text, List.length_cons, List.length_append, List.length_nil]
      omega

theorem Children.length_tokens_le : ∀ {isObject : Bool} (children : Children isObject)
    (start : Nat), (children.tokens start).length ≤ children.text.length
  | _, .last label before t after, start => by
      have hlabel := length_label_tokens_le label start
      have ht := Tree.length_tokens_le t (start + label.text.length + before.bytes.length)
      simp only [Children.tokens, Children.text, List.length_append]
      omega
  | _, .more label before t after others, start => by
      have hlabel := length_label_tokens_le label start
      have ht := Tree.length_tokens_le t (start + label.text.length + before.bytes.length)
      have hothers := Children.length_tokens_le others (start + label.text.length +
        before.bytes.length + t.text.length + after.bytes.length + 1)
      simp only [Children.tokens, Children.text, List.length_append, List.length_cons]
      omega

end

/-- A cursor passes over the listing of a tree as over one value. -/
theorem Tree.passOver_tokens (t : Tree) (start : Nat) (hsmall : t.text.length ≤ Token.maxEntries)
    (pending position : Nat) (rest : List Token) :
    passOver (pending + 1) position (t.tokens start ++ rest) =
      passOver pending (position + (t.tokens start).length) rest := by
  have htokens := t.length_tokens_le start
  have hlength : (t.tokens start ++ rest).length = (t.tokens start).length + rest.length :=
    List.length_append
  rw [(t.subtree_tokens start rest).passOver (by omega), hlength, Nat.add_sub_cancel]

end Grammar

end FlatJson
