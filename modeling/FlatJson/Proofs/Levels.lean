import FlatJson.Proofs.Parts
import FlatJson.Report

/-!
# The levels of a listing

The list of the tokens indents each of them by the number of containers that are still open,
which it recovers from counts: a frame for each container, with the number of entries that are
left of it. An exhausted frame stays until the next token, so that frames of zeros may lie on
top where several containers end together. Stacks are compared without them
(`Report.stillOpen`): then the listing of a value takes one entry from the innermost frame, and
changes nothing else (`Grammar.Tree.stillOpen_after`). So every token is listed on its level in
the tree (`Grammar.Tree.levels`), which is the number of containers whose span encloses its own
(`Grammar.Tree.map_enclosing`).
-/

namespace FlatJson

open Grammar

/-- A container encloses a token if its span goes beyond that of the token on both sides. -/
structure Token.Encloses (c t : Token) : Prop where
  container : c.kind.isContainer = true
  start_lt : c.start < t.start
  stop_lt : t.stop < c.stop

instance (c t : Token) : Decidable (c.Encloses t) :=
  decidable_of_iff (c.kind.isContainer = true ∧ c.start < t.start ∧ t.stop < c.stop)
    ⟨fun ⟨hcontainer, hstart, hstop⟩ => ⟨hcontainer, hstart, hstop⟩,
      fun h => ⟨h.container, h.start_lt, h.stop_lt⟩⟩

namespace Report

/-- The frames behind a token. -/
def afterToken (owned : List Nat) (t : Token) : List Nat :=
  if t.kind.isContainer then t.ownedEntries :: takeEntry (stillOpen owned)
  else takeEntry (stillOpen owned)

/-- The frames behind some tokens. -/
def after (owned : List Nat) (ts : List Token) : List Nat :=
  ts.foldl afterToken owned

variable {owned : List Nat}

theorem levels_cons (owned : List Nat) (t : Token) (ts : List Token) :
    levels owned (t :: ts) = (stillOpen owned).length :: levels (afterToken owned t) ts := rfl

theorem levels_append (owned : List Nat) (ts us : List Token) :
    levels owned (ts ++ us) = levels owned ts ++ levels (after owned ts) us := by
  induction ts generalizing owned with
  | nil => rfl
  | cons t ts ih =>
      rw [List.cons_append, levels_cons, levels_cons, ih]
      rfl

theorem after_cons (owned : List Nat) (t : Token) (ts : List Token) :
    after owned (t :: ts) = after (afterToken owned t) ts := rfl

theorem after_singleton (owned : List Nat) (t : Token) : after owned [t] = afterToken owned t := rfl

theorem after_append (owned : List Nat) (ts us : List Token) :
    after owned (ts ++ us) = after (after owned ts) us :=
  List.foldl_append

theorem stillOpen_zero (owned : List Nat) : stillOpen (0 :: owned) = stillOpen owned := rfl

theorem forall_eq_zero_of_stillOpen (h : stillOpen owned = []) : ∀ n ∈ owned, n = 0 := by
  simpa [stillOpen] using h

theorem exists_succ_of_stillOpen (h : stillOpen owned ≠ []) :
    ∃ n outer, stillOpen owned = (n + 1) :: outer := by
  induction owned with
  | nil => exact absurd rfl h
  | cons n owned ih =>
      cases n with
      | zero => exact ih h
      | succ n => exact ⟨n, owned, rfl⟩

theorem length_takeEntry (owned : List Nat) : (takeEntry owned).length = owned.length := by
  cases owned <;> rfl

/-- The number of containers among some tokens whose span encloses that of a token. -/
def enclosing (ts : List Token) (t : Token) : Nat :=
  ts.countP fun c => c.Encloses t

theorem enclosing_cons (c : Token) (ts : List Token) (t : Token) :
    enclosing (c :: ts) t = enclosing ts t + if c.Encloses t then 1 else 0 := by
  simp only [enclosing, List.countP_cons, decide_eq_true_eq]

theorem enclosing_append (ts us : List Token) (t : Token) :
    enclosing (ts ++ us) t = enclosing ts t + enclosing us t :=
  List.countP_append

theorem enclosing_eq_zero {ts : List Token} {t : Token} (h : ∀ c ∈ ts, ¬c.Encloses t) :
    enclosing ts t = 0 :=
  List.countP_eq_zero.mpr fun c hc => by
    simpa only [decide_eq_true_eq] using h c hc

theorem enclosing_pos {ts : List Token} {c t : Token} (hc : c ∈ ts) (h : c.Encloses t) :
    0 < enclosing ts t :=
  List.countP_pos_iff.mpr ⟨c, hc, decide_eq_true h⟩

/-- Where one list of tokens ends in front of another, no container of the one encloses a token
of the other. -/
theorem map_enclosing_append {text : Bytes} {depth first middle last : Nat} {ts us : List Token}
    (hts : Parted text depth first middle ts) (hus : Parted text depth middle last us)
    (level : Nat) :
    (ts ++ us).map (fun t => level + enclosing (ts ++ us) t) =
      ts.map (fun t => level + enclosing ts t) ++ us.map (fun t => level + enclosing us t) := by
  rw [List.map_append]
  congr 1
  · refine List.map_congr_left fun t ht => ?_
    have hzero : enclosing us t = 0 := enclosing_eq_zero fun c hc henclosing => by
      have hbefore := hts.within t ht
      have hbehind := hus.within c hc
      have hstart := henclosing.start_lt
      omega
    rw [enclosing_append, hzero, Nat.add_zero]
  · refine List.map_congr_left fun t ht => ?_
    have hzero : enclosing ts t = 0 := enclosing_eq_zero fun c hc henclosing => by
      have hbefore := hts.within c hc
      have hbehind := hus.within t ht
      have hstop := henclosing.stop_lt
      omega
    rw [enclosing_append, hzero, Nat.zero_add]

end Report

namespace Grammar

open Report

/-- The level of the token of a label. -/
def Label.levels (level : Nat) {isObject : Bool} : Label isObject → List Nat
  | .element => []
  | .name _ _ _ => [level]

mutual

/-- The number of containers around each token of a tree, of which `level` are around the
tree. -/
def Tree.levels (level : Nat) : Tree → List Nat
  | .scalar _ => [level]
  | .empty _ _ => [level]
  | .container _ children => level :: children.levels (level + 1)

/-- The same for some children: a name is on the level of its value. -/
def Children.levels (level : Nat) {isObject : Bool} : Children isObject → List Nat
  | .last label _ v _ => label.levels level ++ v.levels level
  | .more label _ v _ others => label.levels level ++ v.levels level ++ others.levels level

end

/-! The frames behind a listing. -/

theorem afterToken_lexeme (owned : List Nat) (x : Lexeme) (start : Nat) :
    afterToken owned (x.token start) = takeEntry (stillOpen owned) := by
  cases x with
  | word w => cases w <;> rfl
  | number n => rfl
  | string q => rfl

/-- The token of a container opens a frame with the entries of its children. -/
theorem afterToken_container (owned : List Nat) {isObject : Bool} (children : Children isObject)
    {start first stop : Nat} (hsmall : (children.tokens start).length ≤ Token.maxEntries) :
    afterToken owned ⟨containerKind isObject, first, stop, children.size⟩ =
      entries isObject children.size :: takeEntry (stillOpen owned) := by
  have hsubtrees := children.subtrees_tokens start []
  rw [List.append_nil] at hsubtrees
  have hentries := hsubtrees.entries_le
  have hcontainer : (containerKind isObject).isContainer = true := by
    cases isObject <;> rfl
  rw [afterToken, if_pos hcontainer]
  exact congrArg (· :: _) (ownedEntries_container rfl ((Nat.le_add_right _ _).trans
    (hentries.trans hsmall)))

theorem afterToken_empty (owned : List Nat) (isObject : Bool) (first stop : Nat) :
    afterToken owned ⟨containerKind isObject, first, stop, 0⟩ =
      0 :: takeEntry (stillOpen owned) := by
  cases isObject <;> rfl

theorem entries_succ (isObject : Bool) (n m : Nat) :
    entries isObject (n + 1) + m = entries isObject n + m + entries isObject 1 := by
  cases isObject <;> simp only [entries, if_true, Bool.false_eq_true, if_false] <;> omega

/-- A child takes the entries of one child, if the listing of its value takes one. -/
theorem stillOpen_after_child {isObject : Bool} (label : Label isObject) (start : Nat)
    {ts : List Token}
    (hts : ∀ owned, stillOpen (after owned ts) = stillOpen (takeEntry (stillOpen owned)))
    {owned outer : List Nat} {n m : Nat}
    (howned : stillOpen owned = stillOpen ((entries isObject (n + 1) + m) :: outer)) :
    stillOpen (after owned (label.tokens start ++ ts)) =
      stillOpen ((entries isObject n + m) :: outer) := by
  rw [entries_succ] at howned
  cases label with
  | element =>
      rw [Label.tokens, List.nil_append, hts, howned]
      rfl
  | name before q behind =>
      -- The name takes one of the two entries, and the value the other.
      have hname : after owned [(Lexeme.string q).token (start + before.bytes.length)] =
          (entries true n + m + 1) :: outer := by
        rw [after_singleton, afterToken_lexeme, howned]
        rfl
      rw [Label.tokens, after_append, hname, hts]
      rfl

mutual

/-- The listing of a tree takes one entry from the innermost frame. -/
theorem Tree.stillOpen_after : ∀ (t : Tree) (start : Nat),
    (t.tokens start).length ≤ Token.maxEntries → ∀ owned,
    stillOpen (after owned (t.tokens start)) = stillOpen (takeEntry (stillOpen owned))
  | .scalar x, start, _, owned => by
      rw [Tree.tokens, after_singleton, afterToken_lexeme]
  | .empty isObject inside, start, _, owned => by
      rw [Tree.tokens, after_singleton, afterToken_empty, stillOpen_zero]
  | .container isObject children, start, hsmall, owned => by
      rw [Tree.tokens, List.length_cons] at hsmall
      have hchildren := Nat.le_of_succ_le hsmall
      rw [Tree.tokens, after_cons, afterToken_container owned children hchildren]
      exact children.stillOpen_after (start + 1) hchildren _ 0 _ rfl

/-- The listing of some children takes their entries. -/
theorem Children.stillOpen_after : ∀ {isObject : Bool} (children : Children isObject)
    (start : Nat), (children.tokens start).length ≤ Token.maxEntries → ∀ owned m outer,
    stillOpen owned = stillOpen ((entries isObject children.size + m) :: outer) →
    stillOpen (after owned (children.tokens start)) = stillOpen (m :: outer)
  | isObject, .last label before t behind, start, hsmall, owned, m, outer, howned => by
      rw [Children.tokens, List.length_append] at hsmall
      rw [Children.tokens,
        stillOpen_after_child label start (t.stillOpen_after _ (by omega)) (n := 0) howned]
      cases isObject <;> simp [entries]
  | isObject, .more label before t behind others, start, hsmall, owned, m, outer, howned => by
      rw [Children.tokens, List.length_append, List.length_append] at hsmall
      -- What the first child leaves in the frame are the entries of the others.
      rw [Children.tokens, after_append]
      refine others.stillOpen_after _ (by omega) _ m outer ?_
      exact stillOpen_after_child label start (t.stillOpen_after _ (by omega)) howned

end

/-! The levels of a listing. -/

theorem levels_child {isObject : Bool} (label : Label isObject) (start : Nat) {ts : List Token}
    {t : Tree} (hts : ∀ owned, Report.levels owned ts = t.levels (stillOpen owned).length)
    {owned outer : List Nat} {n m : Nat}
    (howned : stillOpen owned = stillOpen ((entries isObject (n + 1) + m) :: outer)) :
    Report.levels owned (label.tokens start ++ ts) =
      label.levels (outer.length + 1) ++ t.levels (outer.length + 1) := by
  rw [entries_succ] at howned
  cases label with
  | element =>
      rw [Label.tokens, List.nil_append, hts, howned]
      rfl
  | name before q behind =>
      rw [Label.tokens, List.singleton_append, levels_cons, afterToken_lexeme, hts, howned]
      rfl

mutual

/-- A tree is listed on its levels. -/
theorem Tree.levels_tokens : ∀ (t : Tree) (start : Nat),
    (t.tokens start).length ≤ Token.maxEntries → ∀ owned,
    Report.levels owned (t.tokens start) = t.levels (stillOpen owned).length
  | .scalar x, start, _, owned => rfl
  | .empty isObject inside, start, _, owned => rfl
  | .container isObject children, start, hsmall, owned => by
      rw [Tree.tokens, List.length_cons] at hsmall
      have hchildren := Nat.le_of_succ_le hsmall
      have hbelow := children.levels_tokens (start + 1) hchildren
        (entries isObject children.size :: takeEntry (stillOpen owned)) 0 _ rfl
      rw [Tree.tokens, levels_cons, afterToken_container owned children hchildren, hbelow,
        length_takeEntry, Tree.levels]

/-- Some children are listed on their levels, below the frames of their container and of those
around it. -/
theorem Children.levels_tokens : ∀ {isObject : Bool} (children : Children isObject)
    (start : Nat), (children.tokens start).length ≤ Token.maxEntries → ∀ owned m outer,
    stillOpen owned = stillOpen ((entries isObject children.size + m) :: outer) →
    Report.levels owned (children.tokens start) = children.levels (outer.length + 1)
  | isObject, .last label before t behind, start, hsmall, owned, m, outer, howned => by
      rw [Children.tokens, List.length_append] at hsmall
      have hvalue := t.levels_tokens (start + label.text.length + before.bytes.length) (by omega)
      rw [Children.tokens, Children.levels]
      exact levels_child label start hvalue (n := 0) howned
  | isObject, .more label before t behind others, start, hsmall, owned, m, outer, howned => by
      rw [Children.tokens, List.length_append, List.length_append] at hsmall
      have hvalue := t.levels_tokens (start + label.text.length + before.bytes.length) (by omega)
      have hbehind := stillOpen_after_child label start
        (t.stillOpen_after (start + label.text.length + before.bytes.length) (by omega)) howned
      rw [Children.tokens, levels_append, Children.levels, levels_child label start hvalue howned,
        others.levels_tokens _ (by omega) _ m outer hbehind]

end

/-! The containers around a token. -/

/-- No token encloses itself. -/
theorem map_enclosing_singleton (t : Token) (level : Nat) :
    [t].map (fun u => level + enclosing [t] u) = [level] := by
  have hzero : enclosing [t] t = 0 := enclosing_eq_zero fun c hc henclosing => by
    obtain rfl := List.mem_singleton.mp hc
    exact Nat.lt_irrefl _ henclosing.start_lt
  rw [List.map_singleton, hzero, Nat.add_zero]

/-- A container is enclosed by none of the tokens that it encloses. -/
theorem map_enclosing_cons {c : Token} {ts : List Token} (hts : ∀ t ∈ ts, c.Encloses t)
    (level : Nat) :
    (c :: ts).map (fun t => level + enclosing (c :: ts) t) =
      level :: ts.map fun t => level + 1 + enclosing ts t := by
  have hzero : enclosing (c :: ts) c = 0 := enclosing_eq_zero fun u hu henclosing => by
    rcases List.mem_cons.mp hu with rfl | hu
    · exact Nat.lt_irrefl _ henclosing.start_lt
    · exact Nat.lt_asymm henclosing.start_lt (hts u hu).start_lt
  rw [List.map_cons, hzero, Nat.add_zero]
  refine congrArg (level :: ·) (List.map_congr_left fun t ht => ?_)
  rw [enclosing_cons, if_pos (hts t ht)]
  omega

/-- The first token of a tree encloses the others. -/
theorem Tree.head_encloses {text : Bytes} (t : Tree) {start : Nat} (h : Lies text start t.text) :
    ∀ u ∈ t.inner start, (t.head start).Encloses u := by
  intro u hu
  cases t with
  | scalar x => cases hu
  | empty isObject inside => cases hu
  | container isObject children =>
      have hspan := (children.parted h.tail.left (Nat.le_refl _)).within u hu
      refine ⟨by cases isObject <;> rfl, ?_, ?_⟩
      all_goals
        simp only [Tree.head]
        omega

theorem Label.map_enclosing {isObject : Bool} (label : Label isObject) (start level : Nat) :
    (label.tokens start).map (fun t => level + enclosing (label.tokens start) t) =
      label.levels level := by
  cases label with
  | element => rfl
  | name before q behind => exact map_enclosing_singleton _ level

mutual

/-- The levels of a tree are the numbers of containers around its tokens. -/
theorem Tree.map_enclosing {text : Bytes} : ∀ (t : Tree) (start : Nat), Lies text start t.text →
    ∀ level, (t.tokens start).map (fun u => level + enclosing (t.tokens start) u) =
      t.levels level
  | .scalar x, start, _, level => map_enclosing_singleton _ level
  | .empty isObject inside, start, _, level => map_enclosing_singleton _ level
  | .container isObject children, start, hlies, level => by
      have hhead := (Tree.container isObject children).head_encloses hlies
      rw [Tree.tokens_eq, map_enclosing_cons hhead, Tree.levels]
      exact congrArg (level :: ·) (children.map_enclosing (start + 1) hlies.tail.left (level + 1))

theorem Children.map_enclosing {text : Bytes} : ∀ {isObject : Bool}
    (children : Children isObject) (start : Nat), Lies text start children.text →
    ∀ level, (children.tokens start).map (fun u => level + enclosing (children.tokens start) u) =
      children.levels level
  | isObject, .last label before t behind, start, hlies, level => by
      obtain ⟨hlabel, ht⟩ := Children.lies_last hlies
      have hvalue := (t.parted ht (Nat.le_refl _)).mono (Nat.le_refl _) (Nat.le_add_right _ _)
        (Nat.le_refl _)
      rw [Children.tokens, map_enclosing_append (label.parted hlabel) hvalue,
        label.map_enclosing, t.map_enclosing _ ht, Children.levels]
  | isObject, .more label before t behind others, start, hlies, level => by
      obtain ⟨hlabel, ht, hothers⟩ := Children.lies_more hlies
      have hvalue := (t.parted ht (Nat.le_max_left _ others.height)).mono (Nat.le_refl _)
        (Nat.le_add_right _ _) (Nat.le_refl _)
      have hchild := (label.parted hlabel).append hvalue (Nat.le_add_right _ _) (by omega)
      have hrest := (others.parted hothers (Nat.le_max_right t.height _)).mono (Nat.le_refl _)
        (show start + label.text.length + before.bytes.length + t.text.length ≤ _ by omega)
        (Nat.le_refl _)
      rw [Children.tokens, map_enclosing_append hchild hrest,
        map_enclosing_append (label.parted hlabel) hvalue, label.map_enclosing,
        t.map_enclosing _ ht, others.map_enclosing _ hothers, Children.levels]

end

end Grammar

namespace Report

theorem length_levels (owned : List Nat) (ts : List Token) :
    (levels owned ts).length = ts.length := by
  induction ts generalizing owned with
  | nil => rfl
  | cons t ts ih => rw [levels_cons, List.length_cons, List.length_cons, ih]

/-- What the line of a token shows behind its indentation. -/
def entry (s : Source) (t : Token) : String :=
  s!"{t.kind.name} {t.start}..{t.stop} {content s t}\n"

theorem line_eq (s : Source) (index level : Nat) (t : Token) :
    line s index level t =
      column index ++ " " ++ String.ofList (List.replicate (2 * level) ' ') ++ entry s t := by
  simp only [line, entry, String.append_assoc]
  rfl

theorem lines_zip (s : Source) (level : Token → Nat) (ts : List Token) (index : Nat) :
    lines s index ((ts.map level).zip ts) =
      ts.mapIdx fun i t => line s (index + i) (level t) t := by
  induction ts generalizing index with
  | nil => rfl
  | cons t ts ih =>
      rw [List.map_cons, List.zip_cons_cons, lines, ih, List.mapIdx_cons]
      simp only [Nat.add_zero, Nat.add_assoc, Nat.add_comm 1]

/-- The level of a token is the number of frames that are open in front of it. -/
theorem length_stillOpen_after {owned : List Nat} {level : Token → Nat}
    {ts before rest : List Token} {t : Token} (h : levels owned ts = ts.map level)
    (hsplit : ts = before ++ t :: rest) : (stillOpen (after owned before)).length = level t := by
  rw [hsplit, levels_append, levels_cons, List.map_append, List.map_cons] at h
  have hlengths : (levels owned before).length = (before.map level).length := by
    rw [length_levels, List.length_map]
  exact (List.cons.inj (List.append_inj h hlengths).2).1

/-- The list of a document shows how its tokens are nested. It has a line for each token, which
is indented by two blanks for each container whose span encloses that of the token: so many
containers are around it in the tree, and a name is on the level of its value. In front of each
token as many frames are open, and the innermost, from which an entry is taken, still owns one;
only in front of the first token there is none. All spans lie in the document, and behind the
last token nothing is left in any frame. -/
theorem dump_nested {limits : Limits} {s : Source} {tape : Tape}
    (h : Tape.ofSource limits s = .ok tape) (hlimit : s.limit ≤ Token.maxEntries) :
    (ofSource limits true s).output =
        String.join (tape.tokens.mapIdx fun i t => column i ++ " " ++
            String.ofList (List.replicate (2 * enclosing tape.tokens t) ' ') ++ entry s t) ++
          s!"ok: {s.limit} bytes, {tape.size} tokens\n" ∧
      (∃ d : Document, d.text = s.toBytes ∧ tape.tokens = d.tokens 0 ∧
        tape.tokens.map (enclosing tape.tokens) = d.tree.levels 0) ∧
      (∀ before t rest, tape.tokens = before ++ t :: rest →
        (stillOpen (after [] before)).length = enclosing tape.tokens t ∧
          (before = [] ∨ ∃ n outer, stillOpen (after [] before) = (n + 1) :: outer)) ∧
      (∀ t ∈ tape.tokens, t.start ≤ t.stop ∧ t.stop ≤ s.limit) ∧
      ∀ n ∈ after [] tape.tokens, n = 0 := by
  have hsize : s.toBytes.length = s.limit := Array.length_toList
  obtain ⟨d, htext, -, htokens⟩ : ∃ d : Document, d.text = s.toBytes ∧
      d.tree.height ≤ limits.maxDepth ∧ tape.tokens = d.tokens 0 :=
    Scan.document_eq_ok_iff.mp (Tape.read_fst_eq_ok_iff.mp h)
  have hlies : Lies s.toBytes (0 + d.before.bytes.length) d.tree.text := d.lies_tree htext
  have hsmall : (d.tree.tokens (0 + d.before.bytes.length)).length ≤ Token.maxEntries := by
    have hlength := d.tree.length_tokens_le (0 + d.before.bytes.length)
    have hle := hlies.le_length
    omega
  have henclosing : tape.tokens.map (enclosing tape.tokens) = d.tree.levels 0 := by
    rw [htokens, Document.tokens]
    simpa only [Nat.zero_add] using d.tree.map_enclosing _ hlies 0
  have hlevels : levels [] tape.tokens = tape.tokens.map (enclosing tape.tokens) := by
    rw [henclosing, htokens]
    exact d.tree.levels_tokens _ hsmall []
  refine ⟨?_, ⟨d, htext, htokens, henclosing⟩, fun before t rest hsplit => ?_, fun t ht => ?_, ?_⟩
  · unfold ofSource
    simp only [h, if_true, dump, hlevels, lines_zip, line_eq, Nat.zero_add]
    simp only [String.append_assoc]
    rfl
  · have hframes := length_stillOpen_after hlevels hsplit
    refine ⟨hframes, ?_⟩
    cases before with
    | nil => exact .inl rfl
    | cons c before =>
        -- The root stands in front of the token, and encloses it.
        have htree := d.tree.tokens_eq (0 + d.before.bytes.length)
        rw [← Document.tokens, ← htokens, hsplit, List.cons_append] at htree
        obtain ⟨hroot, hinner⟩ := List.cons.inj htree
        have hencloses : c.Encloses t :=
          hroot ▸ d.tree.head_encloses hlies t (hinner ▸ List.mem_append_right _ List.mem_cons_self)
        have hpos : 0 < enclosing tape.tokens t :=
          enclosing_pos (hsplit ▸ List.mem_cons_self) hencloses
        refine .inr (exists_succ_of_stillOpen fun hnone => ?_)
        rw [← hframes, hnone] at hpos
        exact Nat.lt_irrefl _ hpos
  · have hstands := Tape.stands_of_read h t ht
    exact ⟨hstands.start_le_stop, hsize ▸ hstands.stop_le_length⟩
  · have hclosed : stillOpen (after [] tape.tokens) = [] := by
      rw [htokens]
      exact d.tree.stillOpen_after _ hsmall []
    exact forall_eq_zero_of_stillOpen hclosed

/-- In `[{"":[]},[]]` three containers end together, and the second empty array stands beside
the object. -/
theorem dump_nested_empty :
    Tape.ofSource {} (.ofBytes [0x5B, 0x7B, 0x22, 0x22, 0x3A, 0x5B, 0x5D, 0x7D, 0x2C, 0x5B, 0x5D,
        0x5D]) =
      .ok ⟨[⟨.array, 0, 12, 2⟩, ⟨.object, 1, 8, 1⟩, ⟨.string, 3, 3, 0⟩, ⟨.array, 5, 7, 0⟩,
        ⟨.array, 9, 11, 0⟩]⟩ ∧
    Source.limit (.ofBytes [0x5B, 0x7B, 0x22, 0x22, 0x3A, 0x5B, 0x5D, 0x7D, 0x2C, 0x5B, 0x5D,
        0x5D]) ≤ Token.maxEntries ∧
    (∀ n ∈ after [] [⟨.array, 0, 12, 2⟩, ⟨.object, 1, 8, 1⟩, ⟨.string, 3, 3, 0⟩, ⟨.array, 5, 7, 0⟩,
        ⟨.array, 9, 11, 0⟩], n = 0) ∧
    (stillOpen (after [] [⟨.array, 0, 12, 2⟩, ⟨.object, 1, 8, 1⟩, ⟨.string, 3, 3, 0⟩,
        ⟨.array, 5, 7, 0⟩])).length = 1 := by
  have hread : Tape.ofSource {} (.ofBytes [0x5B, 0x7B, 0x22, 0x22, 0x3A, 0x5B, 0x5D, 0x7D, 0x2C,
      0x5B, 0x5D, 0x5D]) =
        .ok ⟨[⟨.array, 0, 12, 2⟩, ⟨.object, 1, 8, 1⟩, ⟨.string, 3, 3, 0⟩, ⟨.array, 5, 7, 0⟩,
          ⟨.array, 9, 11, 0⟩]⟩ := by
    cbv
  have hlimit : Source.limit (.ofBytes [0x5B, 0x7B, 0x22, 0x22, 0x3A, 0x5B, 0x5D, 0x7D, 0x2C, 0x5B,
      0x5D, 0x5D]) ≤ Token.maxEntries := by
    decide
  obtain ⟨-, -, hframes, -, hclosed⟩ := dump_nested hread hlimit
  refine ⟨hread, hlimit, hclosed, ?_⟩
  have hlevel := (hframes [⟨.array, 0, 12, 2⟩, ⟨.object, 1, 8, 1⟩, ⟨.string, 3, 3, 0⟩,
    ⟨.array, 5, 7, 0⟩] ⟨.array, 9, 11, 0⟩ [] rfl).1
  rw [hlevel]
  decide

end Report

end FlatJson
