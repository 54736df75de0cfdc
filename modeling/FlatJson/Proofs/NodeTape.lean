import FlatJson.Proofs.AnyShape
import FlatJson.Proofs.Embedding

/-!
# Documents put together by hand are documents

Where all containers of a node are closed and all its leaves can be written, the
node is written as the text of a tree, and the tape of that text mirrors the node:
containers count the children that are there, names are read as they were given, and
a leaf is read off the tape as it is from its own text (`Node.tape_mirrors`). Fields
that are absent leave no trace, and the comma that separates a field from those before
it is due to the fields that are present alone (`Fields.emit_comma`).
-/

namespace FlatJson

open Grammar Decoder

/-! Nodes. -/

mutual

/-- All containers are closed, and all leaves can be written. -/
def Node.Finished {Leaf : Type} (leaf : Leaf → Emission) : Node Leaf → Prop
  | .leaf x => ∃ bs, (leaf x).toBytes = .ok bs
  | .object closed fields => closed = true ∧ fields.Finished leaf
  | .array closed elements => closed = true ∧ elements.Finished leaf

def Fields.Finished {Leaf : Type} (leaf : Leaf → Emission) : Fields Leaf → Prop
  | .nil => True
  | .present _ value rest => value.Finished leaf ∧ rest.Finished leaf
  | .absent _ rest => rest.Finished leaf

def Elements.Finished {Leaf : Type} (leaf : Leaf → Emission) : Elements Leaf → Prop
  | .nil => True
  | .cons head rest => head.Finished leaf ∧ rest.Finished leaf

end

mutual

/-- The number of containers that lie inside each other, those of the leaves
included. -/
def Node.depth {Leaf : Type} (nesting : Leaf → Nat) : Node Leaf → Nat
  | .leaf x => nesting x
  | .object _ fields => fields.depth nesting + 1
  | .array _ elements => elements.depth nesting + 1

def Fields.depth {Leaf : Type} (nesting : Leaf → Nat) : Fields Leaf → Nat
  | .nil => 0
  | .present _ value rest => max (value.depth nesting) (rest.depth nesting)
  | .absent _ rest => rest.depth nesting

def Elements.depth {Leaf : Type} (nesting : Leaf → Nat) : Elements Leaf → Nat
  | .nil => 0
  | .cons head rest => max (head.depth nesting) (rest.depth nesting)

end

/-- The number of fields that are present. -/
def Fields.size {Leaf : Type} : Fields Leaf → Nat
  | .nil => 0
  | .present _ _ rest => rest.size + 1
  | .absent _ rest => rest.size

/-- The number of elements. -/
def Elements.size {Leaf : Type} : Elements Leaf → Nat
  | .nil => 0
  | .cons _ rest => rest.size + 1

/-- The depth of a value of some shape. -/
def Shape.nestingValue (v : Σ s : Shape, s.Carrier) : Nat := v.1.nesting v.2

section Commas

variable {Leaf : Type} (leaf : Leaf → Emission)

theorem Fields.emit_of_size_eq_zero : ∀ fields : Fields Leaf, fields.size = 0 →
    ∀ first, fields.emit leaf first = []
  | .nil, _, _ => rfl
  | .absent _ rest, h, first => emit_of_size_eq_zero rest h first

/-- Fields behind others begin with a comma, and are written as they are otherwise. -/
theorem Fields.emit_comma : ∀ fields : Fields Leaf, fields.size ≠ 0 →
    fields.emit leaf false = Emission.byte Ascii.comma ++ fields.emit leaf true
  | .nil, h => absurd rfl h
  | .present _ _ _, _ => by simp [Fields.emit, Emission.commaUnless]
  | .absent _ rest, h => emit_comma rest h

theorem Elements.emit_comma {elements : Elements Leaf} (h : elements.size ≠ 0) :
    elements.emit leaf false = Emission.byte Ascii.comma ++ elements.emit leaf true := by
  cases elements with
  | nil => exact absurd rfl h
  | cons head rest => simp [Elements.emit, Emission.commaUnless]

end Commas

/-! What a tape says of a node. -/

/-- A value stands in front of the tokens `rest`, and its own text in the document. What
is read of it there is what is read of that text alone: the same value, and the cursor
comes to rest behind it; or the same fault, as far on as the text. -/
def Shape.ReadsAlone (limits : Limits) (source : Source) (v : Σ s : Shape, s.Carrier)
    (ts rest : List Token) : Prop :=
  Subtree ts rest ∧ ∃ bs start, v.1.codec.toBytes v.2 = .ok bs ∧ Lies source.toBytes start bs ∧
    ∀ position,
      (∃ y, v.1.codec.ofSource limits (.ofBytes bs) = .ok y ∧
        v.1.codec.decode ⟨source, position, ts⟩ =
          .ok y (Cursor.past ⟨source, position, ts⟩ rest)) ∨
      ∃ fault d, v.1.codec.ofSource limits (.ofBytes bs) = .error (.read fault) ∧
        v.1.codec.decode ⟨source, position, ts⟩ = .error (.read (fault.shift start)) d

mutual

/-- The tokens of a tape, from one place to another, mirror a node. -/
inductive Node.Mirrors (limits : Limits) (source : Source) :
    Node (Σ s : Shape, s.Carrier) → List Token → List Token → Prop
  | leaf {v : Σ s : Shape, s.Carrier} {ts rest : List Token} :
      Shape.ReadsAlone limits source v ts rest → Node.Mirrors limits source (.leaf v) ts rest
  | object {closed : Bool} {fields : Fields (Σ s : Shape, s.Carrier)} {t : Token}
      {ts rest : List Token} : t.kind = .object → t.count = fields.size →
      Fields.Mirrors limits source fields ts rest →
      Node.Mirrors limits source (.object closed fields) (t :: ts) rest
  | array {closed : Bool} {elements : Elements (Σ s : Shape, s.Carrier)} {t : Token}
      {ts rest : List Token} : t.kind = .array → t.count = elements.size →
      Elements.Mirrors limits source elements ts rest →
      Node.Mirrors limits source (.array closed elements) (t :: ts) rest

/-- Each field that is present has a name, which is read as it was given, and a value. -/
inductive Fields.Mirrors (limits : Limits) (source : Source) :
    Fields (Σ s : Shape, s.Carrier) → List Token → List Token → Prop
  | nil (ts : List Token) : Fields.Mirrors limits source .nil ts ts
  | present {name : String} {value : Node (Σ s : Shape, s.Carrier)}
      {others : Fields (Σ s : Shape, s.Carrier)} {t : Token} {ts us rest : List Token} :
      (∀ position, Decoder.key ⟨source, position, t :: ts⟩ = .ok name ⟨source, position + 1, ts⟩) →
      Node.Mirrors limits source value ts us → Fields.Mirrors limits source others us rest →
      Fields.Mirrors limits source (.present name value others) (t :: ts) rest
  | absent {name : String} {others : Fields (Σ s : Shape, s.Carrier)} {ts rest : List Token} :
      Fields.Mirrors limits source others ts rest →
      Fields.Mirrors limits source (.absent name others) ts rest

inductive Elements.Mirrors (limits : Limits) (source : Source) :
    Elements (Σ s : Shape, s.Carrier) → List Token → List Token → Prop
  | nil (ts : List Token) : Elements.Mirrors limits source .nil ts ts
  | cons {head : Node (Σ s : Shape, s.Carrier)} {others : Elements (Σ s : Shape, s.Carrier)}
      {ts us rest : List Token} :
      Node.Mirrors limits source head ts us → Elements.Mirrors limits source others us rest →
      Elements.Mirrors limits source (.cons head others) ts rest

end

/-! Leaves. -/

theorem Shape.readsAlone_of_writes {limits : Limits} {v : Σ s : Shape, s.Carrier} {t : Tree}
    (hwrites : (Shape.emitValue v).Writes t.text) (hheight : t.height ≤ limits.maxDepth)
    {source : Source} {start : Nat} (hlies : Lies source.toBytes start t.text)
    (rest : List Token) : ReadsAlone limits source v (t.tokens start ++ rest) rest := by
  refine ⟨t.subtree_tokens start rest, t.text, start, Emission.toBytes_of_writes hwrites, hlies,
    fun position => ?_⟩
  rw [Cursor.past_append]
  rcases v.1.reads_or_fails t with ⟨y, hy⟩ | ⟨fault, hfails⟩
  · exact .inl ⟨y, hy.ofSource hheight, hy hlies position rest⟩
  · obtain ⟨d, hread⟩ := hfails hlies position rest
    exact .inr ⟨fault, d, hfails.ofSource hheight, hread⟩

/-! Trees of nodes. -/

/-- A node is written as the text of a tree that is no deeper than the node, and where
the tree lies its tokens mirror the node. -/
structure Node.IsWritten (limits : Limits) (x : Node (Σ s : Shape, s.Carrier)) (t : Tree) :
    Prop where
  writes : (x.emit Shape.emitValue).Writes t.text
  height : t.height ≤ x.depth Shape.nestingValue
  mirrors : ∀ {source : Source} {start : Nat}, Lies source.toBytes start t.text →
    ∀ rest, x.Mirrors limits source (t.tokens start ++ rest) rest

structure Fields.AreWritten (limits : Limits) (fields : Fields (Σ s : Shape, s.Carrier))
    (children : Children true) : Prop where
  writes : (fields.emit Shape.emitValue true).Writes children.text
  size : children.size = fields.size
  height : children.height ≤ fields.depth Shape.nestingValue
  mirrors : ∀ {source : Source} {start : Nat}, Lies source.toBytes start children.text →
    ∀ rest, fields.Mirrors limits source (children.tokens start ++ rest) rest

structure Elements.AreWritten (limits : Limits) (elements : Elements (Σ s : Shape, s.Carrier))
    (children : Children false) : Prop where
  writes : (elements.emit Shape.emitValue true).Writes children.text
  size : children.size = elements.size
  height : children.height ≤ elements.depth Shape.nestingValue
  mirrors : ∀ {source : Source} {start : Nat}, Lies source.toBytes start children.text →
    ∀ rest, elements.Mirrors limits source (children.tokens start ++ rest) rest

section Written

variable {limits : Limits}

open Value

theorem Fields.mirrors_of_size_eq_zero {source : Source} (ts : List Token) :
    ∀ fields : Fields (Σ s : Shape, s.Carrier), fields.size = 0 →
      fields.Mirrors limits source ts ts
  | .nil, _ => .nil ts
  | .absent _ rest, h => .absent (mirrors_of_size_eq_zero ts rest h)

theorem Node.isWritten_leaf {v : Σ s : Shape, s.Carrier}
    (hv : ∃ bs, (Shape.emitValue v).toBytes = .ok bs)
    (hdepth : Shape.nestingValue v ≤ limits.maxDepth) :
    ∃ t, (Node.leaf v).IsWritten limits t := by
  obtain ⟨bs, hbs⟩ := hv
  have hfinite := v.1.allFinite_of_complete v.2 (Emission.complete_of_toBytes hbs)
  obtain ⟨t, hwrites, hheight⟩ := v.1.exists_tree v.2 hfinite
  exact ⟨t, hwrites, hheight, fun hlies rest =>
    .leaf (Shape.readsAlone_of_writes hwrites (hheight.trans hdepth) hlies rest)⟩

theorem Node.isWritten_object {fields : Fields (Σ s : Shape, s.Carrier)}
    (h : fields.size ≠ 0 → ∃ children, fields.AreWritten limits children) :
    ∃ t, (Node.object true fields).IsWritten limits t := by
  by_cases hsize : fields.size = 0
  · refine ⟨.empty true noBlanks, ?_, Nat.le_add_left 1 _, fun _ rest => ?_⟩
    · rw [Node.emit, fields.emit_of_size_eq_zero Shape.emitValue hsize, List.append_nil]
      exact Emission.writes_empty true
    · exact .object rfl hsize.symm (fields.mirrors_of_size_eq_zero rest hsize)
  · obtain ⟨children, hchildren⟩ := h hsize
    refine ⟨.container true children, ?_, Nat.succ_le_succ hchildren.height,
      fun hlies rest => ?_⟩
    · rw [Node.emit, List.append_assoc]
      exact hchildren.writes.container
    · exact .object rfl hchildren.size (hchildren.mirrors hlies.tail.left rest)

theorem Node.isWritten_array {elements : Elements (Σ s : Shape, s.Carrier)}
    (h : elements.size ≠ 0 → ∃ children, elements.AreWritten limits children) :
    ∃ t, (Node.array true elements).IsWritten limits t := by
  cases elements with
  | nil =>
      exact ⟨.empty false noBlanks, Emission.writes_empty false, Nat.le_add_left 1 _,
        fun _ rest => .array rfl rfl (.nil rest)⟩
  | cons head others =>
      obtain ⟨children, hchildren⟩ := h (Nat.succ_ne_zero _)
      refine ⟨.container false children, ?_, Nat.succ_le_succ hchildren.height,
        fun hlies rest => ?_⟩
      · rw [Node.emit, List.append_assoc]
        exact hchildren.writes.container
      · exact .array rfl hchildren.size (hchildren.mirrors hlies.tail.left rest)

/-- A field is written as a name with a colon, and the tree of its value. -/
theorem Fields.areWritten_present {name : String} {value : Node (Σ s : Shape, s.Carrier)}
    {t : Tree} (ht : value.IsWritten limits t) {others : Fields (Σ s : Shape, s.Carrier)}
    (h : others.size ≠ 0 → ∃ children, others.AreWritten limits children) :
    ∃ children, (Fields.present name value others).AreWritten limits children := by
  obtain ⟨q, hname⟩ := Codec.exists_carries_string name
  have hmember := hname.writes.member ht.writes
  have hkey {source : Source} {start : Nat}
      (hlies : Lies source.toBytes start (Label.name noBlanks q noBlanks).text)
      (position : Nat) (ts : List Token) :
      Decoder.key ⟨source, position, (Lexeme.string q).token start :: ts⟩ =
        .ok name ⟨source, position + 1, ts⟩ := by
    rw [text_name] at hlies
    exact hname.reads hlies.left position ts
  by_cases hsize : others.size = 0
  · refine ⟨.last (.name noBlanks q noBlanks) noBlanks t noBlanks, ?_, ?_, ?_, ?_⟩
    · rw [Fields.emit, others.emit_of_size_eq_zero Shape.emitValue hsize, List.append_nil]
      exact hmember.last
    · exact (congrArg (· + 1) hsize).symm
    · exact ht.height.trans (le_max_left _ _)
    · intro source start hlies rest
      obtain ⟨hlabel, hvalue⟩ := Children.lies_last hlies
      rw [Children.tokens, List.append_assoc]
      exact .present (fun position => hkey hlabel position _) (ht.mirrors hvalue rest)
        (others.mirrors_of_size_eq_zero rest hsize)
  · obtain ⟨children, hchildren⟩ := h hsize
    refine ⟨.more (.name noBlanks q noBlanks) noBlanks t noBlanks children, ?_, ?_, ?_, ?_⟩
    · rw [Fields.emit, others.emit_comma Shape.emitValue hsize]
      exact hmember.more hchildren.writes
    · exact congrArg (· + 1) hchildren.size
    · exact max_le_max ht.height hchildren.height
    · intro source start hlies rest
      obtain ⟨hlabel, hvalue, hothers⟩ := Children.lies_more hlies
      rw [Children.tokens, List.append_assoc, List.append_assoc]
      exact .present (fun position => hkey hlabel position _) (ht.mirrors hvalue _)
        (hchildren.mirrors hothers rest)

theorem Elements.areWritten_cons {head : Node (Σ s : Shape, s.Carrier)} {t : Tree}
    (ht : head.IsWritten limits t) {others : Elements (Σ s : Shape, s.Carrier)}
    (h : others.size ≠ 0 → ∃ children, others.AreWritten limits children) :
    ∃ children, (Elements.cons head others).AreWritten limits children := by
  cases hothers : others with
  | nil =>
      refine ⟨.last .element noBlanks t noBlanks, ?_, rfl, ht.height.trans (le_max_left _ _), ?_⟩
      · rw [Elements.emit, Elements.emit, List.append_nil]
        exact ht.writes.last
      · intro source start hlies rest
        obtain ⟨-, hvalue⟩ := Children.lies_last hlies
        exact .cons (ht.mirrors hvalue rest) (.nil rest)
  | cons next more =>
      have hsize : others.size ≠ 0 := by
        rw [hothers]
        exact Nat.succ_ne_zero _
      obtain ⟨children, hchildren⟩ := h hsize
      rw [← hothers]
      refine ⟨.more .element noBlanks t noBlanks children, ?_, ?_, ?_, ?_⟩
      · rw [Elements.emit, others.emit_comma Shape.emitValue hsize]
        exact ht.writes.more hchildren.writes
      · exact congrArg (· + 1) hchildren.size
      · exact max_le_max ht.height hchildren.height
      · intro source start hlies rest
        obtain ⟨-, hvalue, hmore⟩ := Children.lies_more hlies
        rw [Children.tokens, List.append_assoc]
        exact .cons (ht.mirrors hvalue _) (hchildren.mirrors hmore rest)

mutual

theorem Node.exists_written : ∀ x : Node (Σ s : Shape, s.Carrier), x.Finished Shape.emitValue →
    x.depth Shape.nestingValue ≤ limits.maxDepth → ∃ t, x.IsWritten limits t
  | .leaf _, hfinished, hdepth => Node.isWritten_leaf hfinished hdepth
  | .object _ fields, ⟨rfl, hfields⟩, hdepth =>
      Node.isWritten_object fun hsize =>
        Fields.exists_written fields hfields ((Nat.le_succ _).trans hdepth) hsize
  | .array _ elements, ⟨rfl, helements⟩, hdepth =>
      Node.isWritten_array fun hsize =>
        Elements.exists_written elements helements ((Nat.le_succ _).trans hdepth) hsize

theorem Fields.exists_written : ∀ fields : Fields (Σ s : Shape, s.Carrier),
    fields.Finished Shape.emitValue → fields.depth Shape.nestingValue ≤ limits.maxDepth →
    fields.size ≠ 0 → ∃ children, fields.AreWritten limits children
  | .nil, _, _, hsize => absurd rfl hsize
  | .present name value rest, ⟨hvalue, hrest⟩, hdepth, _ => by
      obtain ⟨t, ht⟩ := Node.exists_written value hvalue ((le_max_left _ _).trans hdepth)
      exact Fields.areWritten_present ht
        (Fields.exists_written rest hrest ((le_max_right _ _).trans hdepth))
  | .absent name rest, hrest, hdepth, hsize => by
      obtain ⟨children, h⟩ := Fields.exists_written rest hrest hdepth hsize
      exact ⟨children, h.writes, h.size, h.height, fun hlies rest => .absent (h.mirrors hlies rest)⟩

theorem Elements.exists_written : ∀ elements : Elements (Σ s : Shape, s.Carrier),
    elements.Finished Shape.emitValue → elements.depth Shape.nestingValue ≤ limits.maxDepth →
    elements.size ≠ 0 → ∃ children, elements.AreWritten limits children
  | .nil, _, _, hsize => absurd rfl hsize
  | .cons head rest, ⟨hhead, hrest⟩, hdepth, _ => by
      obtain ⟨t, ht⟩ := Node.exists_written head hhead ((le_max_left _ _).trans hdepth)
      exact Elements.areWritten_cons ht
        (Elements.exists_written rest hrest ((le_max_right _ _).trans hdepth))

end

end Written

/-- A node of which all containers are closed, and all leaves can be written, is written
as a document, unless it is too deep, and the tape of the document mirrors it: an object
counts its fields that are present, and has their names in their order, an array counts
its elements, and a leaf is read as it is from its own text. -/
theorem Node.tape_mirrors (x : Node (Σ s : Shape, s.Carrier))
    (hfinished : x.Finished Shape.emitValue) {limits : Limits}
    (hdepth : x.depth Shape.nestingValue ≤ limits.maxDepth) :
    ∃ bs tape, (x.emit Shape.emitValue).toBytes = .ok bs ∧
      Tape.ofSource limits (.ofBytes bs) = .ok tape ∧
      x.Mirrors limits (.ofBytes bs) tape.tokens [] := by
  obtain ⟨t, ht⟩ := x.exists_written hfinished hdepth
  have hlies : Lies (Source.ofBytes t.text).toBytes 0 t.text :=
    ⟨[], [], (List.append_nil _).symm, rfl⟩
  have hmirrors := ht.mirrors hlies []
  rw [List.append_nil] at hmirrors
  exact ⟨t.text, ⟨t.tokens 0⟩, Emission.toBytes_of_writes ht.writes,
    t.ofSource_text (ht.height.trans hdepth), hmirrors⟩

/-- Two fields of no name, and one between them that is absent: `{"":[],"":true}`. -/
theorem Node.tape_mirrors_absent :
    ∃ tape, Tape.ofSource {} (.ofBytes [0x7B, 0x22, 0x22, 0x3A, 0x5B, 0x5D, 0x2C, 0x22, 0x22, 0x3A,
        0x74, 0x72, 0x75, 0x65, 0x7D]) = .ok tape ∧
      Node.Mirrors {} (.ofBytes [0x7B, 0x22, 0x22, 0x3A, 0x5B, 0x5D, 0x2C, 0x22, 0x22, 0x3A,
          0x74, 0x72, 0x75, 0x65, 0x7D])
        (.object true (.present "" (.array true .nil)
          (.absent "left out" (.present "" (.leaf ⟨.bool, true⟩) .nil)))) tape.tokens [] := by
  obtain ⟨bs, tape, hbytes, htape, hmirrors⟩ := Node.tape_mirrors
    (.object true (.present "" (.array true .nil)
      (.absent "left out" (.present "" (.leaf ⟨.bool, true⟩) .nil))))
    ⟨rfl, ⟨rfl, trivial⟩, ⟨_, rfl⟩, trivial⟩
    (show _ ≤ Limits.maxDepth {} by decide)
  have hwritten : (Node.emit Shape.emitValue (.object true (.present "" (.array true .nil)
      (.absent "left out" (.present "" (.leaf ⟨.bool, true⟩) .nil))))).toBytes =
        .ok [0x7B, 0x22, 0x22, 0x3A, 0x5B, 0x5D, 0x2C, 0x22, 0x22, 0x3A, 0x74, 0x72, 0x75, 0x65,
          0x7D] := rfl
  cases hwritten.symm.trans hbytes
  exact ⟨tape, htape, hmirrors⟩

end FlatJson
