import FlatJson.Proofs.Decode
import FlatJson.Proofs.Writing

/-!
# Values are read back

A value of finite numbers is written as the text of a derivation that denotes
it, and whose containers are nested as deep as those of the value
(`Value.exists_tree`). A value that was read has finite numbers only, so it is
written, and read again, as the same value.
-/

namespace FlatJson

open Grammar

namespace Value

mutual

/-- All the numbers of a value are finite. -/
def AllFinite : Value → Prop
  | null => True
  | bool _ => True
  | number x => x.isFinite = true
  | string _ => True
  | array xs => ElementsFinite xs
  | object ms => MembersFinite ms

def ElementsFinite : List Value → Prop
  | [] => True
  | x :: xs => AllFinite x ∧ ElementsFinite xs

def MembersFinite : List (String × Value) → Prop
  | [] => True
  | (_, x) :: ms => AllFinite x ∧ MembersFinite ms

end

mutual

/-- The number of containers of a value that lie inside each other. -/
def height : Value → Nat
  | null => 0
  | bool _ => 0
  | number _ => 0
  | string _ => 0
  | array xs => elementsHeight xs + 1
  | object ms => membersHeight ms + 1

def elementsHeight : List Value → Nat
  | [] => 0
  | x :: xs => max (height x) (elementsHeight xs)

def membersHeight : List (String × Value) → Nat
  | [] => 0
  | (_, x) :: ms => max (height x) (membersHeight ms)

end

/-- No blanks. -/
def noBlanks : Blanks := ⟨[], fun b hb => by cases hb⟩

theorem text_last {isObject : Bool} (label : Label isObject) (t : Tree) :
    (Children.last label noBlanks t noBlanks).text = label.text ++ t.text := by
  simp [Children.text, noBlanks]

theorem text_more {isObject : Bool} (label : Label isObject) (t : Tree)
    (others : Children isObject) :
    (Children.more label noBlanks t noBlanks others).text =
      label.text ++ t.text ++ ([Ascii.comma] ++ others.text) := by
  simp [Children.text, noBlanks]

theorem text_name (q : Quoted) :
    (Label.name noBlanks q noBlanks).text = q.text ++ [Ascii.colon] := by
  simp [Label.text, noBlanks]

end Value

/-! A tree without blanks is written piece by piece. -/

namespace Emission

open Value

variable {isObject : Bool} {label : Label isObject} {t : Tree} {children : Children isObject}
variable {d e : Emission}

theorem Writes.last (h : e.Writes (label.text ++ t.text)) :
    e.Writes (Children.last label noBlanks t noBlanks).text := by
  rw [text_last]
  exact h

theorem Writes.more (h : e.Writes (label.text ++ t.text)) (hothers : d.Writes children.text) :
    (e ++ (byte Ascii.comma ++ d)).Writes
      (Children.more label noBlanks t noBlanks children).text := by
  rw [text_more]
  exact h.append ((writes_raw [Ascii.comma]).append hothers)

theorem Writes.member {name : String} {q : Quoted} (hname : (string name).Writes q.text)
    (h : e.Writes t.text) :
    (Emission.member name e).Writes ((Label.name noBlanks q noBlanks).text ++ t.text) := by
  rw [text_name, List.append_assoc]
  exact hname.append ((writes_raw [Ascii.colon]).append h)

theorem writes_empty (isObject : Bool) :
    (byte (opener isObject) ++ byte (closer isObject)).Writes
      (Tree.empty isObject noBlanks).text :=
  (writes_raw [_]).append (writes_raw [_])

theorem Writes.container (h : e.Writes children.text) :
    (byte (opener isObject) ++ (e ++ byte (closer isObject))).Writes
      (Tree.container isObject children).text :=
  (writes_raw [_]).append (h.append (writes_raw [_]))

end Emission

namespace Value

/-- A finite number is written as a literal that denotes it. -/
theorem exists_numeral_writes {x : Binary64} (hx : x.isFinite = true) :
    ∃ n : Numeral, Emission.Writes (Emission.float x) n.literal.text ∧
      (Lexeme.number n).Denotes (.number x) := by
  obtain ⟨n, htext, hround⟩ := Binary.exists_numeral Format.binary64_proper (by decide) hx
  refine ⟨n, ?_, ?_⟩
  · rw [Emission.float, if_pos hx, htext]
    exact Emission.writes_raw _
  · have hfinite : (n.literal.toBinary .binary64).isFinite = true := by rwa [hround]
    have hnumber := Lexeme.Denotes.number hfinite
    rwa [hround] at hnumber

mutual

/-- A value of finite numbers is written as the text of a tree that denotes it. -/
theorem exists_tree : ∀ v : Value, v.AllFinite →
    ∃ t : Tree, Emission.Writes v.emit t.text ∧ t.Denotes v ∧ t.height = v.height
  | .null, _ => ⟨.scalar (.word .null), Emission.writes_raw _, .scalar (.word .null), rfl⟩
  | .bool true, _ => ⟨.scalar (.word .yes), Emission.writes_raw _, .scalar (.word .yes), rfl⟩
  | .bool false, _ => ⟨.scalar (.word .no), Emission.writes_raw _, .scalar (.word .no), rfl⟩
  | .number x, h => by
      obtain ⟨n, hwrites, hdenotes⟩ := exists_numeral_writes h
      exact ⟨.scalar (.number n), hwrites, .scalar hdenotes, rfl⟩
  | .string s, _ => by
      obtain ⟨q, hwrites, hspells⟩ := Escape.exists_quoted s
      exact ⟨.scalar (.string q), hwrites, .scalar (.string hspells), rfl⟩
  | .array [], _ =>
      ⟨.empty false noBlanks, Emission.writes_empty false, .emptyArray _, rfl⟩
  | .array (x :: xs), h => by
      obtain ⟨children, hwrites, hdenotes, hheight⟩ := exists_elements (x :: xs) (by simp) h
      exact ⟨.container false children, hwrites.container, .array hdenotes,
        congrArg (· + 1) hheight⟩
  | .object [], _ =>
      ⟨.empty true noBlanks, Emission.writes_empty true, .emptyObject _, rfl⟩
  | .object (m :: ms), h => by
      obtain ⟨children, hwrites, hdenotes, hheight⟩ := exists_members (m :: ms) (by simp) h
      exact ⟨.container true children, hwrites.container, .object hdenotes,
        congrArg (· + 1) hheight⟩

theorem exists_elements : ∀ xs : List Value, xs ≠ [] → ElementsFinite xs →
    ∃ children : Children false,
      Emission.Writes (Emission.separated (emitElements true xs)) children.text ∧
        children.Elements xs ∧ children.height = elementsHeight xs
  | [], hne, _ => absurd rfl hne
  | [x], _, h => by
      obtain ⟨t, hwrites, hdenotes, hheight⟩ := exists_tree x h.1
      refine ⟨.last .element noBlanks t noBlanks, hwrites.last, .last hdenotes, ?_⟩
      rw [Children.height, hheight]
      exact (Nat.max_zero _).symm
  | x :: y :: ys, _, h => by
      obtain ⟨t, hwrites, hdenotes, hheight⟩ := exists_tree x h.1
      obtain ⟨others, hothers, helements, hheights⟩ := exists_elements (y :: ys) (by simp) h.2
      refine ⟨.more .element noBlanks t noBlanks others, hwrites.more hothers,
        .more hdenotes helements, ?_⟩
      rw [Children.height, hheight, hheights]
      rfl

theorem exists_members : ∀ ms : List (String × Value), ms ≠ [] → MembersFinite ms →
    ∃ children : Children true,
      Emission.Writes (Emission.separated (emitMembers true ms)) children.text ∧
        children.Members ms ∧ children.height = membersHeight ms
  | [], hne, _ => absurd rfl hne
  | [(k, x)], _, h => by
      obtain ⟨q, hname, hspells⟩ := Escape.exists_quoted k
      obtain ⟨t, hwrites, hdenotes, hheight⟩ := exists_tree x h.1
      refine ⟨.last (.name noBlanks q noBlanks) noBlanks t noBlanks, (hname.member hwrites).last,
        .last hspells hdenotes, ?_⟩
      rw [Children.height, hheight]
      exact (Nat.max_zero _).symm
  | (k, x) :: m :: ms, _, h => by
      obtain ⟨q, hname, hspells⟩ := Escape.exists_quoted k
      obtain ⟨t, hwrites, hdenotes, hheight⟩ := exists_tree x h.1
      obtain ⟨others, hothers, hmembers, hheights⟩ := exists_members (m :: ms) (by simp) h.2
      refine ⟨.more (.name noBlanks q noBlanks) noBlanks t noBlanks others,
        (hname.member hwrites).more hothers, .more hspells hdenotes hmembers, ?_⟩
      rw [Children.height, hheight, hheights]
      rfl

end

end Value

namespace Grammar

theorem Lexeme.Denotes.finite {x : Lexeme} {v : Value} (h : x.Denotes v) :
    v.AllFinite ∧ v.height = 0 := by
  cases h with
  | word w => cases w <;> exact ⟨trivial, rfl⟩
  | number hfinite => exact ⟨hfinite, rfl⟩
  | string _ => exact ⟨trivial, rfl⟩

mutual

/-- What a tree denotes has finite numbers, and is as high as the tree. -/
theorem Tree.Denotes.finite : ∀ {t : Tree} {v : Value}, t.Denotes v →
    v.AllFinite ∧ v.height = t.height
  | _, _, .scalar h => h.finite
  | _, _, .emptyArray _ => ⟨trivial, rfl⟩
  | _, _, .emptyObject _ => ⟨trivial, rfl⟩
  | _, _, .array h => ⟨h.finite.1, congrArg (· + 1) h.finite.2⟩
  | _, _, .object h => ⟨h.finite.1, congrArg (· + 1) h.finite.2⟩

theorem Children.Elements.finite : ∀ {children : Children false} {vs : List Value},
    children.Elements vs → Value.ElementsFinite vs ∧ Value.elementsHeight vs = children.height
  | _, _, .last h => by
      rw [Children.height, ← h.finite.2]
      exact ⟨⟨h.finite.1, trivial⟩, Nat.max_zero _⟩
  | _, _, .more h hs => by
      rw [Children.height, ← h.finite.2, ← hs.finite.2]
      exact ⟨⟨h.finite.1, hs.finite.1⟩, rfl⟩

theorem Children.Members.finite : ∀ {children : Children true} {ms : List (String × Value)},
    children.Members ms → Value.MembersFinite ms ∧ Value.membersHeight ms = children.height
  | _, _, .last _ h => by
      rw [Children.height, ← h.finite.2]
      exact ⟨⟨h.finite.1, trivial⟩, Nat.max_zero _⟩
  | _, _, .more _ h hs => by
      rw [Children.height, ← h.finite.2, ← hs.finite.2]
      exact ⟨⟨h.finite.1, hs.finite.1⟩, rfl⟩

end

end Grammar

namespace Codec

/-- What is written of a value of finite numbers is read as that value, with any
limit that is not below the nesting of its containers. -/
theorem exists_writes_value {v : Value} (h : v.AllFinite) :
    ∃ bs, Emission.Writes v.emit bs ∧ ∀ limits : Limits, v.height ≤ limits.maxDepth →
      Codec.value.ofSource limits (.ofBytes bs) = .ok v := by
  obtain ⟨t, hwrites, hdenotes, hheight⟩ := Value.exists_tree v h
  refine ⟨t.text, hwrites, fun limits hlimits => value_ofSource_eq_ok_iff.mpr ?_⟩
  refine ⟨⟨Value.noBlanks, t, Value.noBlanks⟩, ?_, hheight.trans_le hlimits, hdenotes⟩
  exact List.append_nil _

/-- A value of finite numbers goes into every growable sink, and is read back from
what was written; so is every value that was read. -/
theorem value_round_trip :
    (∀ v : Value, v.AllFinite → ∃ bs : Bytes,
      (∀ written : Array UInt8, (Sink.growable written).accept (Codec.value.emit v) =
        (.ok (), .growable (written ++ bs))) ∧
      ∀ limits : Limits, v.height ≤ limits.maxDepth →
        Codec.value.ofSource limits (.ofBytes bs) = .ok v) ∧
    ∀ (d : Bytes) (v : Value), Codec.value.ofBytes d = .ok v → ∃ bs : Bytes,
      Codec.value.toBytes v = .ok bs ∧ Codec.value.ofBytes bs = .ok v := by
  refine ⟨fun v h => exists_writes_value h, fun d v h => ?_⟩
  obtain ⟨doc, -, hheight, hdenotes⟩ := value_ofSource_eq_ok_iff.mp h
  obtain ⟨hfinite, hequal⟩ := hdenotes.finite
  obtain ⟨bs, hwrites, hread⟩ := exists_writes_value hfinite
  exact ⟨bs, Emission.toBytes_of_writes hwrites, hread {} (hequal.trans_le hheight)⟩

/-- An object that has the empty name twice, with a negative zero inside, and the
document `[-0e1]`. -/
theorem value_round_trip_nested :
    (∃ bs : Bytes,
      (∀ written : Array UInt8, (Sink.growable written).accept (Codec.value.emit
          (.object [("", .array [.number ⟨true, 0, by decide⟩]), ("", .null)])) =
        (.ok (), .growable (written ++ bs))) ∧
      Codec.value.ofSource ⟨2⟩ (.ofBytes bs) =
        .ok (.object [("", .array [.number ⟨true, 0, by decide⟩]), ("", .null)])) ∧
    ∃ bs : Bytes, Codec.value.toBytes (.array [.number ⟨true, 0, by decide⟩]) = .ok bs ∧
      Codec.value.ofBytes bs = .ok (.array [.number ⟨true, 0, by decide⟩]) := by
  have hfinite : (Value.object [("", .array [.number ⟨true, 0, by decide⟩]),
      ("", .null)]).AllFinite := ⟨⟨rfl, trivial⟩, trivial, trivial⟩
  have hread : Codec.value.ofBytes [0x5B, 0x2D, 0x30, 0x65, 0x31, 0x5D] =
      .ok (.array [.number ⟨true, 0, by decide⟩]) := by
    have hformed : Literal.WellFormed ⟨true, [0x30], none, some ⟨0x65, none, [0x31]⟩⟩ :=
      ⟨⟨List.cons_ne_nil _ _, List.forall_mem_singleton.mpr rfl⟩, by simp, by simp; decide,
        by simp, by simp [Ascii.IsDigits]; decide⟩
    have hnumber : (Lexeme.number ⟨_, hformed⟩).Denotes (.number ⟨true, 0, by decide⟩) :=
      .number rfl
    exact value_ofSource_eq_ok_iff.mpr ⟨⟨Value.noBlanks, .container false
      (.last .element Value.noBlanks (.scalar (.number _)) Value.noBlanks), Value.noBlanks⟩,
      rfl, Nat.le_of_ble_eq_true rfl, .array (.last (.scalar hnumber))⟩
  obtain ⟨bs, hwrites, hlimits⟩ := value_round_trip.1 _ hfinite
  exact ⟨⟨bs, hwrites, hlimits ⟨2⟩ (by decide)⟩, value_round_trip.2 _ _ hread⟩

end Codec

end FlatJson
