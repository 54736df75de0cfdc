import FlatJson.Proofs.Clean
import FlatJson.Proofs.Text.Excerpt

/-!
# Values for people

A value is shown with null in place of every number that is not finite
(`Value.writes_lenient`). It is written up to the first of these numbers: a value with a
hole (`Value.Around`) is written as what stands in front of the hole, what is put there,
and what stands behind it (`Value.Around.exists_emit`), and what stands in front is the
same for people and for a sink as long as its numbers are finite.
-/

namespace FlatJson

namespace Emission

/-- An emission with null for each number that has no numeral. -/
def lenient (e : Emission) : Emission :=
  e.flatMap fun
    | .bytes bs => raw bs
    | .nonFinite _ => null

theorem lenient_append (d e : Emission) : lenient (d ++ e) = d.lenient ++ e.lenient :=
  List.flatMap_append

theorem complete_lenient (e : Emission) : e.lenient.Complete := by
  intro piece hpiece
  obtain ⟨source, -, hsource⟩ := List.mem_flatMap.mp hpiece
  cases source with
  | bytes bs => exact ⟨bs, List.mem_singleton.mp hsource⟩
  | nonFinite name => exact ⟨_, List.mem_singleton.mp hsource⟩

theorem lenient_of_complete {e : Emission} (h : e.Complete) : e.lenient = e := by
  induction e with
  | nil => rfl
  | cons piece e ih =>
      obtain ⟨⟨bs, rfl⟩, hrest⟩ := List.forall_mem_cons.mp h
      exact congrArg (Piece.bytes bs :: ·) (ih hrest)

theorem IsTidy.complete {e : Emission} (h : e.IsTidy) : e.Complete := by
  obtain ⟨bs, hwrites, -⟩ := h
  exact hwrites.complete

theorem lenient_string (s : String) : (string s).lenient = string s :=
  lenient_of_complete (Escape.writes_emit _).complete

theorem lenient_member (name : String) (e : Emission) :
    (member name e).lenient = member name e.lenient := by
  rw [member, lenient_append, lenient_string, lenient_append]
  rfl

theorem lenient_separated : ∀ es : List Emission,
    (separated es).lenient = separated (es.map lenient)
  | [] => rfl
  | [_] => rfl
  | e :: d :: es => by
      rw [separated, lenient_append, lenient_append, lenient_separated (d :: es)]
      · rfl
      · rintro ⟨⟩

theorem lenient_array (es : List Emission) :
    (array es).lenient = array (es.map lenient) := by
  rw [array, lenient_append, lenient_append, lenient_separated]
  rfl

theorem lenient_object (es : List Emission) :
    (object es).lenient = object (es.map lenient) := by
  rw [object, lenient_append, lenient_append, lenient_separated]
  rfl

theorem separated_cons (e : Emission) (es : List Emission) :
    separated (e :: es) = e ++ es.flatMap (byte Ascii.comma ++ ·) := by
  induction es generalizing e with
  | nil => exact (List.append_nil e).symm
  | cons f es ih =>
      rw [separated, ih f, List.flatMap_cons, List.append_assoc]
      rintro ⟨⟩

/-- The elements in front of one of them have a comma behind them, and those behind it
have one in front. -/
theorem separated_append_cons (ds : List Emission) (e : Emission) (es : List Emission) :
    separated (ds ++ e :: es) =
      ds.flatMap (· ++ byte Ascii.comma) ++ (e ++ es.flatMap (byte Ascii.comma ++ ·)) := by
  induction ds with
  | nil => exact separated_cons e es
  | cons d ds ih =>
      obtain ⟨f, fs, hrest⟩ := List.exists_cons_of_ne_nil
        (List.append_ne_nil_of_right_ne_nil ds (List.cons_ne_nil e es))
      rw [List.cons_append, hrest, separated, ← hrest, ih, List.flatMap_cons]
      · simp only [List.append_assoc]
      · rintro ⟨⟩

/-- An emission is put behind some bytes, and in front of others, the same whatever it
is. -/
def Surrounds (f : Emission → Emission) : Prop :=
  ∃ front back : Emission, front.Complete ∧ ∀ e, f e = front ++ (e ++ back)

theorem surrounds_id : Surrounds fun e => e :=
  ⟨[], [], List.forall_mem_nil _, fun e => (List.append_nil e).symm⟩

namespace Surrounds

variable {f : Emission → Emission}

theorem left (h : Surrounds f) {d : Emission} (hd : d.Complete) : Surrounds fun e => d ++ f e := by
  obtain ⟨front, back, hfront, hf⟩ := h
  refine ⟨d ++ front, back, complete_append.mpr ⟨hd, hfront⟩, fun e => ?_⟩
  simp only [hf, List.append_assoc]

theorem right (h : Surrounds f) (d : Emission) : Surrounds fun e => f e ++ d := by
  obtain ⟨front, back, hfront, hf⟩ := h
  refine ⟨front, back ++ d, hfront, fun e => ?_⟩
  simp only [hf, List.append_assoc]

theorem separated (h : Surrounds f) {ds : List Emission} (hds : ∀ d ∈ ds, d.Complete)
    (es : List Emission) : Surrounds fun e => separated (ds ++ f e :: es) := by
  have hfront : Complete (ds.flatMap (· ++ byte Ascii.comma)) := by
    intro piece hpiece
    obtain ⟨d, hd, hmem⟩ := List.mem_flatMap.mp hpiece
    exact complete_append.mpr ⟨hds d hd, (writes_raw [Ascii.comma]).complete⟩ piece hmem
  simp only [separated_append_cons]
  exact (h.right _).left hfront

theorem array (h : Surrounds f) {ds : List Emission} (hds : ∀ d ∈ ds, d.Complete)
    (es : List Emission) : Surrounds fun e => array (ds ++ f e :: es) :=
  ((h.separated hds es).right _).left (writes_raw [Ascii.openBracket]).complete

theorem object (h : Surrounds f) {ds : List Emission} (hds : ∀ d ∈ ds, d.Complete)
    (es : List Emission) : Surrounds fun e => object (ds ++ f e :: es) :=
  ((h.separated hds es).right _).left (writes_raw [Ascii.openBrace]).complete

theorem member (h : Surrounds f) (name : String) : Surrounds fun e => member name (f e) :=
  (h.left (writes_raw [Ascii.colon]).complete).left (Escape.writes_emit _).complete

end Surrounds

/-- A growable sink that comes to a number without a numeral has taken all that stands in
front of it. -/
theorem Writes.accept_nonFinite {front : Emission} {bs : Bytes} (h : front.Writes bs)
    (name : String) (back : Emission) (written : Array UInt8) :
    (Sink.growable written).accept (front ++ (.nonFinite name :: back)) =
      (.error (.write (.of .nonFinite (Utf8.ofString name) (written.size + bs.length))),
        .growable (written ++ bs)) := by
  have hsize : (written ++ bs).size = written.size + bs.length := by
    rw [← Array.length_toList, Array.toList_appendList, List.length_append, Array.length_toList]
  rw [Sink.accept_append (h written), ← hsize]
  rfl

end Emission

open Emission

theorem Binary.length_nonFiniteName_le {f : Format} (x : Binary f) :
    (Utf8.ofString x.nonFiniteName).length ≤ 9 := by
  unfold nonFiniteName
  split
  · decide
  · split <;> decide

namespace Value

mutual

/-- A value with null for each number that is not finite. -/
def lenient : Value → Value
  | null => null
  | bool b => bool b
  | number x => if x.isFinite then number x else null
  | string s => string s
  | array xs => array (lenientElements xs)
  | object ms => object (lenientMembers ms)

def lenientElements : List Value → List Value
  | [] => []
  | x :: xs => lenient x :: lenientElements xs

def lenientMembers : List (String × Value) → List (String × Value)
  | [] => []
  | (k, x) :: ms => (k, lenient x) :: lenientMembers ms

end

mutual

theorem emitWith_false : ∀ v : Value, emitWith false v = v.emit.lenient
  | .null => rfl
  | .bool _ => rfl
  | .number x => by
      change emitNumber false x = (Emission.float x).lenient
      rw [emitNumber, Emission.float]
      cases x.isFinite <;> rfl
  | .string s => (lenient_string s).symm
  | .array xs => by
      rw [emitWith, emitElements_false]
      exact (lenient_array _).symm
  | .object ms => by
      rw [emitWith, emitMembers_false]
      exact (lenient_object _).symm

theorem emitElements_false : ∀ xs : List Value,
    emitElements false xs = (emitElements true xs).map Emission.lenient
  | [] => rfl
  | x :: xs => by
      rw [emitElements, emitWith_false x, emitElements_false xs]
      rfl

theorem emitMembers_false : ∀ ms : List (String × Value),
    emitMembers false ms = (emitMembers true ms).map Emission.lenient
  | [] => rfl
  | (k, x) :: ms => by
      rw [emitMembers, emitWith_false x, emitMembers_false ms, emitMembers, List.map_cons,
        lenient_member]
      rfl

end

mutual

theorem emit_lenient : ∀ v : Value, v.lenient.emit = v.emit.lenient
  | .null => rfl
  | .bool _ => rfl
  | .number x => by
      change (lenient (.number x)).emit = (Emission.float x).lenient
      rw [lenient, Emission.float]
      cases hx : x.isFinite with
      | true =>
          rw [if_pos rfl, if_pos rfl]
          change Emission.float x = _
          rw [Emission.float, if_pos hx]
          rfl
      | false => rfl
  | .string s => (lenient_string s).symm
  | .array xs => by
      change Emission.array (emitElements true (lenientElements xs)) = _
      rw [emitElements_lenient]
      exact (lenient_array _).symm
  | .object ms => by
      change Emission.object (emitMembers true (lenientMembers ms)) = _
      rw [emitMembers_lenient]
      exact (lenient_object _).symm

theorem emitElements_lenient : ∀ xs : List Value,
    emitElements true (lenientElements xs) = (emitElements true xs).map Emission.lenient
  | [] => rfl
  | x :: xs => congrArg₂ List.cons (emit_lenient x) (emitElements_lenient xs)

theorem emitMembers_lenient : ∀ ms : List (String × Value),
    emitMembers true (lenientMembers ms) = (emitMembers true ms).map Emission.lenient
  | [] => rfl
  | (k, x) :: ms =>
      congrArg₂ List.cons
        ((congrArg (Emission.member k) (emit_lenient x)).trans (lenient_member k x.emit).symm)
        (emitMembers_lenient ms)

end

theorem allFinite_lenient (v : Value) : v.lenient.AllFinite :=
  allFinite_of_complete _ (emit_lenient v ▸ complete_lenient _)

/-- A value is shown as it is written with null for each number that is not finite. -/
theorem writes_lenient (v : Value) : v.lenient.emit.Writes (Utf8.ofString v.display) := by
  obtain ⟨bs, hwrites, htidy⟩ := isTidy_emit v.lenient v.allFinite_lenient
  obtain ⟨cs, rfl⟩ := htidy.exists_encode
  have hdisplay : v.display = String.ofList cs := by
    rw [display, emitWith_false, ← emit_lenient, toBytes_of_writes hwrites]
    exact Utf8.lossyString_encode cs
  rwa [hdisplay, Utf8.ofString, String.toList_ofList]

/-- A value of finite numbers is written as it is shown. -/
theorem AllFinite.writes {v : Value} (h : v.AllFinite) :
    v.emit.Writes (Utf8.ofString v.display) := by
  obtain ⟨bs, hwrites, -⟩ := isTidy_emit v h
  rw [← lenient_of_complete hwrites.complete, ← emit_lenient]
  exact writes_lenient v

theorem emitElements_append_cons (before : List Value) (v : Value) (after : List Value) :
    emitElements true (before ++ v :: after) =
      emitElements true before ++ v.emit :: emitElements true after := by
  induction before with
  | nil => rfl
  | cons x before ih => exact congrArg (x.emit :: ·) ih

theorem emitMembers_append_cons (before : List (String × Value)) (name : String) (v : Value)
    (after : List (String × Value)) :
    emitMembers true (before ++ (name, v) :: after) =
      emitMembers true before ++ Emission.member name v.emit :: emitMembers true after := by
  induction before with
  | nil => rfl
  | cons m before ih => exact congrArg (Emission.member m.1 m.2.emit :: ·) ih

/-- A value with a hole in it: the containers that lie around the hole, with what stands
in front of it and behind it in each of them. -/
inductive Around
  | here
  | element (before : List Value) (inside : Around) (after : List Value)
  | member (before : List (String × Value)) (name : String) (inside : Around)
      (after : List (String × Value))

namespace Around

/-- Puts a value into the hole. -/
def fill (v : Value) : Around → Value
  | here => v
  | element before inside after => .array (before ++ inside.fill v :: after)
  | member before name inside after => .object (before ++ (name, inside.fill v) :: after)

/-- The numbers in front of the hole are finite. -/
def FiniteBefore : Around → Prop
  | here => True
  | element before inside _ => ElementsFinite before ∧ inside.FiniteBefore
  | member before _ inside _ => MembersFinite before ∧ inside.FiniteBefore

/-- What is put into the hole is written between what stands in front of it and what
stands behind it. -/
theorem exists_emit (around : Around) (h : around.FiniteBefore) :
    ∃ f, Surrounds f ∧ ∀ v, (around.fill v).emit = f v.emit := by
  induction around with
  | here => exact ⟨_, surrounds_id, fun _ => rfl⟩
  | element before inside after ih =>
      obtain ⟨f, hf, hemit⟩ := ih h.2
      have hbefore (d : Emission) (hd : d ∈ emitElements true before) : d.Complete :=
        (isTidy_elements before h.1 d hd).complete
      refine ⟨_, hf.array hbefore (emitElements true after), fun v => ?_⟩
      rw [← hemit, ← emitElements_append_cons]
      rfl
  | member before name inside after ih =>
      obtain ⟨f, hf, hemit⟩ := ih h.2
      have hbefore (d : Emission) (hd : d ∈ emitMembers true before) : d.Complete :=
        (isTidy_members before h.1 d hd).complete
      refine ⟨_, (hf.member name).object hbefore (emitMembers true after), fun v => ?_⟩
      rw [← hemit, ← emitMembers_append_cons]
      rfl

end Around

mutual

/-- In front of the first of the numbers that are not finite there are finite numbers
only. -/
theorem exists_around : ∀ v : Value, ¬v.AllFinite →
    ∃ (around : Around) (x : Binary64), v = around.fill (.number x) ∧ x.isFinite = false ∧
      around.FiniteBefore
  | .null, h => absurd trivial h
  | .bool _, h => absurd trivial h
  | .number x, h => ⟨.here, x, rfl, Bool.not_eq_true _ ▸ h, trivial⟩
  | .string _, h => absurd trivial h
  | .array xs, h => by
      obtain ⟨before, around, x, after, rfl, hx, hbefore, haround⟩ := exists_around_elements xs h
      exact ⟨.element before around after, x, rfl, hx, hbefore, haround⟩
  | .object ms, h => by
      obtain ⟨before, name, around, x, after, rfl, hx, hbefore, haround⟩ :=
        exists_around_members ms h
      exact ⟨.member before name around after, x, rfl, hx, hbefore, haround⟩

theorem exists_around_elements : ∀ xs : List Value, ¬ElementsFinite xs →
    ∃ (before : List Value) (around : Around) (x : Binary64) (after : List Value),
      xs = before ++ around.fill (.number x) :: after ∧ x.isFinite = false ∧
        ElementsFinite before ∧ around.FiniteBefore
  | [], h => absurd trivial h
  | v :: xs, h => by
      -- The hole is in the first element that has a number which is not finite.
      by_cases hv : v.AllFinite
      · obtain ⟨before, around, x, after, rfl, hx, hbefore, haround⟩ :=
          exists_around_elements xs fun hxs => h ⟨hv, hxs⟩
        exact ⟨v :: before, around, x, after, rfl, hx, ⟨hv, hbefore⟩, haround⟩
      · obtain ⟨around, x, rfl, hx, haround⟩ := exists_around v hv
        exact ⟨[], around, x, xs, rfl, hx, trivial, haround⟩

theorem exists_around_members : ∀ ms : List (String × Value), ¬MembersFinite ms →
    ∃ (before : List (String × Value)) (name : String) (around : Around) (x : Binary64)
        (after : List (String × Value)),
      ms = before ++ (name, around.fill (.number x)) :: after ∧ x.isFinite = false ∧
        MembersFinite before ∧ around.FiniteBefore
  | [], h => absurd trivial h
  | (k, v) :: ms, h => by
      by_cases hv : v.AllFinite
      · obtain ⟨before, name, around, x, after, rfl, hx, hbefore, haround⟩ :=
          exists_around_members ms fun hms => h ⟨hv, hms⟩
        exact ⟨(k, v) :: before, name, around, x, after, rfl, hx, ⟨hv, hbefore⟩, haround⟩
      · obtain ⟨around, x, rfl, hx, haround⟩ := exists_around v hv
        exact ⟨[], k, around, x, ms, rfl, hx, trivial, haround⟩

end

/-- A value is written, to the number in the hole, as it is shown whatever is in the
hole. -/
theorem Around.exists_display (around : Around) (h : around.FiniteBefore) :
    ∃ front back : Bytes,
      (∀ w, Utf8.ofString (around.fill w).display =
        front ++ (Utf8.ofString w.display ++ back)) ∧
      ∀ x : Binary64, x.isFinite = false → ∀ written : Array UInt8,
        (Sink.growable written).accept (around.fill (.number x)).emit =
          (.error (.write ⟨.nonFinite, x.nonFiniteName, written.size + front.length⟩),
            .growable (written ++ front)) := by
  obtain ⟨f, ⟨before, after, hbefore, hf⟩, hemit⟩ := around.exists_emit h
  obtain ⟨front, hfront⟩ := hbefore.exists_writes
  -- What stands behind the hole may have other such numbers, so only its lenient form is
  -- written.
  obtain ⟨back, hback⟩ := (complete_lenient after).exists_writes
  refine ⟨front, back, fun w => ?_, fun x hx written => ?_⟩
  · have hwrites : (around.fill w).lenient.emit.Writes
        (front ++ (Utf8.ofString w.display ++ back)) := by
      rw [emit_lenient, hemit, hf, lenient_append, lenient_append, lenient_of_complete hbefore,
        ← emit_lenient]
      exact hfront.append ((writes_lenient w).append hback)
    exact (writes_lenient _).unique hwrites
  · have hnumber : (number x).emit = [.nonFinite x.nonFiniteName] :=
      if_neg (Bool.eq_false_iff.mp hx)
    rw [hemit, hf, hnumber, List.singleton_append, hfront.accept_nonFinite, WriteFault.of,
      excerpt_ofString (x.length_nonFiniteName_le.trans (by decide))]

theorem display_number {x : Binary64} (hx : x.isFinite = false) :
    Utf8.ofString (number x).display = Utf8.ofString "null" := by
  have hlenient : (number x).lenient = null := if_neg (Bool.eq_false_iff.mp hx)
  have hwrites := writes_lenient (number x)
  rw [hlenient] at hwrites
  exact hwrites.unique (writes_raw _)

/-- Every value is shown, and as the text of the value with null in place of each number
that is not finite. A growable sink takes a value if and only if all of its numbers are
finite, and then takes the bytes that are shown. Otherwise there is a first number that is
not finite. The fault names it, the place is where the null that stands for it is shown,
and the sink has taken what is shown in front of that place. -/
theorem emit_against_display (v : Value) :
    ((emitWith false v).toBytes = .ok (Utf8.ofString v.display) ∧
      v.lenient.emit.toText = .ok v.display) ∧
    (∀ written : Array UInt8,
      ((Sink.growable written).accept v.emit).1 = .ok () ↔ v.AllFinite) ∧
    (v.AllFinite → ∀ written : Array UInt8,
      (Sink.growable written).accept v.emit =
        (.ok (), .growable (written ++ Utf8.ofString v.display))) ∧
    (¬v.AllFinite → ∃ (around : Around) (x : Binary64) (front back : Bytes),
      v = around.fill (.number x) ∧ x.isFinite = false ∧ around.FiniteBefore ∧
      Utf8.ofString v.display = front ++ (Utf8.ofString "null" ++ back) ∧
      (∀ w, Utf8.ofString (around.fill w).display =
        front ++ (Utf8.ofString w.display ++ back)) ∧
      ∀ written : Array UInt8, (Sink.growable written).accept v.emit =
        (.error (.write ⟨.nonFinite, x.nonFiniteName, written.size + front.length⟩),
          .growable (written ++ front))) := by
  refine ⟨⟨?_, (writes_lenient v).toText⟩, fun written => ⟨fun h => ?_, fun h => ?_⟩,
    fun h => h.writes, fun h => ?_⟩
  · rw [emitWith_false, ← emit_lenient]
    exact toBytes_of_writes (writes_lenient v)
  · by_contra hv
    obtain ⟨around, x, rfl, hx, haround⟩ := exists_around v hv
    obtain ⟨front, back, -, hrefused⟩ := around.exists_display haround
    rw [hrefused x hx] at h
    cases h
  · rw [h.writes]
  · obtain ⟨around, x, rfl, hx, haround⟩ := exists_around v h
    obtain ⟨front, back, hshown, hrefused⟩ := around.exists_display haround
    refine ⟨around, x, front, back, rfl, hx, haround, ?_, hshown, hrefused x hx⟩
    rw [hshown, display_number hx]

/-- The value `{"a":true,"b":[-∞,NaN]}`, behind one byte. -/
theorem emit_against_display_nested :
    ∃ front back : Bytes,
      Utf8.ofString (object [("a", .bool true), ("b", .array [
          .number ⟨true, 0x7FF0000000000000, by decide⟩,
          .number ⟨false, 0x7FF8000000000000, by decide⟩])]).display =
        front ++ (Utf8.ofString "null" ++ back) ∧
      (Sink.growable #[0x20]).accept (object [("a", .bool true), ("b", .array [
          .number ⟨true, 0x7FF0000000000000, by decide⟩,
          .number ⟨false, 0x7FF8000000000000, by decide⟩])]).emit =
        (.error (.write ⟨.nonFinite, "-Infinity", 1 + front.length⟩),
          .growable ((#[0x20] : Array UInt8) ++ front)) := by
  have hinfinite : ¬(object [("a", .bool true), ("b", .array [
      .number ⟨true, 0x7FF0000000000000, by decide⟩,
      .number ⟨false, 0x7FF8000000000000, by decide⟩])]).AllFinite :=
    fun h => Bool.false_ne_true h.2.1.1
  obtain ⟨around, x, front, back, -, -, -, hshown, -, haccept⟩ :=
    (emit_against_display _).2.2.2 hinfinite
  -- The first number is told by the first piece that is refused.
  have hfault : ((Sink.growable #[0x20]).accept (object [("a", .bool true), ("b", .array [
      .number ⟨true, 0x7FF0000000000000, by decide⟩,
      .number ⟨false, 0x7FF8000000000000, by decide⟩])]).emit).1 =
        .error (.write (.of .nonFinite (Utf8.ofString "-Infinity") 16)) := rfl
  rw [haccept, WriteFault.of, excerpt_ofString (by decide)] at hfault
  have hname : x.nonFiniteName = "-Infinity" := by
    injection hfault with hfault
    injection hfault with hfault
    injection hfault
  rw [hname] at haccept
  exact ⟨front, back, hshown, haccept _⟩

end Value

end FlatJson
