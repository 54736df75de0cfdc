import FlatJson.Proofs.Record.Fields
import FlatJson.Proofs.Tidy

/-!
# Records are read back

An interface and a record are written as objects whose fields stand in their order, the
version only if there is one, and what is written of a field is read back wherever it
lies. So every record comes back from its text, and every list of records from its bytes
(`ServiceRecord.text_round_trip`).
-/

namespace FlatJson

open Grammar Decoder

namespace Emission

/-- What is written of a member, without blanks around the colon. -/
def WritesMember (e : Emission) (m : Quoted × Tree) : Prop :=
  e.Writes ((Label.name Value.noBlanks m.1 Value.noBlanks).text ++ m.2.text)

theorem Writes.field (name : String) {e : Emission} {t : Tree} (h : e.Writes t.text) :
    (Emission.member name e).WritesMember (.ofString name, t) :=
  (Quoted.writes_ofString name).member h

theorem writes_members : ∀ {es : List Emission} {m : Quoted × Tree} {ms : List (Quoted × Tree)},
    List.Forall₂ WritesMember es (m :: ms) → (separated es).Writes (Children.ofMembers m ms).text
  | [_], _, [], .cons he .nil => he.last
  | _ :: _ :: _, _, _ :: _, .cons he hes => he.more (writes_members hes)

/-- An object is written member by member. -/
theorem writes_object {es : List Emission} {ms : List (Quoted × Tree)}
    (h : List.Forall₂ WritesMember es ms) : (object es).Writes (Tree.object ms).text := by
  cases ms with
  | nil =>
      cases h
      exact writes_empty true
  | cons m ms => exact (writes_members h).container

end Emission

namespace Interface

theorem exists_carries (x : Interface) : ∃ t, codec.Carries t x x ∧ t.height ≤ 1 := by
  obtain ⟨q, hname⟩ := Codec.exists_carries_string x.name
  have hsecure := Codec.carries_bool x.secure
  have hwrites := Emission.writes_object
    (.cons (hname.writes.field "name") (.cons (hsecure.writes.field "secure") .nil))
  have hreads : Reads decode _ x := reads_object hname.reads_tree hsecure.reads_tree
  refine ⟨_, ⟨hwrites, fun hlies => hreads hlies⟩, Tree.height_object_le ?_⟩
  simp [Grammar.Tree.height]

theorem isTidy_emit (x : Interface) : (codec.emit x).IsTidy := by
  refine Emission.isTidy_object ?_
  simp only [List.forall_mem_cons, List.not_mem_nil, false_implies, implies_true, and_true]
  exact ⟨(Emission.isTidy_string x.name).member "name",
    (Emission.isTidy_bool x.secure).member "secure"⟩

end Interface

namespace ServiceRecord

/-- The trees of a version are those that are written and read as it, if there is one. -/
theorem exists_carries_version (version : Option IntType.int32.Member) :
    ∃ v : Option Tree,
      List.Forall₂ Emission.WritesMember
        (version.toList.map fun n => Emission.member "version" (Emission.integer n.val))
        (v.toList.map fun t => (.ofString "version", t)) ∧
      (∀ t ∈ v, Reads (Codec.integer _).option.decode t version ∧ t.height = 0) ∧
      (v = none → version = none) := by
  cases version with
  | none => exact ⟨none, .nil, by simp, fun _ => rfl⟩
  | some n =>
      obtain ⟨l, hn⟩ := Codec.exists_carries_integer .int32 n
      have hnull : (Tree.scalar (.number l)).text ≠ Word.null.text :=
        fun h => by cases Tree.eq_null h
      refine ⟨some (.scalar (.number l)), .cons (hn.writes.field "version") .nil, ?_, by simp⟩
      rintro t ⟨⟩
      exact ⟨(hn.option hnull).reads_tree, rfl⟩

theorem exists_carries (r : ServiceRecord) : ∃ t, codec.Carries t r r ∧ t.height ≤ 3 := by
  obtain ⟨id, hid⟩ := Codec.exists_carries_integer _ r.id
  obtain ⟨definition, hdefinition⟩ := Codec.exists_carries_string r.definition
  obtain ⟨portNumber, hport⟩ := Codec.exists_carries_integer _ r.portNumber
  obtain ⟨interfaces, hinterfaces, hheight⟩ := Codec.exists_carries_list r.interfaces
    fun x _ => x.exists_carries
  obtain ⟨version, hversions, hversion, hnone⟩ := exists_carries_version r.version
  obtain ⟨sequence, hsequence⟩ := Codec.exists_carries_bigInteger r.sequence
  rw [List.map_id'] at hinterfaces
  have hwrites := Emission.writes_object <|
    List.Forall₂.cons (hid.writes.field "id") <|
    .cons (hdefinition.writes.field "serviceDefinition") <|
    .cons (hport.writes.field "port") <|
    .cons (hinterfaces.writes.field "interfaces") <|
    List.rel_append hversions (.cons (hsequence.writes.field "sequence") .nil)
  have hreads : Reads decode _ r := reads_object hid.reads_tree hdefinition.reads_tree
    hport.reads_tree hinterfaces.reads_tree (fun t ht => (hversion t ht).1) hnone
    hsequence.reads_tree
  refine ⟨_, ⟨hwrites, fun hlies => hreads hlies⟩, Tree.height_object_le ?_⟩
  have hversion' : ∀ t ∈ version, t.height ≤ 2 := fun t ht => by simp [(hversion t ht).2]
  simpa [Grammar.Tree.height, or_imp, forall_and, hheight] using hversion'

theorem isTidy_emit (r : ServiceRecord) : (codec.emit r).IsTidy := by
  have hinteger (t : IntType) (n : t.Member) : (Emission.integer n.val).IsTidy := by
    obtain ⟨l, hn⟩ := Codec.exists_carries_integer t n
    exact Emission.isTidy_of_numeral hn.writes
  obtain ⟨l, hsequence⟩ := Codec.exists_carries_bigInteger r.sequence
  have hinterfaces : (Interface.codec.list.emit r.interfaces).IsTidy :=
    Emission.isTidy_array (by simpa using fun x _ => x.isTidy_emit)
  refine Emission.isTidy_object ?_
  simp only [List.forall_mem_append, List.forall_mem_cons, List.forall_mem_map]
  exact ⟨⟨⟨(hinteger _ r.id).member "id", (Emission.isTidy_string r.definition).member _,
    (hinteger _ r.portNumber).member _, hinterfaces.member _, by simp⟩,
    fun n _ => (hinteger _ n).member _⟩, (Emission.isTidy_of_numeral hsequence.writes).member _,
    by simp⟩

/-- Every record is read back from its text, and every list of records from the tape of its
bytes. -/
theorem text_round_trip :
    (∀ r : ServiceRecord, ∃ text : String,
      codec.toText r = .ok text ∧ codec.ofBytes (Utf8.ofString text) = .ok r) ∧
    ∀ rs : List ServiceRecord, ∃ (bs : Bytes) (tape : Tape), codec.list.toBytes rs = .ok bs ∧
      Tape.ofSource {} (.ofBytes bs) = .ok tape ∧
        codec.list.ofTape tape (.ofBytes bs) = .ok rs := by
  refine ⟨fun r => ?_, fun rs => ?_⟩
  · obtain ⟨text, htext, hbytes⟩ := r.isTidy_emit.exists_toText
    obtain ⟨t, hcarries, hheight⟩ := r.exists_carries
    have htree : t.text = Utf8.ofString text := Except.ok.inj (hcarries.toBytes.symm.trans hbytes)
    refine ⟨text, htext, ?_⟩
    rw [← htree]
    exact hcarries.ofSource (hheight.trans (by decide))
  · obtain ⟨t, hcarries, hheight⟩ :=
      Codec.exists_carries_list (c := codec) rs fun r _ => r.exists_carries
    rw [List.map_id'] at hcarries
    have hdepth : t.height ≤ ({} : Limits).maxDepth := hheight.trans (by decide)
    have htape := t.ofSource_text hdepth
    have hread := hcarries.ofSource hdepth
    rw [Codec.ofSource, htape] at hread
    exact ⟨t.text, _, hcarries.toBytes, htape, hread⟩

end ServiceRecord

end FlatJson
