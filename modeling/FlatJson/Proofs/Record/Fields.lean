import FlatJson.Proofs.Record.Members

/-!
# The fields of the records of a registry

Interfaces and records of a registry are read member by member (`Decoder.record`). This
module says what their fields are called, and what is made of a draft when all the members
have been read.
-/

namespace FlatJson

open Grammar Decoder

namespace Interface

/-- The names of the fields of an interface. -/
def fields : List String := ["name", "secure"]

/-- The interface that a draft has come to, if it has a name. -/
def Draft.result? (draft : Draft) : Option Interface :=
  draft.name.map fun name => ⟨name, draft.secure⟩

theorem makes_result : Makes make Draft.result? := by
  intro object draft c
  obtain ⟨name, secure⟩ := draft
  cases name with
  | some name => rfl
  | none => exact ⟨_, rfl⟩

/-- A member of another name is passed over. -/
theorem Draft.member_eq_ignore (draft : Draft) {name : String} (h : name ∉ fields) :
    draft.member name = ignore draft := by
  simp only [fields, List.mem_cons, List.not_mem_nil, or_false, not_or] at h
  simp [member, h]

/-- An interface whose fields stand in their order. -/
theorem reads_object {x : Interface} {name secure : Tree}
    (hname : Reads Decoder.string name x.name) (hsecure : Reads Decoder.bool secure x.secure) :
    Reads decode (.object [(.ofString "name", name), (.ofString "secure", secure)]) x := by
  have hgathers : Gathers Draft.member {}
      [(.ofString "name", name), (.ofString "secure", secure)] ⟨some x.name, x.secure⟩ :=
    .cons (Quoted.spelled?_ofString "name")
        (hname.map fun s => ({ name := some s } : Draft)) <|
      .cons (Quoted.spelled?_ofString "secure")
        (hsecure.map fun b => ({ name := some x.name, secure := b } : Draft)) <|
      .nil _
  rw [decode]
  exact reads_record makes_result (Tree.members?_object _) hgathers rfl

end Interface

namespace ServiceRecord

/-- The names of the fields of a record. -/
def fields : List String :=
  ["id", "serviceDefinition", "port", "interfaces", "version", "sequence"]

/-- The record that a draft has come to, if nothing is missing. -/
def Draft.result? (draft : Draft) : Option ServiceRecord := do
  let id ← draft.id
  let definition ← draft.definition
  let portNumber ← draft.portNumber
  let sequence ← draft.sequence
  return ⟨id, definition, portNumber, draft.interfaces, draft.version, sequence⟩

theorem makes_result : Makes make Draft.result? := by
  intro object draft c
  obtain ⟨id, definition, portNumber, interfaces, version, sequence⟩ := draft
  cases id with
  | none => exact ⟨_, rfl⟩
  | some id =>
      cases definition with
      | none => exact ⟨_, rfl⟩
      | some definition =>
          cases portNumber with
          | none => exact ⟨_, rfl⟩
          | some portNumber =>
              cases sequence with
              | none => exact ⟨_, rfl⟩
              | some sequence => rfl

theorem Draft.member_eq_ignore (draft : Draft) {name : String} (h : name ∉ fields) :
    draft.member name = ignore draft := by
  simp only [fields, List.mem_cons, List.not_mem_nil, or_false, not_or] at h
  simp [member, h]

/-- A record whose fields stand in their order, with a version or without. -/
theorem reads_object {r : ServiceRecord} {id definition portNumber interfaces sequence : Tree}
    {version : Option Tree} (hid : Reads (Decoder.integer _) id r.id)
    (hdefinition : Reads Decoder.string definition r.definition)
    (hport : Reads (Decoder.integer _) portNumber r.portNumber)
    (hinterfaces : Reads Interface.codec.list.decode interfaces r.interfaces)
    (hversion : ∀ t ∈ version, Reads (Codec.integer _).option.decode t r.version)
    (hnone : version = none → r.version = none)
    (hsequence : Reads BigInteger.form.numeral.decode sequence r.sequence) :
    Reads decode (.object
      ([(.ofString "id", id), (.ofString "serviceDefinition", definition),
          (.ofString "port", portNumber), (.ofString "interfaces", interfaces)] ++
        (version.toList.map fun t => (.ofString "version", t)) ++
        [(.ofString "sequence", sequence)])) r := by
  let front : Draft :=
    { id := r.id, definition := r.definition, portNumber := r.portNumber,
      interfaces := r.interfaces }
  let whole : Draft := { front with version := r.version, sequence := r.sequence }
  have hlast : Gathers Draft.member { front with version := r.version }
      [(.ofString "sequence", sequence)] whole :=
    .cons (Quoted.spelled?_ofString "sequence")
      (hsequence.map fun n =>
        ({ front with version := r.version, sequence := some n } : Draft)) (.nil _)
  have hback : Gathers Draft.member front
      ((version.toList.map fun t => (Quoted.ofString "version", t)) ++
        [(.ofString "sequence", sequence)]) whole := by
    cases version with
    | none =>
        rw [hnone rfl] at hlast
        exact hlast
    | some t =>
        exact .cons (Quoted.spelled?_ofString "version")
          ((hversion t rfl).map fun n => ({ front with version := n } : Draft)) hlast
  have hgathers : Gathers Draft.member {} _ whole :=
    .cons (Quoted.spelled?_ofString "id") (hid.map fun n => ({ id := some n } : Draft)) <|
      .cons (Quoted.spelled?_ofString "serviceDefinition")
        (hdefinition.map fun s => ({ id := r.id, definition := some s } : Draft)) <|
      .cons (Quoted.spelled?_ofString "port")
        (hport.map fun n =>
          ({ id := r.id, definition := r.definition, portNumber := some n } : Draft)) <|
      .cons (Quoted.spelled?_ofString "interfaces")
        (hinterfaces.map fun xs => ({ front with interfaces := xs } : Draft)) hback
  rw [decode]
  exact reads_record makes_result (Tree.members?_object _) hgathers rfl

end ServiceRecord

end FlatJson
