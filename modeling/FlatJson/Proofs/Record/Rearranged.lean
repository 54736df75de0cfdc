import FlatJson.Proofs.Record.Fields

/-!
# Records with their members rearranged

A record of a registry is the same whatever the order of its members, and whatever members
of other names stand among them (`ServiceRecord.ofSource_rearranged`); the same is true of
the interfaces inside it. Members of one name keep the order that they have, because the
last one counts (`Grammar.Reordered`). What is added needs no meaning: it is passed over
(`Grammar.Enlarged`).

Taking up a member is an assignment that does not depend on what is known, and assignments
for different names commute (`Decoder.Assigns`). So the first member of a name can be moved
to the front (`Decoder.Gathers.front`), and what is gathered depends on the order of the
members of each name only.
-/

namespace FlatJson

open Grammar Decoder

namespace Grammar

/-- The member has a name. -/
def isNamed (name : String) (m : Quoted × Tree) : Bool :=
  m.1.spelled? == some name

theorem isNamed_iff {name : String} {m : Quoted × Tree} :
    isNamed name m = true ↔ m.1.spelled? = some name :=
  beq_iff_eq

/-- The same members in another order, in which those of one name keep theirs. -/
structure Reordered (ms ns : List (Quoted × Tree)) : Prop where
  perm : ms.Perm ns
  order : ∀ name, ms.filter (isNamed name) = ns.filter (isNamed name)

/-- Members of different names may be put in any order. -/
theorem reordered_of_perm {ms ns : List (Quoted × Tree)} (h : ms.Perm ns)
    (hnodup : (ms.map fun m => m.1.spelled?).Nodup) : Reordered ms ns := by
  refine ⟨h, fun name => ?_⟩
  have hperm := h.filter (isNamed name)
  have hnames := hnodup.sublist
    ((List.filter_sublist (p := isNamed name)).map fun m => m.1.spelled?)
  have hnamed : ∀ m ∈ ms.filter (isNamed name), m.1.spelled? = some name :=
    fun m hm => isNamed_iff.mp (List.mem_filter.mp hm).2
  generalize ms.filter (isNamed name) = ps at *
  match ps with
  | [] => exact hperm.nil_eq
  | [p] => exact (List.singleton_perm.mp hperm)
  | p :: q :: ps =>
      obtain ⟨hp, hq, -⟩ : _ ∧ _ ∧ _ := by simpa using hnamed
      simp [hp, hq] at hnames

/-- Members of names that are not known stand among those there were before, some of whose
values may have been exchanged for values that are alike. -/
inductive Enlarged (known : List String) (alike : String → Tree → Tree → Prop) :
    List (Quoted × Tree) → List (Quoted × Tree) → Prop
  | nil : Enlarged known alike [] []
  | kept (m : Quoted × Tree) {ms ns : List (Quoted × Tree)} :
      Enlarged known alike ms ns → Enlarged known alike (m :: ms) (m :: ns)
  | exchanged {q : Quoted} {name : String} {t u : Tree} {ms ns : List (Quoted × Tree)} :
      q.spelled? = some name → alike name t u → Enlarged known alike ms ns →
      Enlarged known alike ((q, t) :: ms) ((q, u) :: ns)
  | added {q : Quoted} {name : String} (t : Tree) {ms ns : List (Quoted × Tree)} :
      q.spelled? = some name → name ∉ known → Enlarged known alike ms ns →
      Enlarged known alike ms ((q, t) :: ns)

/-- An object has the members of another one in another order, with members of names that
are not known among them. -/
def Tree.Rearranged (known : List String) (alike : String → Tree → Tree → Prop) (t u : Tree) :
    Prop :=
  ∃ ms ps ns, t.members? = some ms ∧ u.members? = some ns ∧ Reordered ms ps ∧
    Enlarged known alike ps ns

theorem Reordered.refl (ms : List (Quoted × Tree)) : Reordered ms ms :=
  ⟨.refl ms, fun _ => rfl⟩

theorem Enlarged.refl {known : List String} {alike : String → Tree → Tree → Prop} :
    ∀ ms : List (Quoted × Tree), Enlarged known alike ms ms
  | [] => .nil
  | m :: ms => .kept m (refl ms)

theorem Tree.rearranged_object {known : List String} {alike : String → Tree → Tree → Prop}
    {ms ps ns : List (Quoted × Tree)} (hreordered : Reordered ms ps)
    (henlarged : Enlarged known alike ps ns) :
    (object ms).Rearranged known alike (object ns) :=
  ⟨ms, ps, ns, members?_object ms, members?_object ns, hreordered, henlarged⟩

/-- An array has elements that are alike, one by one, to those of another one. -/
def Tree.Elementwise (alike : Tree → Tree → Prop) (t u : Tree) : Prop :=
  ∃ ts us, t.elements? = some ts ∧ u.elements? = some us ∧ List.Forall₂ alike ts us

/-- What is left of the order of the members when the first member is taken away. -/
theorem Reordered.exists_front {ms ns : List (Quoted × Tree)} {q : Quoted} {t : Tree}
    {name : String} (h : Reordered ms ((q, t) :: ns)) (hname : q.spelled? = some name) :
    ∃ before after, ms = before ++ (q, t) :: after ∧
      (∀ m ∈ before, m.1.spelled? ≠ some name) ∧ Reordered (before ++ after) ns := by
  have hfirst : isNamed name (q, t) = true := isNamed_iff.mpr hname
  have hfilter := h.order name
  rw [List.filter_cons_of_pos hfirst] at hfilter
  obtain ⟨before, after, rfl, hbefore, -, hafter⟩ := List.filter_eq_cons_iff.mp hfilter
  refine ⟨before, after, rfl, fun m hm => fun hm' => hbefore m hm (isNamed_iff.mpr hm'), ?_, ?_⟩
  · exact (List.perm_middle.symm.trans h.perm).cons_inv
  · intro other
    have horder := h.order other
    rw [List.filter_append, List.filter_cons, List.filter_cons] at horder
    rw [List.filter_append]
    cases hother : isNamed other (q, t) with
    | false => simpa [hother] using horder
    | true =>
        obtain rfl : other = name :=
          Option.some.inj ((isNamed_iff.mp hother).symm.trans hname)
        have hnone : before.filter (isNamed other) = [] :=
          List.filter_eq_nil_iff.mpr fun m hm => hbefore m hm
        rw [hnone] at horder ⊢
        simpa [hother] using horder

end Grammar

namespace Decoder

variable {σ α : Type}

/-- Taking up a member assigns a value to what its name stands for, whatever is known
already; assignments for different names commute, and for a name that is not `known`
there is nothing to assign. -/
structure Assigns (member : σ → String → Decoder σ) (known : List String)
    (assignment : String → (σ → σ) → Prop) : Prop where
  settles : ∀ (name : String) {t : Tree}, t.Small →
    (∃ f, assignment name f ∧ ∀ k, Reads (member k name) t (f k)) ∨
      ∀ k, Rejects (member k name) t
  comm : ∀ {a b : String} {f g : σ → σ}, assignment a f → assignment b g → a ≠ b →
    ∀ k, f (g k) = g (f k)
  ignores : ∀ {name : String}, name ∉ known → ∀ k, member k name = ignore k

variable {member : σ → String → Decoder σ} {known : List String}
  {assignment : String → (σ → σ) → Prop}

/-- What is read of a member is stored. -/
theorem Settles.assigns {read : Decoder α} {t : Tree} (h : Settles read t) {set : α → σ → σ}
    {name : String} (hset : ∀ x, assignment name (set x))
    (hmember : ∀ k, member k name = (read >>= fun x => pure (set x k))) :
    (∃ f, assignment name f ∧ ∀ k, Reads (member k name) t (f k)) ∨
      ∀ k, Rejects (member k name) t := by
  rcases h with ⟨x, hx⟩ | hrejects
  · refine .inl ⟨set x, hset x, fun k => ?_⟩
    rw [hmember]
    exact hx.map fun x => set x k
  · refine .inr fun k => ?_
    rw [hmember]
    exact hrejects.bind _

theorem Assigns.settles_member (h : Assigns member known assignment) {t : Tree} (ht : t.Small)
    (k : σ) (name : String) : Settles (member k name) t := by
  rcases h.settles name ht with ⟨f, -, hread⟩ | hrejects
  · exact .inl ⟨f k, hread k⟩
  · exact .inr (hrejects k)

theorem Assigns.exists_of_reads (h : Assigns member known assignment) {name : String} {t : Tree}
    (ht : t.Small) {k next : σ} (hread : Reads (member k name) t next) :
    ∃ f, assignment name f ∧ next = f k ∧ ∀ other, Reads (member other name) t (f other) := by
  rcases h.settles name ht with ⟨f, hf, hreads⟩ | hrejects
  · exact ⟨f, hf, hread.unique (hreads k), hreads⟩
  · exact absurd (hrejects k) hread.not_rejects

namespace Gathers

variable {k last : σ} {ms ns : List (Quoted × Tree)}

theorem exists_spelled (h : Gathers member k ms last) :
    ∀ m ∈ ms, ∃ name, m.1.spelled? = some name := by
  induction h with
  | nil => simp
  | cons hname _ _ ih =>
      intro m hm
      rcases List.mem_cons.mp hm with rfl | hm
      · exact ⟨_, hname⟩
      · exact ih m hm

/-- The first member of a name can be moved to the front. -/
theorem front (h : Assigns member known assignment) {q : Quoted} {t : Tree} {name : String}
    (hname : q.spelled? = some name) {before after : List (Quoted × Tree)}
    (hbefore : ∀ m ∈ before, m.1.spelled? ≠ some name)
    (hsmall : ∀ m ∈ before ++ (q, t) :: after, m.2.Small)
    (hms : Gathers member k (before ++ (q, t) :: after) last) :
    Gathers member k ((q, t) :: (before ++ after)) last := by
  induction before generalizing k with
  | nil => exact hms
  | cons m before ih =>
      obtain ⟨p, u⟩ := m
      rw [List.cons_append] at hsmall hms
      cases hms with
      | @cons _ next _ _ other _ _ hother hu hrest =>
          have hu' := hsmall (p, u) List.mem_cons_self
          have ht' := hsmall (q, t) (by simp)
          have hfront := ih (fun m hm => hbefore m (List.mem_cons_of_mem _ hm))
            (fun m hm => hsmall m (List.mem_cons_of_mem _ hm)) hrest
          cases hfront with
          | cons hagain ht hlater =>
              obtain rfl := Option.some.inj (hagain.symm.trans hname)
              obtain ⟨f, hf, rfl, hfs⟩ := h.exists_of_reads hu' hu
              obtain ⟨g, hg, rfl, hgs⟩ := h.exists_of_reads ht' ht
              have hne : _ ≠ other := fun heq =>
                hbefore (p, u) List.mem_cons_self (hother.trans (congrArg some heq.symm))
              rw [h.comm hg hf hne] at hlater
              exact .cons hname (hgs k) (.cons hother (hfs (g k)) hlater)

/-- What is gathered depends on the order of the members of each name only. -/
theorem reordered (h : Assigns member known assignment) (hsmall : ∀ m ∈ ms, m.2.Small)
    (horder : Reordered ms ns) (hms : Gathers member k ms last) : Gathers member k ns last := by
  induction ns generalizing ms k with
  | nil =>
      obtain rfl := horder.perm.eq_nil
      exact hms
  | cons n ns ih =>
      obtain ⟨q, t⟩ := n
      obtain ⟨name, hname⟩ := hms.exists_spelled (q, t)
        (horder.perm.mem_iff.mpr List.mem_cons_self)
      obtain ⟨before, after, rfl, hbefore, hothers⟩ := horder.exists_front hname
      cases front h hname hbefore hsmall hms with
      | cons hagain ht hrest =>
          refine .cons hagain ht (ih (fun m hm => hsmall m ?_) hothers hrest)
          rcases List.mem_append.mp hm with hm | hm
          · exact List.mem_append_left _ hm
          · exact List.mem_append_right _ (List.mem_cons_of_mem _ hm)

/-- Members of unknown names change nothing, and neither do values that are alike. -/
theorem enlarged (h : Assigns member known assignment) {alike : String → Tree → Tree → Prop}
    (halike : ∀ {name : String} {t u : Tree}, alike name t u → t.Small → u.Small →
      ∀ {k next : σ}, Reads (member k name) t next → Reads (member k name) u next)
    (hms : ∀ m ∈ ms, m.2.Small) (hns : ∀ n ∈ ns, n.2.Small)
    (henlarged : Enlarged known alike ms ns) (hgathers : Gathers member k ms last) :
    Gathers member k ns last := by
  induction henlarged generalizing k with
  | nil => exact hgathers
  | kept m _ ih =>
      obtain ⟨-, hms'⟩ := List.forall_mem_cons.mp hms
      obtain ⟨-, hns'⟩ := List.forall_mem_cons.mp hns
      cases hgathers with
      | cons hname ht hothers => exact .cons hname ht (ih hms' hns' hothers)
  | exchanged hname hsame _ ih =>
      obtain ⟨ht', hms'⟩ := List.forall_mem_cons.mp hms
      obtain ⟨hu', hns'⟩ := List.forall_mem_cons.mp hns
      cases hgathers with
      | cons hagain ht hothers =>
          obtain rfl := Option.some.inj (hagain.symm.trans hname)
          exact .cons hname (halike hsame ht' hu' ht) (ih hms' hns' hothers)
  | added t hname hunknown _ ih =>
      obtain ⟨ht', hns'⟩ := List.forall_mem_cons.mp hns
      exact .cons hname (reads_ignored (h.ignores hunknown k) ht') (ih hms hns' hgathers)

end Gathers

section Objects

variable {make : Token → σ → Decoder α} {outcome : σ → Option α} {k : σ} {t u : Tree} {x : α}

/-- An object with its members rearranged is read as the same. -/
theorem Reads.rearranged (h : Assigns member known assignment) (hmake : Makes make outcome)
    {alike : String → Tree → Tree → Prop}
    (halike : ∀ {name : String} {t u : Tree}, alike name t u → t.Small → u.Small →
      ∀ {k next : σ}, Reads (member k name) t next → Reads (member k name) u next)
    (ht : t.Small) (hu : u.Small) (htu : t.Rearranged known alike u)
    (hread : Reads (record member k make) t x) : Reads (record member k make) u x := by
  obtain ⟨ms, ps, ns, hms, hns, horder, henlarged⟩ := htu
  have hsmall : ∀ m ∈ ms, m.2.Small := ht.members hms
  have hsettles : ∀ ms, t.members? = some ms → ∀ m ∈ ms, ∀ k name,
      Settles (member k name) m.2 :=
    fun ms hms m hm => h.settles_member (ht.members hms m hm)
  rcases settles_record hmake hsettles k with ⟨qs, last, y, hqs, hgathers, hy⟩ | hrejects
  · obtain rfl := Option.some.inj (hqs.symm.trans hms)
    obtain rfl := hread.unique (reads_record hmake hqs hgathers hy)
    have hreordered := hgathers.reordered h hsmall horder
    refine reads_record hmake hns (hreordered.enlarged h halike (fun p hp => ?_) (hu.members hns)
      henlarged) hy
    exact hsmall p (horder.perm.mem_iff.mpr hp)
  · exact absurd hrejects hread.not_rejects

theorem Assigns.settles_record (h : Assigns member known assignment) (hmake : Makes make outcome)
    (ht : t.Small) (k : σ) : Settles (record member k make) t := by
  have hmembers : ∀ ms, t.members? = some ms → ∀ m ∈ ms, ∀ k name, Settles (member k name) m.2 :=
    fun ms hms m hm => h.settles_member (ht.members hms m hm)
  rcases Decoder.settles_record hmake hmembers k with ⟨ms, last, x, hms, hgathers, hx⟩ | hrejects
  · exact .inl ⟨x, reads_record hmake hms hgathers hx⟩
  · exact .inr hrejects

/-- An array whose elements are exchanged for others that are read as the same is read as the
same list. -/
theorem Reads.elementwise {c : Codec α} {alike : Tree → Tree → Prop}
    (hsettles : ∀ {t : Tree}, t.Small → Settles c.decode t)
    (halike : ∀ {t u : Tree}, alike t u → t.Small → u.Small →
      ∀ {x : α}, Reads c.decode t x → Reads c.decode u x)
    (ht : t.Small) (hu : u.Small) (htu : t.Elementwise alike u) {xs : List α}
    (hread : Reads c.list.decode t xs) : Reads c.list.decode u xs := by
  obtain ⟨ts, us, hts, hus, hall⟩ := htu
  have hsmall := ht.elements hts
  have hothers := hu.elements hus
  have helements := settles_list (c := c) fun ts hts u hu => hsettles (ht.elements hts u hu)
  rcases helements with ⟨vs, ys, hvs, hys⟩ | hrejects
  · obtain rfl := Option.some.inj (hvs.symm.trans hts)
    obtain rfl := hread.unique (reads_list hvs hys)
    refine reads_list hus ?_
    clear hvs hus hts hread
    induction hall generalizing xs with
    | nil =>
        cases hys
        exact .nil
    | cons hfirst _ ih =>
        obtain ⟨hv, hvs⟩ := List.forall_mem_cons.mp hsmall
        obtain ⟨hw, hws⟩ := List.forall_mem_cons.mp hothers
        cases hys with
        | cons hy hys => exact .cons (halike hfirst hv hw hy) (ih hws hvs hys)
  · exact absurd hrejects hread.not_rejects

end Objects

end Decoder

namespace Interface

/-- What a member of an interface assigns. -/
inductive Assignment : String → (Draft → Draft) → Prop
  | name (s : String) : Assignment "name" fun draft => { draft with name := some s }
  | secure (b : Bool) : Assignment "secure" fun draft => { draft with secure := b }
  | ignored {name : String} : name ∉ fields → Assignment name fun draft => draft

theorem assigns_member : Assigns Draft.member fields Assignment where
  settles name t ht := by
    by_cases hname : name ∈ fields
    · simp only [fields, List.mem_cons, List.not_mem_nil, or_false] at hname
      rcases hname with rfl | rfl
      · exact (Shape.string.settles t).assigns .name fun _ => rfl
      · exact (Shape.bool.settles t).assigns .secure fun _ => rfl
    · exact .inl ⟨_, .ignored hname, fun draft => reads_ignored (draft.member_eq_ignore hname) ht⟩
  comm hf hg hne draft := by
    cases hf <;> cases hg <;> first | rfl | contradiction
  ignores hname draft := draft.member_eq_ignore hname

theorem settles_decode {t : Tree} (ht : t.Small) : Settles Interface.decode t := by
  rw [decode]
  exact assigns_member.settles_record makes_result ht {}

/-- An interface with its members in another order, and with members of other names. -/
def Rearranged : Tree → Tree → Prop :=
  Tree.Rearranged fields fun _ => Eq

theorem reads_rearranged {t u : Tree} (h : Rearranged t u) (ht : t.Small) (hu : u.Small)
    {x : Interface} (hread : Reads Interface.decode t x) : Reads Interface.decode u x := by
  rw [decode] at hread ⊢
  refine Reads.rearranged assigns_member makes_result (fun heq _ _ => ?_) ht hu h hread
  subst heq
  exact id

end Interface

namespace ServiceRecord

/-- What a member of a record assigns. -/
inductive Assignment : String → (Draft → Draft) → Prop
  | id (n : (IntType.unsigned 64).Member) :
      Assignment "id" fun draft => { draft with id := some n }
  | definition (s : String) :
      Assignment "serviceDefinition" fun draft => { draft with definition := some s }
  | portNumber (n : (IntType.unsigned 16).Member) :
      Assignment "port" fun draft => { draft with portNumber := some n }
  | interfaces (xs : List Interface) :
      Assignment "interfaces" fun draft => { draft with interfaces := xs }
  | version (n : Option IntType.int32.Member) :
      Assignment "version" fun draft => { draft with version := n }
  | sequence (n : BigInteger) :
      Assignment "sequence" fun draft => { draft with sequence := some n }
  | ignored {name : String} : name ∉ fields → Assignment name fun draft => draft

theorem settles_interfaces {t : Tree} (ht : t.Small) :
    Settles Interface.codec.list.decode t := by
  have helements := settles_list (c := Interface.codec) fun ts hts u hu =>
    Interface.settles_decode (ht.elements hts u hu)
  rcases helements with ⟨ts, xs, hts, hxs⟩ | hrejects
  · exact .inl ⟨xs, reads_list hts hxs⟩
  · exact .inr hrejects

theorem assigns_member : Assigns Draft.member fields Assignment where
  settles name t ht := by
    by_cases hname : name ∈ fields
    · simp only [fields, List.mem_cons, List.not_mem_nil, or_false] at hname
      rcases hname with rfl | rfl | rfl | rfl | rfl | rfl
      · exact ((Shape.integer _).settles t).assigns .id fun _ => rfl
      · exact (Shape.string.settles t).assigns .definition fun _ => rfl
      · exact ((Shape.integer _).settles t).assigns .portNumber fun _ => rfl
      · exact (settles_interfaces ht).assigns .interfaces fun _ => rfl
      · exact ((Shape.option (.integer _)).settles t).assigns .version fun _ => rfl
      · exact (Shape.bigInteger.settles t).assigns .sequence fun _ => rfl
    · exact .inl ⟨_, .ignored hname, fun draft => reads_ignored (draft.member_eq_ignore hname) ht⟩
  comm hf hg hne draft := by
    cases hf <;> cases hg <;> first | rfl | contradiction
  ignores hname draft := draft.member_eq_ignore hname

/-- The values of two members are alike: both are arrays of the interfaces of a record, and
these are rearranged one by one. -/
def Alike (name : String) (t u : Tree) : Prop :=
  name = "interfaces" ∧ t.Elementwise Interface.Rearranged u

theorem reads_alike {name : String} {t u : Tree} (h : Alike name t u) (ht : t.Small)
    (hu : u.Small) {draft next : Draft} (hread : Reads (draft.member name) t next) :
    Reads (draft.member name) u next := by
  obtain ⟨rfl, htu⟩ := h
  have hstored : Reads (Interface.codec.list.decode >>= fun xs =>
      pure { draft with interfaces := xs }) t next := hread
  obtain ⟨xs, hxs, rfl⟩ := (settles_interfaces ht).of_reads_map hstored
  have hother := hxs.elementwise Interface.settles_decode Interface.reads_rearranged ht hu htu
  exact hother.map fun xs => { draft with interfaces := xs }

theorem settles_decode {t : Tree} (ht : t.Small) : Settles ServiceRecord.decode t := by
  rw [decode]
  exact assigns_member.settles_record makes_result ht {}

/-- A record with its members in another order, with members of other names, and with its
interfaces rearranged in the same way. -/
def Rearranged : Tree → Tree → Prop :=
  Tree.Rearranged fields Alike

/-! A record with one interface, and the same record with its number at the end and with a member
of another name in its interface. -/

namespace Sample

def digit (b : UInt8) (h : Ascii.isDigit b = true) : Tree :=
  .scalar (.number ⟨⟨false, [b], none, none⟩, ⟨by simp, List.forall_mem_singleton.mpr h⟩,
    by simp, by simp, by simp, by simp⟩)

def text (s : String) : Tree := .scalar (.string (.ofString s))

/-- The array of one element. -/
def single (t : Tree) : Tree :=
  .container false (.last .element Value.noBlanks t Value.noBlanks)

/-- The members of the interface. -/
def interface : List (Quoted × Tree) :=
  [(.ofString "name", text "i"), (.ofString "secure", .scalar (.word .yes))]

/-- A member of another name, with a list in which there is a string that spells nothing. -/
def unknown : Quoted × Tree :=
  (.ofString "x", single (.scalar (.string ⟨[0x5C, 0x71], .escaped 0x71 .nil⟩)))

/-- The number of the record. -/
def id : Quoted × Tree := (.ofString "id", digit 0x31 rfl)

/-- The other members of the record, in which the interface has the members given. -/
def others (members : List (Quoted × Tree)) : List (Quoted × Tree) :=
  [(.ofString "serviceDefinition", text "s"), (.ofString "port", digit 0x32 rfl),
    (.ofString "interfaces", single (.object members)), (.ofString "sequence", digit 0x33 rfl)]

def document : Document :=
  ⟨Value.noBlanks, .object (id :: others interface), Value.noBlanks⟩

def moved : Document :=
  ⟨Value.noBlanks, .object (others (unknown :: interface) ++ [id]), Value.noBlanks⟩

def record : ServiceRecord :=
  ⟨⟨1, by decide⟩, "s", ⟨2, by decide⟩, [⟨"i", true⟩], none, ⟨[0x33], by decide⟩⟩

theorem text_document : document.text =
    Utf8.ofString ("\x7b\"id\":1,\"serviceDefinition\":\"s\",\"port\":2," ++
      "\"interfaces\":[\x7b\"name\":\"i\",\"secure\":true\x7d],\"sequence\":3\x7d") := by
  decide +kernel

theorem text_moved : moved.text =
    Utf8.ofString ("\x7b\"serviceDefinition\":\"s\",\"port\":2,\"interfaces\":" ++
      "[\x7b\"x\":[\"\\q\"],\"name\":\"i\",\"secure\":true\x7d],\"sequence\":3,\"id\":1\x7d") := by
  decide +kernel

theorem reads_interface : Reads Interface.decode (.object interface) ⟨"i", true⟩ :=
  Interface.reads_object (reads_string (Quoted.spelled?_ofString "i"))
    (Shape.reads_of_decode (s := .bool) rfl)

theorem reads_document : Reads ServiceRecord.decode document.tree record :=
  @reads_object record _ _ _ _ _ none (Shape.reads_of_decode (s := .integer (.unsigned 64)) rfl)
    (reads_string (Quoted.spelled?_ofString "s"))
    (Shape.reads_of_decode (s := .integer (.unsigned 16)) rfl)
    (reads_list rfl (.cons reads_interface .nil)) (by simp) (fun _ => rfl)
    (Shape.reads_of_decode (s := .bigInteger) rfl)

theorem rearranged_interface :
    Interface.Rearranged (.object interface) (.object (unknown :: interface)) :=
  Tree.rearranged_object (.refl interface)
    (.added unknown.2 (Quoted.spelled?_ofString "x") (by decide) (.refl interface))

/-- The number of the record may stand at the end. -/
theorem reordered_id : Reordered (id :: others interface) (others interface ++ [id]) := by
  have hperm : ([id] ++ others interface).Perm (others interface ++ [id]) :=
    List.perm_append_comm
  exact reordered_of_perm hperm (by simp [id, others])

theorem enlarged_others :
    Enlarged fields Alike (others interface ++ [id]) (others (unknown :: interface) ++ [id]) :=
  .kept _ <| .kept _ <| .exchanged (Quoted.spelled?_ofString "interfaces")
    ⟨rfl, _, _, rfl, rfl, .cons rearranged_interface .nil⟩ (.refl _)

theorem rearranged_document : Rearranged document.tree moved.tree :=
  Tree.rearranged_object reordered_id enlarged_others

end Sample

/-- A document that is a record is the same record if its members and those of its interfaces
are put in another order and others are added, as long as it does not get too deep. -/
theorem ofSource_rearranged {limits : Limits} {d e : Document} {r : ServiceRecord}
    (hread : codec.ofSource limits (.ofBytes d.text) = .ok r)
    (hde : Rearranged d.tree e.tree) (hheight : e.tree.height ≤ limits.maxDepth)
    (hd : d.text.length ≤ Token.maxEntries) (he : e.text.length ≤ Token.maxEntries) :
    codec.ofSource limits (.ofBytes e.text) = .ok r := by
  have hrecord := Document.reads_of_ofSource (settles_decode (Document.small_tree hd)) hread
  exact Document.ofSource_of_reads (Reads.rearranged assigns_member makes_result reads_alike
    (Document.small_tree hd) (Document.small_tree he) hde hrecord) hheight

/-- A record with one interface is the same record with its number at the end, and with a list
among the members of the interface in which there is a string that spells nothing. -/
theorem ofSource_rearranged_moved :
    ∃ (d e : Document) (r : ServiceRecord),
      d.text = Utf8.ofString ("\x7b\"id\":1,\"serviceDefinition\":\"s\",\"port\":2," ++
        "\"interfaces\":[\x7b\"name\":\"i\",\"secure\":true\x7d],\"sequence\":3\x7d") ∧
      e.text = Utf8.ofString ("\x7b\"serviceDefinition\":\"s\",\"port\":2,\"interfaces\":" ++
        "[\x7b\"x\":[\"\\q\"],\"name\":\"i\",\"secure\":true\x7d],\"sequence\":3,\"id\":1\x7d") ∧
      r.interfaces = [⟨"i", true⟩] ∧ Rearranged d.tree e.tree ∧
      codec.ofSource {} (.ofBytes d.text) = .ok r ∧
      codec.ofSource {} (.ofBytes e.text) = .ok r := by
  have hread : codec.ofSource {} (.ofBytes Sample.document.text) = .ok Sample.record :=
    Document.ofSource_of_reads Sample.reads_document (Nat.le_of_ble_eq_true rfl)
  have hsame : codec.ofSource {} (.ofBytes Sample.moved.text) = .ok Sample.record :=
    ofSource_rearranged hread Sample.rearranged_document (Nat.le_of_ble_eq_true rfl)
      (by rw [Sample.text_document]; decide) (by rw [Sample.text_moved]; decide)
  exact ⟨Sample.document, Sample.moved, Sample.record, Sample.text_document, Sample.text_moved, rfl,
    Sample.rearranged_document, hread, hsame⟩

end ServiceRecord

end FlatJson
