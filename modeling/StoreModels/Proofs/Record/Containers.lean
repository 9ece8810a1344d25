import StoreModels.Proofs.Record.Found

/-!
Edits inside of one container of a model. The container stays the one that is found and recorded, all other properties
say the same, and so the record changes in the entries of this container alone.
-/
namespace StoreModels
open Syntax (Role)

namespace Document
variable {doc doc' : Document} {zone : NodeId → Prop} {loose : List NodeId} {m : Model} {c : Container}
  {e k x d : NodeId}
  {callees : List (List Char)} {record : ModelRecord} {rs : List EntryRecord}

/-- The place of the object literal of a container below its model. -/
structure Holds (doc : Document) (m : Model) (c : Container) (e k : NodeId) : Prop where
  named : doc.entryNamed? m.object c.key.toList = some e
  body : doc.entryBody e = k
  child : e ∈ doc.children m.object
  pair : doc.role e = .pair
  inner : k ∈ doc.children e
  object : doc.role k = .object

namespace Holds

theorem of_container (found : m.containerObject? doc c = .ok (some k)) : ∃ e, doc.Holds m c e k := by
  obtain ⟨e, named, body, child, pair, inner, object⟩ := containerObject?_place found
  exact ⟨e, named, body, child, pair, inner, object⟩

theorem not_below_model (holds : doc.Holds m c e k) (forest : doc.Forest) : ¬ doc.Below k m.object := fun up =>
  forest.not_below_parent holds.child ((Below.child holds.inner).trans up)

theorem not_below_child (holds : doc.Holds m c e k) (forest : doc.Forest) (child : x ∈ doc.children m.object) :
    ¬ doc.Below k x := by
  intro up
  rcases Relation.ReflTransGen.cases_tail up with rfl | ⟨q, higher, edge⟩
  · have same := forest.parent_unique holds.inner child
    exact forest.child_ne holds.child same
  · exact holds.not_below_model forest (forest.parent_unique edge child ▸ higher)

end Holds

namespace Calm

/-! ## Entries by name -/

section
variable (calm : Calm doc doc' zone loose) (sound : doc.Sound) (forest : doc'.Forest) (lt : x < doc.nodes.size)
  (apart : doc.Apart zone x)
include calm sound forest lt apart

theorem entryNamed? (name : List Char) : doc'.entryNamed? x name = doc.entryNamed? x name := by
  rw [Document.entryNamed?, calm.entries sound.forest lt apart.outside, Document.entryNamed?]
  refine congrArg List.getLast? (List.filter_congr fun e member => ?_)
  have child := (mem_entries member).1
  rw [(calm.likeness sound forest).entryIdentifier? ⟨rfl, sound.forest.childLt child, apart.below (.child child)⟩]

theorem entriesNamed (name : List Char) : doc'.entriesNamed x name = doc.entriesNamed x name := by
  rw [Document.entriesNamed, calm.entries sound.forest lt apart.outside, Document.entriesNamed]
  refine List.filter_congr fun e member => ?_
  have child := (mem_entries member).1
  rw [(calm.likeness sound forest).entryName? ⟨rfl, sound.forest.childLt child, apart.below (.child child)⟩]

end

/-- The containers of a model outside of the zone are found as before. -/
theorem containerObject? (calm : Calm doc doc' zone loose) (sound : doc.Sound) (forest : doc'.Forest)
    (lt : m.object < doc.nodes.size) (apart : doc.Apart zone m.object) :
    m.containerObject? doc' c = m.containerObject? doc c := by
  rw [Model.containerObject?, calm.entryNamed? sound forest lt apart, Model.containerObject?]
  cases named : doc.entryNamed? m.object c.key.toList with
  | none => rfl
  | some e =>
    have child := (entryNamed?_some named).1
    have present := sound.forest.childLt child
    have below := below_entryBody child
    have body := calm.entryBody sound present (apart.below (.child child)).outside
    simp only [body, calm.ext.role (sound.forest.below_lt lt below), calm.ext.kind _ (sound.forest.below_lt lt below)]

section
variable (calm : Calm doc doc' zone loose) (sound : doc.Sound) (forest : doc'.Forest) (plain : doc.Plain)
  (roles : ∀ z, zone z → doc.role z = .object ∨ doc.role z = .pair) (holds : doc.Holds m c e k)
  (inside : ∀ z, zone z → doc.Below k z)
include sound holds inside

omit sound in
theorem outside_model (forest : doc.Forest) : ¬ zone m.object := fun here =>
  holds.not_below_model forest (inside _ here)

theorem outside_child (child : x ∈ doc.children m.object) : ¬ zone x := fun here =>
  holds.not_below_child sound.forest child (inside _ here)

theorem apart_child (child : x ∈ doc.children m.object) (other : x ≠ e) : doc.Apart zone x := by
  intro z here under
  have above := (Below.child holds.inner).trans (inside z here)
  exact other (sound.forest.sibling_eq child holds.child under above)

theorem apart_inner (inner : d ∈ doc.children e) (other : d ≠ k) : doc.Apart zone d := by
  intro z here under
  exact other (sound.forest.sibling_eq inner holds.inner under (inside z here))

include calm

theorem entries_model : doc'.entries m.object = doc.entries m.object :=
  calm.entries sound.forest (lt_of_mem_children holds.child) (outside_model holds inside sound.forest)

include forest plain roles

theorem identifier_model (child : x ∈ doc.children m.object) : doc'.entryIdentifier? x = doc.entryIdentifier? x :=
  calm.entryIdentifier? sound forest plain roles (sound.forest.childLt child) (outside_child sound holds inside child)

/-- The container stays where it is. -/
theorem holds_after : doc'.Holds m c e k where
  named := by
    have entries := calm.entries_model sound holds inside
    rw [← holds.named, Document.entryNamed?, Document.entryNamed?, entries]
    refine congrArg List.getLast? (List.filter_congr fun x member => ?_)
    rw [calm.identifier_model sound forest plain roles holds inside (mem_entries member).1]
  body := by
    rw [← holds.body]
    exact calm.entryBody sound (sound.forest.childLt holds.child) (outside_child sound holds inside holds.child)
  child := by
    rw [calm.children _ (lt_of_mem_children holds.child) (outside_model holds inside sound.forest)]
    exact holds.child
  pair := (calm.ext.role (sound.forest.childLt holds.child)).trans holds.pair
  inner := by
    rw [calm.children _ (sound.forest.childLt holds.child) (outside_child sound holds inside holds.child)]
    exact holds.inner
  object := (calm.ext.role (sound.forest.childLt holds.inner)).trans holds.object

/-- The record of the model has the entries of the container that are there now. -/
theorem extractModel_container (run : doc.extractModel callees m = .ok record)
    (recorded : List.Forall₂ (doc'.EntryTells callees c) (doc'.entries k) rs) :
    doc'.extractModel callees m = .ok (record.withEntries rs c) := by
  obtain ⟨before, after, split, named, others⟩ := entryNamed?_split holds.named
  have entries := calm.entries_model sound holds inside
  have distinct : (before ++ e :: after).Nodup := split ▸ (sound.forest.distinct _).filter _
  have like := calm.likeness sound forest
  have same : ∀ xs : List NodeId, (∀ x ∈ xs, x ∈ doc.entries m.object ∧ x ≠ e) → ∀ record,
      doc'.extractEntries callees record xs = doc.extractEntries callees record xs := by
    intro xs known record
    refine like.extractEntries sound.forest callees (List.forall₂_same.mpr fun x member => ?_) record
    obtain ⟨listed, other⟩ := known x member
    have child := (mem_entries listed).1
    exact ⟨rfl, sound.forest.childLt child, apart_child sound holds inside child other⟩
  have sameBefore := same before fun x member => by
    refine ⟨by simp [split, member], ?_⟩
    rintro rfl
    exact List.disjoint_of_nodup_append distinct member (by simp)
  have sameAfter := same after fun x member => by
    refine ⟨by simp [split, member], ?_⟩
    rintro rfl
    exact (List.nodup_cons.mp (List.Nodup.of_append_right distinct)).1 member
  have is : doc.entryProperty? e = some (.container c) := entryProperty?_eq_some.mpr named
  have is' : doc'.entryProperty? e = some (.container c) := by
    refine entryProperty?_eq_some.mpr ?_
    rw [calm.identifier_model sound forest plain roles holds inside holds.child]
    exact named
  have place := calm.holds_after sound forest plain roles holds inside
  have inner : doc'.containerRecords callees c (doc'.entryBody e) = .ok rs := by
    rw [place.body, containerRecords, if_pos place.object]
    exact entryRecords_iff.mpr recorded
  have later : ∀ x ∈ after, doc.entryProperty? x ≠ some (.container c) := fun x member is =>
    others x member (entryProperty?_eq_some.mp is)
  unfold Document.extractModel at run ⊢
  rw [split, extractEntries_append] at run
  rw [entries, split, extractEntries_append, sameBefore]
  obtain ⟨middle, first, run⟩ := bind_eq_ok.mp run
  refine bind_eq_ok.mpr ⟨middle, first, ?_⟩
  obtain ⟨wrong, _⟩ | ⟨_, wrong, _⟩ | ⟨d, old, right, _, tail⟩ := extractEntries_cases run
  · rw [is] at wrong
    cases wrong
  · rw [is] at wrong
    cases wrong
  · rw [is] at right
    cases right
    simp only [extractEntries, is', inner]
    show doc'.extractEntries callees (middle.withEntries rs c) after = _
    rw [sameAfter, ← ModelRecord.withEntries_withEntries middle old rs c]
    exact extractEntries_other later tail rs

/-- The model stands alone, except that the container might have become a model. -/
theorem alone_container (alone : doc.Alone m none) (barren : ∀ x ∈ doc'.children k, doc'.Barren x) :
    doc'.Alone m (some k) := by
  have lt := lt_of_mem_children holds.child
  have outside := outside_model holds inside sound.forest
  have kept : ∀ {x y}, doc.Below m.object x → x ≠ m.object → doc.Apart zone x → doc'.Below x y →
      doc'.role y = .object → doc'.recognize none y = .ok none := by
    intro x y below other apart under object
    refine calm.barren sound forest (sound.forest.below_lt lt below) apart (fun z reach object => ?_) y under object
    refine alone.barren z (below.trans reach) (fun same => ?_) (by simp) object
    exact other (sound.forest.below_antisymm (same ▸ reach) below)
  refine ⟨(calm.ext.role lt).trans alone.object, ?_, fun y under other spared object => ?_⟩
  · rw [calm.recognize sound forest plain roles lt outside fun x listed =>
      outside_child sound holds inside (mem_entries listed).1]
    exact alone.recognized
  · rcases Relation.ReflTransGen.cases_head under with same | ⟨x, edge, under⟩
    · exact absurd same.symm other
    rw [calm.children _ lt outside] at edge
    by_cases here : x = e
    · subst here
      rcases Relation.ReflTransGen.cases_head under with same | ⟨d, edge', under⟩
      · rw [← same, calm.ext.role (sound.forest.childLt edge), holds.pair] at object
        cases object
      rw [calm.children _ (sound.forest.childLt edge) (outside_child sound holds inside edge)] at edge'
      by_cases inner : d = k
      · subst inner
        rcases Relation.ReflTransGen.cases_head under with same | ⟨f, edge'', under⟩
        · exact absurd (congrArg some same.symm) spared
        · exact barren f edge'' y under object
      · refine kept ((Below.child edge).tail edge') (fun same => ?_)
          (apart_inner sound holds inside edge' inner) under object
        exact sound.forest.not_below_parent edge (same ▸ Below.child edge')
    · exact kept (Below.child edge) (sound.forest.child_ne edge) (apart_child sound holds inside edge here) under object

end

end Calm

end Document

end StoreModels
