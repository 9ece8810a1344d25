import StoreModels.Proofs.Record.Containers
import StoreModels.Proofs.Record.Stock

/-!
Models that stand alone and have a record. They stand as they are while only other trees are edited; a new container
without entries changes nothing in the record; and after edits inside of one container the record is that of the entries
which are there now.
-/
namespace StoreModels
open Syntax (Role)

namespace Document
variable {doc doc' : Document} {zone : NodeId → Prop} {loose : List NodeId} {m n : Model} {c : Container}
  {e k x new : NodeId}
  {callees : List (List Char)} {name : List Char} {record : ModelRecord} {rs : List EntryRecord} {es fs : List NodeId}

/-! ## Recognized entries -/

theorem recognizeEntries_append (doc : Document) (space : Option (List Char)) (shaped : Bool) (es fs : List NodeId) :
    doc.recognizeEntries space shaped (es ++ fs) =
      doc.recognizeEntries space shaped es >>= fun found => doc.recognizeEntries found.1 found.2 fs := by
  induction es generalizing space shaped with
  | nil => rfl
  | cons e rest ih =>
    simp only [List.cons_append, recognizeEntries]
    split
    · exact ih _ _
    · cases doc.namespaceText e with
      | error failure => rfl
      | ok text => exact ih _ _
    · exact ih _ _

/-- An object literal is a model if it has a namespace that is not empty and another property of a model. -/
theorem recognize_some_iff : doc.recognize none x = .ok (some m) ↔
    m.object = x ∧ m.space ≠ [] ∧ doc.recognizeEntries none false (doc.entries x) = .ok (some m.space, true) := by
  unfold recognize
  cases doc.recognizeEntries none false (doc.entries x) with
  | error failure =>
    constructor
    · intro run
      cases run
    · rintro ⟨_, _, run⟩
      cases run
  | ok result =>
    obtain ⟨space, shaped⟩ := result
    cases space with
    | none =>
      constructor
      · intro run
        cases run
      · rintro ⟨_, _, run⟩
        cases run
    | some text =>
      obtain ⟨object, space⟩ := m
      simp only [bind, Except.bind, pure, Except.pure, Option.any_none, Bool.or_false]
      by_cases is : text = [] ∨ shaped = false
      · have refused : (text.isEmpty || !shaped) = true := by simpa using is
        rw [if_pos refused]
        constructor
        · intro run
          cases run
        · rintro ⟨_, filled, run⟩
          cases run
          exact absurd (is.resolve_right (by decide)) filled
      · have taken : ¬ (text.isEmpty || !shaped) = true := by simpa using is
        obtain ⟨filled, shape⟩ := not_or.mp is
        rw [if_neg taken]
        constructor
        · intro run
          cases run
          rw [Bool.eq_true_of_not_eq_false shape]
          exact ⟨rfl, filled, rfl⟩
        · rintro ⟨rfl, _, run⟩
          cases run
          rfl

/-! ## Standing models -/

/-- A model stands alone and has a record. -/
structure Stands (doc : Document) (callees : List (List Char)) (m : Model) (record : ModelRecord) : Prop where
  alone : doc.Alone m none
  extracted : doc.extractModel callees m = .ok record

namespace Stands
variable (stands : doc.Stands callees m record)
include stands

theorem lt : m.object < doc.nodes.size := lt_of_role stands.alone.object (by decide)

/-- Of two models that stand alone, none is above the other. -/
theorem not_below {record' : ModelRecord} (stands' : doc.Stands callees n record') (other : m.object ≠ n.object) :
    ¬ doc.Below m.object n.object := by
  intro below
  have none := stands.alone.barren _ below (Ne.symm other) (by simp) stands'.alone.object
  rw [stands'.alone.recognized] at none
  cases none

/-- A model outside of the zone of some edits stands as before. -/
theorem calm (calm : Calm doc doc' zone loose) (sound : doc.Sound) (forest : doc'.Forest)
    (apart : doc.Apart zone m.object) : doc'.Stands callees m record where
  alone := calm.alone sound forest apart stands.alone
  extracted := (calm.extractModel sound forest stands.lt apart).trans stands.extracted

/-- The nodes below the children of a model hold no models. -/
theorem barren (forest : doc.Forest) (child : x ∈ doc.children m.object) : doc.Barren x := fun y below object => by
  refine stands.alone.barren y ((Below.child child).trans below) (fun same => ?_) (by simp) object
  exact forest.not_below_parent child (same ▸ below)

/-- What a container of the model is. -/
theorem stocked (forest : doc.Forest) (found : m.containerObject? doc c = .ok (some k)) :
    doc.Stocked callees c k (record.entries c) ∧ doc.recognize none k = .ok none ∧ ∃ e, doc.Holds m c e k := by
  obtain ⟨e, holds⟩ := Holds.of_container found
  have below : doc.Below e k := .child holds.inner
  have barren := stands.barren forest holds.child
  refine ⟨⟨containerObject?_records stands.extracted found, fun x child => ?_⟩, barren k below holds.object, e, holds⟩
  exact barren.below (below.tail child)

/-- Edits inside of one container, which is still no model after them. -/
theorem container (calm : Calm doc doc' zone loose) (sound : doc.Sound) (forest : doc'.Forest) (plain : doc.Plain)
    (roles : ∀ z, zone z → doc.role z = .object ∨ doc.role z = .pair) (holds : doc.Holds m c e k)
    (inside : ∀ z, zone z → doc.Below k z) (stocked : doc'.Stocked callees c k rs)
    (none : doc'.recognize none k = .ok none) : doc'.Stands callees m (record.withEntries rs c) := by
  have alone := calm.alone_container sound forest plain roles holds inside stands.alone stocked.barren
  refine ⟨⟨alone.object, alone.recognized, fun y below other _ object => ?_⟩, ?_⟩
  · by_cases here : y = k
    · exact here ▸ none
    · exact alone.barren y below other (fun same => here (Option.some.inj same)) object
  · exact calm.extractModel_container sound forest plain roles holds inside stands.extracted stocked.records

/-- An entry is added to a container, which is no model with it. -/
theorem append {entry : EntryRecord} (appended : Appended doc doc' k new) (sound : doc.Sound) (plain : doc.Plain)
    (found : m.containerObject? doc c = .ok (some k)) (entrant : doc.Entrant callees c k new entry)
    (harmless : doc.Harmless k entry.name) : doc'.Stands callees m (record.added c entry) := by
  obtain ⟨stocked, none, e, holds⟩ := stands.stocked sound.forest found
  have none' := recognize_silhouette (appended.silhouette sound entrant) harmless none
  exact stands.container (appended.calm entrant.free) sound appended.edited.forest plain
    (fun z same => .inl (same ▸ holds.object)) holds (fun z same => same ▸ Below.refl doc z)
    (appended.stocked sound entrant stocked) none'

end Stands

/-- Adding a container without entries to a model that lacks it leaves the record of the model. -/
theorem Appended.stands (appended : Appended doc doc' m.object new) (sound : doc.Sound) (free : doc.Free new)
    (apart : ¬ doc.Below new m.object) (pair : doc.role new = .pair) (stands : doc.Stands callees m record)
    (lacking : doc.entryNamed? m.object c.key.toList = none) (key : doc.entryIdentifier? new = some c.key.toList)
    (body : doc.entryBody new = k) (object : doc.role k = .object) (bare : doc.entries k = [])
    (inner : k ∈ doc.children new) (barren : doc.Barren new) :
    doc'.Stands callees m record ∧ m.containerObject? doc' c = .ok (some k) ∧ doc'.entries k = [] := by
  have forest := appended.edited.forest
  have calm := appended.calm free
  have like := calm.likeness sound forest
  have entries := appended.entries sound.forest free pair
  have outside := apart_of_not_below apart
  have here := And.intro (Eq.refl new) (And.intro free.lt outside)
  have within := And.intro (Eq.refl k) (And.intro (sound.forest.childLt inner) (outside.below (.child inner)))
  have old : List.Forall₂ (fun a b => a = b ∧ a < doc.nodes.size ∧ doc.Apart (fun z => z = m.object) a)
      (doc.entries m.object) (doc.entries m.object) :=
    List.forall₂_same.mpr fun x member => by
      have child := (mem_entries member).1
      exact ⟨rfl, sound.forest.childLt child, apart_of_child sound.forest child⟩
  have key' : doc'.entryIdentifier? new = some c.key.toList := (like.entryIdentifier? here).trans key
  have is : doc'.entryProperty? new = some (.container c) := entryProperty?_eq_some.mpr key'
  have body' : doc'.entryBody new = k := by rw [← (like.entryBody here).1, body]
  have object' : doc'.role k = .object := (like.role within).trans object
  have bare' : doc'.entries k = [] := by
    rw [calm.entries sound.forest within.2.1 within.2.2.outside, bare]
  refine ⟨⟨⟨(calm.ext.role stands.lt).trans stands.alone.object, ?_, ?_⟩, ?_⟩, ?_, bare'⟩
  · obtain ⟨_, filled, run⟩ := recognize_some_iff.mp stands.alone.recognized
    refine recognize_some_iff.mpr ⟨rfl, filled, ?_⟩
    rw [entries, recognizeEntries_append, like.recognizeEntries old, run]
    simp only [bind, Except.bind, recognizeEntries, is]
    rfl
  · intro y below other _ object
    rcases Relation.ReflTransGen.cases_head below with same | ⟨x, edge, under⟩
    · exact absurd same.symm other
    rcases (appended.edited.hung.mem x).mp edge with fresh | ⟨child, _⟩
    · cases fresh
      exact calm.barren sound forest free.lt outside barren y under object
    · exact calm.barren sound forest (sound.forest.childLt child) (apart_of_child sound.forest child)
        (stands.barren sound.forest child) y under object
  · have none : record.entries c = [] := extractModel_lacking stands.extracted lacking
    have recorded : doc'.containerRecords callees c k = .ok [] := by
      rw [containerRecords, if_pos object', bare']
      rfl
    have run := stands.extracted
    unfold Document.extractModel at run ⊢
    rw [entries, extractEntries_append, like.extractEntries sound.forest callees old, run]
    simp only [bind, Except.bind, Document.extractEntries, is, body', recorded]
    rw [← none, ModelRecord.withEntries_entries]
  · have named : doc'.entryNamed? m.object c.key.toList = some new :=
      entryNamed?_of_split entries key' fun x member => by cases member
    simp only [Model.containerObject?, named, body', object', if_true]

end Document

end StoreModels
