import StoreModels.Record.Extract
import StoreModels.Proofs.Model.Runs

/-!
Records taken apart. A list of entry records has one record for each entry of a container. The record of a model has
one part for each property, and the last entry with the key of a container decides what the container is.
-/
namespace StoreModels

/-- A computation that succeeds after another one has succeeded after it. -/
theorem bind_eq_ok {α β : Type} {first : Except Failure α} {next : α → Except Failure β} {b : β} :
    first >>= next = .ok b ↔ ∃ a, first = .ok a ∧ next a = .ok b := by
  constructor
  · intro run
    cases first with
    | error failure => cases run
    | ok a => exact ⟨a, rfl, run⟩
  · rintro ⟨a, rfl, run⟩
    exact run

namespace ModelRecord
variable (record : ModelRecord) (es es' : List EntryRecord) (c d : Container)

@[simp] theorem space_withEntries : (record.withEntries es c).space = record.space := by cases c <;> rfl

@[simp] theorem entries_withEntries : (record.withEntries es c).entries c = es := by cases c <;> rfl

@[simp] theorem withEntries_entries : record.withEntries (record.entries c) c = record := by cases c <;> rfl

@[simp] theorem withEntries_withEntries : (record.withEntries es c).withEntries es' c = record.withEntries es' c := by
  cases c <;> rfl

theorem withEntries_state (value : Option Value) :
    { record.withEntries es c with state := value } = { record with state := value }.withEntries es c := by
  cases c <;> rfl

theorem withEntries_comm (other : c ≠ d) :
    (record.withEntries es c).withEntries es' d = (record.withEntries es' d).withEntries es c := by
  cases c <;> cases d <;> first | rfl | exact absurd rfl other

/-! ## Changes of records -/

section
variable (c : Container) (name : List Char) (entry : EntryRecord) (record : ModelRecord)

/-- Whether a container of a record has an entry with a name. -/
def Lists : Prop := ∃ r ∈ record.entries c, r.name = name

/-- The record with one more entry, behind the others of its container. -/
def added : ModelRecord := record.withEntries (record.entries c ++ [entry]) c

/-- The record with an entry in the place of every one that has its name. -/
def revised : ModelRecord :=
  record.withEntries ((record.entries c).map fun r => if r.name = entry.name then entry else r) c

/-- The record without the entries of a name. -/
def without : ModelRecord := record.withEntries ((record.entries c).filter (·.name != name)) c

end

end ModelRecord

/-- An edit on the level of records: which records allow it, what it makes of them, and how it is refused. -/
structure RecordEdit where
  can : ModelRecord → Prop
  change : ModelRecord → ModelRecord
  failure : ModelRecord → Failure

namespace RecordEdit
variable (c : Container) (name : List Char) (entry : EntryRecord)

/-- There is no entry of a name in a container of the record. -/
def missing (record : ModelRecord) : Failure := .entryNotFound record.space c.label name

/-- One more entry. -/
def add : RecordEdit := ⟨fun _ => True, (·.added c entry), missing c entry.name⟩

/-- Another entry in the place of those that have its name. -/
def set : RecordEdit := ⟨(·.Lists c entry.name), (·.revised c entry), missing c entry.name⟩

/-- No more entries of a name. -/
def remove : RecordEdit := ⟨(·.Lists c name), (·.without c name), missing c name⟩

end RecordEdit

namespace Property

/-- A property is found under its name and no other. -/
theorem ofName?_eq_some {name : String} {property : Property} :
    ofName? name = some property ↔ name = property.name := by
  constructor
  · intro found
    have same := List.find?_some found
    exact (beq_iff_eq.mp same).symm
  · rintro rfl
    cases property with
    | nameSpace => rfl
    | state => rfl
    | container c => cases c <;> rfl

end Property

namespace Document
variable {doc : Document} {callees : List (List Char)} {c : Container} {e k p : NodeId} {r : EntryRecord}
  {es fs : List NodeId} {rs : List EntryRecord} {record record' : ModelRecord} {model : Model} {name : List Char}

/-! ## Entries -/

/-- What an entry of a container is recorded as. -/
structure EntryTells (doc : Document) (callees : List (List Char)) (c : Container) (e : NodeId) (r : EntryRecord) :
    Prop where
  name : doc.entryName? e = some r.name
  source : doc.printNode (doc.entryBody e) = r.source
  dispatches : (if c.tracksDispatches then doc.dispatches callees (doc.entryBody e) else []) = r.dispatches

theorem name?_entryKey (doc : Document) (e : NodeId) : ((doc.entryKey? e).getD .computed).name? = doc.entryName? e := by
  unfold entryName?
  cases doc.entryKey? e <;> rfl

/-- Recording entries succeeds if each of them has a name, and makes one record of each. -/
theorem entryRecords_iff : doc.entryRecords callees c es = .ok rs ↔ List.Forall₂ (doc.EntryTells callees c) es rs := by
  induction es generalizing rs with
  | nil => cases rs <;> simp [entryRecords]
  | cons e rest ih =>
    simp only [entryRecords, name?_entryKey]
    constructor
    · intro run
      cases named : doc.entryName? e with
      | none =>
        rw [named] at run
        cases run
      | some name =>
        cases later : doc.entryRecords callees c rest with
        | error failure =>
          rw [named, later] at run
          cases run
        | ok others =>
          rw [named, later] at run
          cases run
          exact .cons ⟨named, rfl, rfl⟩ (ih.mp later)
    · intro pairs
      obtain _ | ⟨tells, rest⟩ := pairs
      rw [tells.name, tells.source, tells.dispatches, ih.mpr rest]
      rfl

/-! ## Properties -/

theorem entryProperty?_eq_some {property : Property} :
    doc.entryProperty? e = some property ↔ doc.entryIdentifier? e = some property.name.toList := by
  unfold entryProperty?
  constructor
  · intro found
    obtain ⟨name, named, is⟩ := Option.bind_eq_some_iff.mp found
    rw [named, ← Property.ofName?_eq_some.mp is, String.toList_ofList]
  · intro named
    rw [named, Option.bind_some, String.ofList_toList]
    exact Property.ofName?_eq_some.mpr rfl

/-- The last entry with a bare name has none of that name behind it. -/
theorem entryNamed?_split (found : doc.entryNamed? p name = some e) :
    ∃ before after, doc.entries p = before ++ e :: after ∧ doc.entryIdentifier? e = some name ∧
      ∀ x ∈ after, doc.entryIdentifier? x ≠ some name := by
  rw [entryNamed?, List.getLast?_filter, List.find?_eq_some_iff_append] at found
  obtain ⟨named, after, before, split, others⟩ := found
  refine ⟨before.reverse, after.reverse, ?_, by simpa using named, fun x member => ?_⟩
  · rw [← List.reverse_reverse (doc.entries p), split]
    simp
  · simpa using others x (List.mem_reverse.mp member)

theorem entryNamed?_none (lacking : doc.entryNamed? p name = none) :
    ∀ x ∈ doc.entries p, doc.entryIdentifier? x ≠ some name := by
  rw [entryNamed?, List.getLast?_filter, List.find?_eq_none] at lacking
  intro x member
  simpa using lacking x (List.mem_reverse.mpr member)

/-- The last of some entries with a bare name, from where it stands. -/
theorem entryNamed?_of_split {before after : List NodeId} (split : doc.entries p = before ++ e :: after)
    (named : doc.entryIdentifier? e = some name) (others : ∀ x ∈ after, doc.entryIdentifier? x ≠ some name) :
    doc.entryNamed? p name = some e := by
  rw [entryNamed?, List.getLast?_filter, List.find?_eq_some_iff_append]
  refine ⟨by simp [named], after.reverse, before.reverse, by simp [split], fun x member => ?_⟩
  simpa using others x (List.mem_reverse.mp member)

/-! ## Models -/

theorem extractEntries_cons : doc.extractEntries callees record (e :: es) =
    doc.extractEntries callees record [e] >>= fun middle => doc.extractEntries callees middle es := by
  simp only [extractEntries]
  split
  · rfl
  · rfl
  · cases doc.evaluate (doc.entryBody e) <;> rfl
  next c _ => cases doc.containerRecords callees c (doc.entryBody e) <;> rfl

theorem extractEntries_append : doc.extractEntries callees record (es ++ fs) =
    doc.extractEntries callees record es >>= fun middle => doc.extractEntries callees middle fs := by
  induction es generalizing record with
  | nil => rfl
  | cons e rest ih =>
    rw [List.cons_append, extractEntries_cons]
    conv_rhs => rw [extractEntries_cons, bind_assoc]
    exact congrArg (doc.extractEntries callees record [e] >>= ·) (funext fun _ => ih)

/-- What an entry that can be recorded is. -/
theorem extractEntries_cases (run : doc.extractEntries callees record (e :: es) = .ok record') :
    (doc.entryProperty? e = some .nameSpace ∧ doc.extractEntries callees record es = .ok record') ∨
    (∃ value, doc.entryProperty? e = some .state ∧ doc.evaluate (doc.entryBody e) = .ok value ∧
      doc.extractEntries callees { record with state := some value } es = .ok record') ∨
    (∃ c rs, doc.entryProperty? e = some (.container c) ∧
      doc.containerRecords callees c (doc.entryBody e) = .ok rs ∧
      doc.extractEntries callees (record.withEntries rs c) es = .ok record') := by
  simp only [extractEntries] at run
  split at run
  · cases run
  next is => exact .inl ⟨is, run⟩
  next is =>
    obtain ⟨value, evaluated, later⟩ := bind_eq_ok.mp run
    exact .inr (.inl ⟨value, is, evaluated, later⟩)
  next c is =>
    obtain ⟨rs, recorded, later⟩ := bind_eq_ok.mp run
    exact .inr (.inr ⟨c, rs, is, recorded, later⟩)

theorem extractEntries_space (run : doc.extractEntries callees record es = .ok record') :
    record'.space = record.space := by
  induction es generalizing record with
  | nil =>
    cases run
    rfl
  | cons e rest ih =>
    obtain ⟨_, later⟩ | ⟨value, _, _, later⟩ | ⟨d, rs, _, _, later⟩ := extractEntries_cases run
    · exact ih later
    · have same := ih later
      exact same
    · rw [ih later, ModelRecord.space_withEntries]

/-- Entries that are no container of some kind say nothing of it. -/
theorem extractEntries_other (others : ∀ e ∈ es, doc.entryProperty? e ≠ some (.container c))
    (run : doc.extractEntries callees record es = .ok record') (rs : List EntryRecord) :
    doc.extractEntries callees (record.withEntries rs c) es = .ok (record'.withEntries rs c) := by
  induction es generalizing record with
  | nil =>
    cases run
    rfl
  | cons e rest ih =>
    have later : ∀ {record}, doc.extractEntries callees record rest = .ok record' →
        doc.extractEntries callees (record.withEntries rs c) rest = .ok (record'.withEntries rs c) :=
      ih fun e member => others e (List.mem_cons_of_mem _ member)
    obtain ⟨is, tail⟩ | ⟨value, is, evaluated, tail⟩ | ⟨d, rs', is, recorded, tail⟩ := extractEntries_cases run
    · simp only [extractEntries, is]
      exact later tail
    · simp only [extractEntries, is, evaluated]
      show doc.extractEntries callees { record.withEntries rs c with state := some value } rest = _
      rw [ModelRecord.withEntries_state]
      exact later tail
    · have other : c ≠ d := fun same => others e (by simp) (same ▸ is)
      simp only [extractEntries, is, recorded]
      show doc.extractEntries callees ((record.withEntries rs c).withEntries rs' d) rest = _
      rw [ModelRecord.withEntries_comm _ _ _ _ _ other]
      exact later tail

theorem extractEntries_entries (others : ∀ e ∈ es, doc.entryProperty? e ≠ some (.container c))
    (run : doc.extractEntries callees record es = .ok record') : record'.entries c = record.entries c := by
  have same := extractEntries_other others run (record.entries c)
  rw [ModelRecord.withEntries_entries, run] at same
  rw [Except.ok.inj same, ModelRecord.entries_withEntries]

/-! ## The container of a model -/

theorem mem_entries (member : e ∈ doc.entries p) : e ∈ doc.children p ∧ (doc.role e).isEntry = true := by
  rw [entries, List.mem_filter] at member
  exact member

/-- A model without a container has no entries in its record. -/
theorem extractModel_lacking (run : doc.extractModel callees model = .ok record)
    (lacking : doc.entryNamed? model.object c.key.toList = none) : record.entries c = [] := by
  refine (extractEntries_entries (fun e member is => ?_) run).trans (by cases c <;> rfl)
  exact entryNamed?_none lacking e member (entryProperty?_eq_some.mp is)

/-- The last entry with the key of a container is what the record has of it. -/
theorem extractModel_container (run : doc.extractModel callees model = .ok record)
    (found : doc.entryNamed? model.object c.key.toList = some e) :
    doc.containerRecords callees c (doc.entryBody e) = .ok (record.entries c) := by
  obtain ⟨before, after, split, named, others⟩ := entryNamed?_split found
  unfold extractModel at run
  rw [split, extractEntries_append] at run
  obtain ⟨middle, _, run⟩ := bind_eq_ok.mp run
  have is : doc.entryProperty? e = some (.container c) := entryProperty?_eq_some.mpr named
  have later : ∀ x ∈ after, doc.entryProperty? x ≠ some (.container c) := fun x member is =>
    others x member (entryProperty?_eq_some.mp is)
  obtain ⟨is', _⟩ | ⟨_, is', _⟩ | ⟨d, rs, is', recorded, tail⟩ := extractEntries_cases run
  · rw [is] at is'
    cases is'
  · rw [is] at is'
    cases is'
  · rw [is] at is'
    cases is'
    rw [recorded, extractEntries_entries later tail, ModelRecord.entries_withEntries]

/-- A model that has a record either lacks a container or has an object literal for it. -/
theorem containerObject?_cases (run : doc.extractModel callees model = .ok record) (c : Container) :
    (model.containerObject? doc c = .ok none ∧ doc.entryNamed? model.object c.key.toList = none) ∨
      ∃ k, model.containerObject? doc c = .ok (some k) := by
  unfold Model.containerObject?
  cases found : doc.entryNamed? model.object c.key.toList with
  | none => exact .inl ⟨rfl, rfl⟩
  | some e =>
    have recorded := extractModel_container run found
    unfold containerRecords at recorded
    split at recorded
    next object => exact .inr ⟨doc.entryBody e, by simp only [if_pos object]⟩
    next => cases recorded

/-- A container with a recorded entry is there. -/
theorem containerObject?_of_entry (run : doc.extractModel callees model = .ok record) {r : EntryRecord}
    (listed : r ∈ record.entries c) : ∃ k, model.containerObject? doc c = .ok (some k) := by
  rcases containerObject?_cases run c with ⟨_, lacking⟩ | present
  · rw [extractModel_lacking run lacking] at listed
    cases listed
  · exact present

/-- Where the object literal of a container stands: it is the value of a pair, the last one with the container's key. -/
theorem containerObject?_place (found : model.containerObject? doc c = .ok (some k)) :
    ∃ e, doc.entryNamed? model.object c.key.toList = some e ∧ doc.entryBody e = k ∧ e ∈ doc.children model.object ∧
      doc.role e = .pair ∧ k ∈ doc.children e ∧ doc.role k = .object := by
  unfold Model.containerObject? at found
  split at found
  · cases found
  next e named =>
    simp only at found
    split at found
    next object =>
      cases found
      obtain ⟨_, _, split, _⟩ := entryNamed?_split named
      have listed : e ∈ doc.entries model.object := by simp [split]
      obtain ⟨child, entry⟩ := mem_entries listed
      cases value : doc.pairValue? e with
      | none =>
        rw [entryBody, value, Option.getD_none] at object
        rw [object] at entry
        cases entry
      | some v =>
        obtain ⟨pair, inside, _⟩ := pairValue?_some value
        have body : doc.entryBody e = v := by rw [entryBody, value, Option.getD_some]
        rw [body] at object ⊢
        exact ⟨e, named, body, child, pair, inside, object⟩
    next => cases found

/-- The records of the entries of a container. -/
theorem containerObject?_records (run : doc.extractModel callees model = .ok record)
    (found : model.containerObject? doc c = .ok (some k)) :
    List.Forall₂ (doc.EntryTells callees c) (doc.entries k) (record.entries c) := by
  obtain ⟨e, named, rfl, _, _, _, object⟩ := containerObject?_place found
  have recorded := extractModel_container run named
  rw [containerRecords, if_pos object] at recorded
  exact entryRecords_iff.mp recorded

end Document

end StoreModels
