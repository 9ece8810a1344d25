import StoreModels.Proofs.Model.Filled
import StoreModels.Proofs.Record.Silhouette

/-!
What is found while targets are filled. The entries of an object literal keep their names, whether they are kept, get
another value or make way for a pair; so an entry with any other name is the one that it was, and the containers of a model
are found as before as long as no entry that tells them is aimed at.
-/
namespace StoreModels

namespace Target.Lies
variable {first : Document} {t : Target} {x f : NodeId}

/-- An entry that made way for a tree has no value, and is the target. -/
theorem entry_spot (lies : t.Lies first) (forest : first.Forest) (object : first.role x = .object)
    (child : f ∈ first.children x) (spot : t.spot first = f) :
    first.pairValue? t.entry = none ∧ t.entry = f ∧ t.object = x := by
  have above : x = t.holder first := forest.parent_unique child (spot ▸ lies.spot_child)
  cases held : first.pairValue? t.entry with
  | some value =>
    rw [above, (spot_pair held).2, (Document.pairValue?_some held).1] at object
    cases object
  | none =>
    obtain ⟨here, holder⟩ := spot_entry held
    exact ⟨rfl, here.symm.trans spot, (above.trans holder).symm⟩

/-- A value that made way for a tree is the one of the target. -/
theorem value_spot (lies : t.Lies first) (forest : first.Forest) (other : first.role x ≠ .object)
    (child : f ∈ first.children x) (spot : t.spot first = f) : t.entry = x ∧ first.pairValue? x = some f := by
  have above : x = t.holder first := forest.parent_unique child (spot ▸ lies.spot_child)
  cases held : first.pairValue? t.entry with
  | some value =>
    obtain ⟨here, holder⟩ := spot_pair held
    rw [holder] at above
    rw [here] at spot
    exact ⟨above.symm, above ▸ spot ▸ held⟩
  | none =>
    rw [(spot_entry held).2] at above
    exact absurd lies.object (above ▸ other)

end Target.Lies

namespace Document
variable {doc first : Document} {name n : List Char} {load : Document → NodeId → Prop} {x c f e : NodeId}
  {done : Target → Prop} {t : Target} {m : Model} {container : Container}

/-- A node is where it was, or a tree is in its place for a target. -/
def Rests (first doc : Document) (name : List Char) (load : Document → NodeId → Prop) (done : Target → Prop)
    (c f : NodeId) : Prop :=
  (c = f ∧ ∀ t, done t → t.spot first ≠ f) ∨ ∃ t, done t ∧ t.spot first = f ∧ first.Filled doc name load t c

/-- The targets are entries with a name, and their quotes are ones. -/
def Named (first : Document) (name : List Char) (done : Target → Prop) : Prop :=
  ∀ t, done t → first.entryName? t.entry = some name ∧ Literal.isQuote t.quote = true

theorem Filled.heads (filled : first.Filled doc name load t c) (none : first.pairValue? t.entry = none) :
    ∃ value, doc.Heads name t.quote c value ∧ load doc value := by
  have gets := filled.gets
  rwa [Gets, none, if_neg (by simp)] at gets

theorem Filled.known {old : NodeId} (filled : first.Filled doc name load t c) (held : first.pairValue? t.entry = some old) :
    load doc c := by
  have gets := filled.gets
  rwa [Gets, held, if_pos (by simp)] at gets

namespace Filling
variable (run : first.Filling doc name load done) (start : first.Sound)
include run start

theorem childByField? (lt : x < first.nodes.size) (field : String) :
    Option.Rel (first.Rests doc name load done) (doc.childByField? x field) (first.childByField? x field) := by
  refine forall₂_find? (run.places x lt) fun c _ f child place => ?_
  rcases place with ⟨rfl, _⟩ | ⟨t, _, rfl, filled⟩
  · rw [run.field (start.forest.childLt child)]
  · rw [filled.field]

theorem pairValue? (lt : x < first.nodes.size) :
    Option.Rel (first.Rests doc name load done) (doc.pairValue? x) (first.pairValue? x) := by
  rw [Document.pairValue?, run.ext.role lt, Document.pairValue?]
  split
  · exact run.childByField? start lt "value"
  · exact .none

omit start in
theorem roles {z : NodeId} (inside : ∃ t, done t ∧ z = t.holder first) :
    first.role z = .object ∨ first.role z = .pair := by
  obtain ⟨t, before, rfl⟩ := inside
  cases held : first.pairValue? t.entry with
  | some value => exact .inr ((Target.spot_pair held).2 ▸ (pairValue?_some held).1)
  | none => exact .inl ((Target.spot_entry held).2 ▸ (run.lies t before).object)

/-- The key of an entry is never exchanged. -/
theorem keyed (plain : first.Plain) (lt : x < first.nodes.size) (other : first.role x ≠ .object) {field : String}
    (noValue : field ≠ "value") :
    (doc.childByField? x field).map doc.keyOf = (first.childByField? x field).map first.keyOf := by
  obtain ⟨loose, calm, _⟩ := run.calm
  have places := run.childByField? start lt field
  cases found : first.childByField? x field with
  | none =>
    rw [found] at places
    rw [rel_none_right places]
    rfl
  | some f =>
    obtain ⟨child, filled⟩ := childByField?_some found
    obtain ⟨c, is, ⟨rfl, _⟩ | ⟨t, before, spot, _⟩⟩ := rel_some_right (found ▸ places)
    · rw [is]
      exact congrArg some (calm.keyOf start run.sound.forest plain (fun z => run.roles) (start.forest.childLt child))
    · obtain ⟨_, held⟩ := (run.lies t before).value_spot start.forest other child spot
      rw [(pairValue?_some held).2.2] at filled
      exact absurd (Option.some.inj filled).symm noValue

/-- The entries of the file keep their keys. -/
theorem entryKey? (plain : first.Plain) (lt : e < first.nodes.size) : doc.entryKey? e = first.entryKey? e := by
  obtain ⟨loose, calm, _⟩ := run.calm
  unfold Document.entryKey?
  rw [run.ext.role lt]
  split
  next is => exact run.keyed start plain lt (by rw [is]; decide) (by decide)
  next is => exact run.keyed start plain lt (by rw [is]; decide) (by decide)
  next is => rw [calm.text_token start run.sound.forest plain (fun z => run.roles) lt (by rw [is]; rfl)]
  · rfl
  · rfl

/-- The entries of an object literal are those that it had, with pairs in the place of some. -/
theorem entries (object : first.role x = .object) :
    List.Forall₂ (first.Rests doc name load done) (doc.entries x) (first.entries x) := by
  refine forall₂_filter (run.places x (lt_of_role object (by decide))) fun c _ f child place => ?_
  rcases place with ⟨rfl, _⟩ | ⟨t, before, spot, filled⟩
  · rw [run.ext.role (start.forest.childLt child)]
  · obtain ⟨none, rfl, _⟩ := (run.lies t before).entry_spot start.forest object child spot
    obtain ⟨value, heads, _⟩ := filled.heads none
    rw [heads.role, (mem_entries (run.lies t before).entry).2]
    rfl

variable (plain : first.Plain) (named : first.Named name done)
include plain named

/-- The entries in the places of others have the names of those. -/
theorem entryName? (object : first.role x = .object) (child : f ∈ first.children x)
    (rests : first.Rests doc name load done c f) : doc.entryName? c = first.entryName? f := by
  rcases rests with ⟨rfl, _⟩ | ⟨t, before, spot, filled⟩
  · rw [Document.entryName?, run.entryKey? start plain (start.forest.childLt child), Document.entryName?]
  · obtain ⟨none, rfl, _⟩ := (run.lies t before).entry_spot start.forest object child spot
    obtain ⟨value, heads, _⟩ := filled.heads none
    obtain ⟨same, isQuote⟩ := named t before
    rw [same, heads.entryName? run.sound.forest isQuote]

theorem entriesNamed (object : first.role x = .object) (n : List Char) :
    List.Forall₂ (first.Rests doc name load done) (doc.entriesNamed x n) (first.entriesNamed x n) :=
  forall₂_filter (run.entries start object) fun _ _ _ member rests => by
    rw [run.entryName? start plain named object (mem_entries member).1 rests]

/-- An entry with a bare name is the one that it was, unless targets in the literal have this name. -/
theorem entryNamed? (object : first.role x = .object) (spared : ∀ t, done t → t.object = x → name ≠ n) :
    doc.entryNamed? x n = first.entryNamed? x n := by
  have each : ∀ c ∈ doc.entries x, ∀ f ∈ first.entries x, first.Rests doc name load done c f →
      (c = f ∧ doc.entryIdentifier? c = first.entryIdentifier? f) ∨
        (doc.entryIdentifier? c ≠ some n ∧ first.entryIdentifier? f ≠ some n) := by
    rintro c _ f member rests
    have child := (mem_entries member).1
    have same := run.entryName? start plain named object child rests
    rcases rests with ⟨rfl, _⟩ | ⟨t, before, spot, _⟩
    · rw [Document.entryIdentifier?, run.entryKey? start plain (start.forest.childLt child), Document.entryIdentifier?]
      exact .inl ⟨rfl, rfl⟩
    · obtain ⟨_, rfl, here⟩ := (run.lies t before).entry_spot start.forest object child spot
      rw [(named t before).1] at same
      refine .inr ⟨fun told => ?_, fun told => ?_⟩
      · exact spared t before here (Option.some.inj (same.symm.trans (entryName?_of_identifier told)))
      · exact spared t before here (Option.some.inj ((named t before).1.symm.trans (entryName?_of_identifier told)))
  have pairs := forall₂_filter (p := fun e => doc.entryIdentifier? e == some n)
    (q := fun e => first.entryIdentifier? e == some n) (run.entries start object) fun c listed f member rests => by
      rcases each c listed f member rests with ⟨_, same⟩ | ⟨none, none'⟩
      · rw [same]
      · simp [none, none']
  have equal := forall₂_imp_mem (S := (· = ·)) pairs fun c listed f member rests => by
    rcases each c (List.mem_of_mem_filter listed) f (List.mem_of_mem_filter member) rests with ⟨same, _⟩ | ⟨none, _⟩
    · exact same
    · exact absurd (by simpa using (List.mem_filter.mp listed).2) none
  rw [List.forall₂_eq_eq_eq] at equal
  exact congrArg List.getLast? equal

/-- The container of a model is the one that it was, unless targets in the model have its name. -/
theorem containerObject? (object : first.role m.object = .object)
    (spared : ∀ t, done t → t.object = m.object → name ≠ container.key.toList) :
    m.containerObject? doc container = m.containerObject? first container := by
  rw [Model.containerObject?, run.entryNamed? start plain named object spared, Model.containerObject?]
  cases found : first.entryNamed? m.object container.key.toList with
  | none => rfl
  | some e =>
    obtain ⟨child, told⟩ := entryNamed?_some found
    have entry := List.mem_of_mem_filter (List.mem_of_getLast? found)
    obtain ⟨_, calm, _⟩ := run.calm
    have outside : ¬ ∃ t, done t ∧ e = t.holder first := by
      rintro ⟨t, before, same⟩
      have lies := run.lies t before
      unfold Target.holder at same
      split at same
      · subst same
        have bare := entryName?_of_identifier told
        rw [(named t before).1] at bare
        exact spared t before (start.forest.parent_unique lies.entry_child child) (Option.some.inj bare)
      · have isEntry := (mem_entries entry).2
        rw [same, lies.object] at isEntry
        cases isEntry
    have body := calm.entryBody start (start.forest.childLt child) outside
    have lt := start.forest.below_lt (lt_of_role object (by decide)) (below_entryBody child)
    simp only [body, run.ext.role lt, run.ext.kind _ lt]

end Filling

end Document

end StoreModels
