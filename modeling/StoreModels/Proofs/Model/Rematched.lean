import StoreModels.Proofs.Model.Respelled
import StoreModels.Proofs.Record.Matched

/-!
The models that are found in a document after models of it have been renamed. These are the same object literals in the
same order, the renamed ones with the new namespace and all others with the ones that they had; with an empty namespace,
the renamed ones are models no longer. Renaming models that were found just now never fails.
-/
namespace StoreModels
open Syntax (Dialect Reader)

/-- One object literal has one namespace. -/
theorem Model.Titled.space_eq {doc : Document} {m n : Model} {p q old other : NodeId} (titled : m.Titled doc p old)
    (titled' : n.Titled doc q other) (same : m.object = n.object) : m.space = n.space := by
  obtain rfl : p = q := Option.some.inj (titled.named.symm.trans (same ▸ titled'.named))
  obtain rfl : old = other := Option.some.inj (titled.held.symm.trans titled'.held)
  exact titled.space.symm.trans titled'.space

namespace Document
variable {doc doc' first : Document} {dialect : Dialect} {source new : List Char} {done models all : List Model}
  {m : Model} {x e v p old : NodeId} {xs : List NodeId} {n : Nat}

/-! ## What a renaming leaves -/

/-- A node stands in its place, or is a new literal in the place of a title. -/
def Stays (first doc : Document) (new : List Char) (done : List Model) (c f : NodeId) : Prop :=
  c = f ∧ ¬ first.IsTitle done f ∨ first.IsTitle done f ∧ doc.Supersedes (first.newTitle new f) c f

theorem Supersedes.literal {text : List Char} (supersedes : doc.Supersedes text v old) : doc.role v = .stringLiteral := by
  rw [role, Node.role, supersedes.kind]
  decide

namespace Renaming
variable (run : first.Renaming doc new done) (start : first.Sound)
include run start

theorem childByField? (lt : x < first.nodes.size) (field : String) :
    Option.Rel (first.Stays doc new done) (doc.childByField? x field) (first.childByField? x field) := by
  obtain ⟨loose, calm, late⟩ := run.calm
  refine forall₂_find? (run.places start lt) fun c _ f child place => ?_
  have present := start.forest.childLt child
  have kept : (doc.node f).field = (first.node f).field :=
    calm.field f present fun listed => Nat.not_le_of_lt present (late f listed)
  rcases place with ⟨rfl, _⟩ | ⟨_, supersedes⟩
  · rw [kept]
  · rw [supersedes.field, kept]

/-- A key is never a title, which is the value of a pair. -/
theorem keyed (plain : first.Plain) (lt : x < first.nodes.size) {field : String} (other : field ≠ "value") :
    (doc.childByField? x field).map doc.keyOf = (first.childByField? x field).map first.keyOf := by
  obtain ⟨loose, calm, _⟩ := run.calm
  have roles : ∀ z, (∃ m ∈ done, ∃ old, m.Titled first z old) → first.role z = .object ∨ first.role z = .pair :=
    fun z ⟨m, _, old, told⟩ => .inr told.pair
  have places := run.childByField? start lt field
  cases found : first.childByField? x field with
  | none =>
    rw [found] at places
    rw [rel_none_right places]
    rfl
  | some f =>
    obtain ⟨child, filled⟩ := childByField?_some found
    obtain ⟨c, is, ⟨rfl, _⟩ | ⟨title, _⟩⟩ := rel_some_right (found ▸ places)
    · rw [is]
      exact congrArg some (calm.keyOf start run.sound.forest plain roles (start.forest.childLt child))
    · obtain ⟨_, _, titled⟩ := title.parent start.forest child
      rw [(pairValue?_some titled.held).2.2] at filled
      exact absurd (Option.some.inj filled).symm other

theorem entryIdentifier? (plain : first.Plain) (lt : e < first.nodes.size) :
    doc.entryIdentifier? e = first.entryIdentifier? e := by
  obtain ⟨loose, calm, _⟩ := run.calm
  have roles : ∀ z, (∃ m ∈ done, ∃ old, m.Titled first z old) → first.role z = .object ∨ first.role z = .pair :=
    fun z ⟨m, _, old, told⟩ => .inr told.pair
  have key : doc.entryKey? e = first.entryKey? e := by
    unfold entryKey?
    rw [run.ext.role lt]
    split
    · exact run.keyed start plain lt (by decide)
    · exact run.keyed start plain lt (by decide)
    next is => rw [calm.text_token start run.sound.forest plain roles lt (by rw [is]; rfl)]
    · rfl
    · rfl
  rw [Document.entryIdentifier?, key, Document.entryIdentifier?]

theorem pairValue? (lt : e < first.nodes.size) :
    Option.Rel (first.Stays doc new done) (doc.pairValue? e) (first.pairValue? e) := by
  rw [Document.pairValue?, run.ext.role lt, Document.pairValue?]
  split
  · exact run.childByField? start lt "value"
  · exact .none

/-- An object literal has the entries that it had. -/
theorem entries (object : first.role x = .object) : doc.entries x = first.entries x := by
  obtain ⟨_, calm, _⟩ := run.calm
  refine calm.entries start.forest (lt_of_role object (by decide)) ?_
  rintro ⟨m, _, old, titled⟩
  have pair := titled.pair
  rw [object] at pair
  cases pair

theorem entryNamed? (plain : first.Plain) (object : first.role x = .object) (name : List Char) :
    doc.entryNamed? x name = first.entryNamed? x name := by
  rw [Document.entryNamed?, run.entries start object, Document.entryNamed?]
  refine congrArg List.getLast? (List.filter_congr fun e member => ?_)
  rw [run.entryIdentifier? start plain (start.forest.childLt (mem_entries member).1)]

/-- Whether an entry has the bare key of a namespace without a string literal stays the same. -/
theorem dumb_iff (plain : first.Plain) (lt : e < first.nodes.size) : doc.Dumb e ↔ first.Dumb e := by
  have values := run.pairValue? start lt
  refine and_congr (by rw [run.entryIdentifier? start plain lt]) ?_
  cases held : first.pairValue? e with
  | none =>
    rw [held] at values
    rw [rel_none_right values]
    simp
  | some f =>
    obtain ⟨c, now, place⟩ := rel_some_right (held ▸ values)
    have same : doc.role c = .stringLiteral ↔ first.role f = .stringLiteral := by
      rcases place with ⟨rfl, _⟩ | ⟨⟨_, _, _, titled⟩, supersedes⟩
      · rw [run.ext.role (start.forest.childLt (pairValue?_some held).2.1)]
      · exact iff_of_true supersedes.literal titled.literal
    rw [now]
    simp only [Option.some.injEq, forall_eq', ne_eq, same]

/-- What makes an object literal a model, besides a namespace, stays the same. -/
theorem shaped_iff (plain : first.Plain) (object : first.role x = .object) :
    (∃ e ∈ doc.entries x, ∃ name ∈ shapeNames, doc.entryIdentifier? e = some name.toList) ↔
      ∃ e ∈ first.entries x, ∃ name ∈ shapeNames, first.entryIdentifier? e = some name.toList := by
  rw [run.entries start object]
  refine exists_congr fun e => and_congr_right fun member => ?_
  rw [run.entryIdentifier? start plain (start.forest.childLt (mem_entries member).1)]

/-- A renamed model is told by a new literal, which stands for the new namespace. -/
theorem retitled (plain : first.Plain) (member : m ∈ done) (titled : m.Titled first p old) :
    ∃ v, { m with space := new }.Titled doc p v := by
  have title : first.IsTitle done old := ⟨m, member, p, titled⟩
  have values := run.pairValue? start (start.forest.childLt titled.entry_child)
  obtain ⟨v, now, ⟨_, untitled⟩ | ⟨_, supersedes⟩⟩ := rel_some_right (titled.held ▸ values)
  · exact absurd title untitled
  · refine ⟨v, (run.ext.role (lt_of_role titled.object (by decide))).trans titled.object, ?_, now, supersedes.literal, ?_⟩
    · exact (run.entryNamed? start plain titled.object _).trans titled.named
    · rw [supersedes.text]
      exact (newTitle_spelled first new old).2.2

end Renaming

/-! ## Recognized again -/

namespace Renaming
variable (run : first.Renaming doc new done) (start : first.Sound) (plain : first.Plain)
include run start plain

/-- A renamed model is recognized with the new namespace, unless this is empty. -/
theorem recognize_done (member : m ∈ done) (object : first.role m.object = .object)
    (recognized : first.recognize none m.object = .ok (some m)) :
    doc.recognize none m.object = .ok (if new = [] then none else some { m with space := new }) := by
  have sane : ¬ ∃ e ∈ first.entries m.object, first.Dumb e := fun dumb => by
    obtain ⟨failure, failed⟩ := (recognize_fails first none m.object).mpr dumb
    cases recognized.symm.trans failed
  have sane' : ¬ ∃ e ∈ doc.entries m.object, doc.Dumb e := by
    rintro ⟨e, listed, dumb⟩
    rw [run.entries start object] at listed
    exact sane ⟨e, listed, (run.dumb_iff start plain (start.forest.childLt (mem_entries listed).1)).mp dumb⟩
  have object' : doc.role m.object = .object := (run.ext.role (lt_of_role object (by decide))).trans object
  obtain ⟨_, ⟨p, old, titled⟩, _, shaped⟩ := (recognize_matches object sane).mp recognized
  obtain ⟨v, again⟩ := run.retitled start plain member titled
  by_cases empty : new = []
  · cases is : doc.recognize none m.object with
    | error failure => exact absurd ((recognize_fails doc none m.object).mp ⟨failure, is⟩) sane'
    | ok one =>
      cases one with
      | none => rw [if_pos empty]
      | some m' =>
        obtain ⟨here, ⟨q, w, titled'⟩, filled, _⟩ := (recognize_matches object' sane').mp is
        exact absurd ((titled'.space_eq again here).trans empty) filled
  · rw [if_neg empty]
    refine (recognize_matches object' sane').mpr ⟨rfl, ⟨p, v, again⟩, empty, ?_⟩
    exact (run.shaped_iff start plain object).mpr shaped

/-- An object literal that was not renamed is recognized as before. -/
theorem recognize_other (object : first.role x = .object) (other : ∀ m ∈ done, m.object ≠ x) :
    doc.recognize none x = first.recognize none x := by
  obtain ⟨_, calm, _⟩ := run.calm
  refine calm.recognize start run.sound.forest plain (fun z ⟨m, _, old, told⟩ => .inr told.pair)
    (lt_of_role object (by decide)) ?_ ?_ none
  · rintro ⟨m, _, old, titled⟩
    have pair := titled.pair
    rw [object] at pair
    cases pair
  · rintro e member ⟨m, listed, old, titled⟩
    exact other m listed (start.forest.parent_unique titled.entry_child (mem_entries member).1)

/-- No object literal comes or goes, and all stay in their order. -/
theorem objects (root : first.root < first.nodes.size) : doc.objects = first.objects := by
  have down : ∀ {n n' x}, first.Fits n x → n ≤ n' → x < first.nodes.size →
      ((doc.descend n' x).filter fun id => doc.role id = .object) =
        (first.descend n x).filter fun id => first.role id = .object := by
    intro n
    induction n with
    | zero => exact fun fits => fits.elim
    | succ n ih =>
      intro n' x fits le lt
      obtain ⟨n', rfl⟩ : ∃ k, n' = k + 1 := ⟨n' - 1, by omega⟩
      have below : (((doc.children x).flatMap (doc.descend n')).filter fun id => doc.role id = .object) =
          ((first.children x).flatMap (first.descend n)).filter fun id => first.role id = .object := by
        rw [List.filter_flatMap, List.filter_flatMap, ← List.forall₂_eq_eq_eq]
        refine forall₂_flatMap (run.places start lt) fun c _ f child place => ?_
        rw [List.forall₂_eq_eq_eq]
        rcases place with ⟨rfl, _⟩ | ⟨title, supersedes⟩
        · exact ih (fits c child) (by omega) (start.forest.childLt child)
        · -- There are no object literals in a title, nor in the literal in its place.
          have none : ∀ y ∈ first.descend n f, ¬ decide (first.role y = .object) = true := fun y member => by
            simpa using (plain.below title.token (below_of_mem_descend member)).1
          have none' : ∀ y ∈ doc.descend n' c, ¬ decide (doc.role y = .object) = true := fun y member => by
            rcases Relation.ReflTransGen.cases_head (below_of_mem_descend member) with rfl | ⟨d, inner, _⟩
            · simp [supersedes.literal]
            · rw [supersedes.leaf] at inner
              cases inner
          rw [List.filter_eq_nil_iff.mpr none, List.filter_eq_nil_iff.mpr none']
      simp only [descend, List.filter_cons, run.ext.role lt, below]
  rw [Document.objects, descendants, run.ext.root, Document.objects, descendants]
  exact down (start.forest.fits root) run.ext.size root

end Renaming

/-- What is recognized anew at each object literal makes up what is found. -/
theorem recognizeAll_again {again : Model → Option Model}
    (each : ∀ x ∈ xs, ∀ one, first.recognize none x = .ok one → doc.recognize none x = .ok (one.bind again))
    (found : first.recognizeAll none xs = .ok all) : doc.recognizeAll none xs = .ok (all.filterMap again) := by
  induction xs generalizing all with
  | nil =>
    cases found
    rfl
  | cons x rest ih =>
    obtain ⟨one, others, here, later, rfl⟩ := recognizeAll_cons.mp found
    refine recognizeAll_cons.mpr ⟨_, _, each x List.mem_cons_self one here,
      ih (fun y member => each y (List.mem_cons_of_mem _ member)) later, ?_⟩
    cases one with
    | none => simp
    | some m => cases is : again m <;> simp [is]

/-- A model as it is found after some have been renamed. -/
def renamedModel (new : List Char) (done : List Model) (m : Model) : Option Model :=
  if m ∈ done then if new = [] then none else some { m with space := new } else some m

/-- What is recognized at an object literal, once the models of some set have been renamed. -/
theorem Renaming.recognize {one : Option Model} (run : first.Renaming doc new models.reverse) (start : first.Sound)
    (plain : first.Plain) (recognized : ∀ m ∈ models, first.recognize none m.object = .ok (some m))
    (object : first.role x = .object) (is : first.recognize none x = .ok one) :
    doc.recognize none x = .ok (one.bind (renamedModel new models)) := by
  by_cases renamed : ∃ m ∈ models, m.object = x
  · obtain ⟨m, member, rfl⟩ := renamed
    cases is.symm.trans (recognized m member)
    rw [run.recognize_done start plain (List.mem_reverse.mpr member) object is, Option.bind_some, renamedModel,
      if_pos member]
  · have other : ∀ m ∈ models.reverse, m.object ≠ x := fun m member same =>
      renamed ⟨m, List.mem_reverse.mp member, same⟩
    rw [run.recognize_other start plain object other, is]
    cases one with
    | none => rfl
    | some m =>
      have outside : m ∉ models := fun member => renamed ⟨m, member, recognize_object is⟩
      rw [Option.bind_some, renamedModel, if_neg outside]

/-- Renaming models of a document that edits of a file lead to, which were found in it just now, succeeds whatever they
    were asked for, and all of them then report the new namespace. If this is not empty, the same object literals are
    models after it, in the same order, the renamed ones with the new namespace and all others with their own; if it is,
    the other ones are, as they were. -/
theorem rename_rematched [Reader] (file : Document.parse dialect source = .ok first) (reached : Reached first doc)
    (texts : ∀ text ∈ doc.buffers, Reader.Plain doc.dialect text) {filter : Option (List Char)} (found : doc.models filter = .ok models)
    (new : List Char) :
    ∃ doc' all, (ModelSet.mk doc models).apply (.setNamespace new) =
        (⟨doc', models.map ({ · with space := new })⟩, .ok ()) ∧
      doc.models none = .ok all ∧ models = (all.filter fun m => asked filter m.space) ∧
      (new ≠ [] → doc'.models none = .ok (all.map fun m => if m ∈ models then { m with space := new } else m)) ∧
      (new = [] → doc'.models none = .ok (all.filter fun m => m ∉ models)) := by
  have sound := reached.sound file
  have root := (reached.present file).2
  have leaves := reached.plain file texts
  obtain ⟨all, whole, are⟩ := models_all found
  have objects := models_objects found
  have recognized : ∀ m ∈ models, doc.recognize none m.object = .ok (some m) := fun m member =>
    recognizeAll_mem whole (List.mem_of_mem_filter (are ▸ member))
  have titled : ∀ m ∈ models, ∃ p old, m.Titled doc p old := fun m member =>
    recognize_titled (objects m member) (recognized m member)
  obtain ⟨doc', outcome, run⟩ := (Renaming.start sound new).all sound leaves titled
    (models_nodup sound.forest root found) fun _ _ _ absent => absurd absent List.not_mem_nil
  rw [List.append_nil] at run
  have each : ∀ x ∈ doc.objects, ∀ one, doc.recognize none x = .ok one →
      doc'.recognize none x = .ok (one.bind (renamedModel new models)) := fun x listed one is =>
    run.recognize sound leaves recognized (by simpa using (List.mem_filter.mp listed).2) is
  have again : doc'.models none = .ok (all.filterMap (renamedModel new models)) := by
    rw [Document.models, run.objects sound leaves root]
    exact recognizeAll_again each whole
  refine ⟨doc', all, ?applied, whole, are, fun filled => ?filled, fun empty => ?empty⟩
  case applied => simp only [ModelSet.apply, outcome]
  case filled =>
    rw [again, ← List.filterMap_eq_map]
    refine congrArg Except.ok (List.filterMap_congr fun m _ => ?_)
    by_cases member : m ∈ models <;> simp [renamedModel, member, filled]
  case empty =>
    rw [again, ← List.filterMap_eq_filter]
    refine congrArg Except.ok (List.filterMap_congr fun m _ => ?_)
    by_cases member : m ∈ models <;> simp [renamedModel, member, empty, Option.guard]

open Syntax (twofoldReader twofoldReader_regular) in
/-- The outer one of two models is renamed, and the one in its container is not. -/
theorem rename_rematched_twofold :
    ∃ doc', @ModelSet.apply twofoldReader ⟨twofoldFile, [⟨5, ['a']⟩]⟩ (.setNamespace ['c']) =
        (⟨doc', [⟨5, ['c']⟩]⟩, .ok ()) ∧
      doc'.models none = .ok [⟨5, ['c']⟩, ⟨18, ['b']⟩] := by
  have found : twofoldFile.models (some ['a']) = .ok [⟨5, ['a']⟩] := by decide +kernel
  have both : twofoldFile.models none = .ok [⟨5, ['a']⟩, ⟨18, ['b']⟩] := by decide +kernel
  obtain ⟨doc', all, applied, whole, _, filled, _⟩ := @rename_rematched twofoldFile _ _ _ _ twofoldReader
    twofoldFile_parsed twofoldFile_reached (fun text _ => (twofoldReader_regular _ text).2) _ found ['c']
  cases both.symm.trans whole
  exact ⟨doc', applied, (filled (by simp)).trans (by decide)⟩

end Document

end StoreModels
