import StoreModels.Proofs.Document.Order
import StoreModels.Proofs.Model.Renamed

/-!
The models of a document, exactly. Finding them fails just if some object literal of the tree has a bare namespace that
is no string literal. Otherwise the object literals are found whose last bare namespace is not empty and which have one
more property of a model, each once and in the order of a walk; in a file as it was parsed, this is the order in which
they start. Asking for one namespace leaves out the others.
-/
namespace StoreModels
open Syntax (Dialect Outline Reader)

variable {doc first : Document} {dialect : Dialect} {source : List Char} {x y z e c : NodeId} {m : Model}
  {es xs : List NodeId} {filter : Option (List Char)} {buffer : BufferId}

/-- The names of the properties that, besides a namespace, make an object literal a model. -/
def shapeNames : List String := ["state", "reducers", "effects", "subscriptions"]

namespace Document

/-- An entry has the bare key of a namespace, and no string literal for a value. A shorthand and a method have none. -/
def Dumb (doc : Document) (entry : NodeId) : Prop :=
  doc.entryIdentifier? entry = some Model.namespaceName ∧
    ∀ value, doc.pairValue? entry = some value → doc.role value ≠ .stringLiteral

/-- An object literal of the tree has the namespace of a model, told by the last entry with its bare key, and one more
    property of a model under its bare name. -/
structure Matches (doc : Document) (m : Model) : Prop where
  attached : doc.Below doc.root m.object
  titled : ∃ entry value, m.Titled doc entry value
  filled : m.space ≠ []
  shaped : ∃ e ∈ doc.entries m.object, ∃ name ∈ shapeNames, doc.entryIdentifier? e = some name.toList

/-! ## Failures -/

theorem namespaceText_fails (entry : (doc.role e).isEntry = true) :
    (∃ failure, doc.namespaceText e = .error failure) ↔ ∀ v, doc.pairValue? e = some v → doc.role v ≠ .stringLiteral := by
  cases tells : doc.namespaceText e with
  | error failure =>
    refine iff_of_true ⟨failure, rfl⟩ fun v held literal => ?_
    rw [namespaceText, entryBody, held, Option.getD_some, if_pos literal] at tells
    cases tells
  | ok text =>
    obtain ⟨v, held, literal, _⟩ := namespaceText_held entry tells
    refine iff_of_false ?_ fun none => none v held literal
    rintro ⟨_, failed⟩
    cases failed

/-- Looking through entries fails at the first bare namespace that is no string literal. -/
theorem recognizeEntries_fails (entries : ∀ e ∈ es, (doc.role e).isEntry = true) (space : Option (List Char))
    (shaped : Bool) :
    (∃ failure, doc.recognizeEntries space shaped es = .error failure) ↔ ∃ e ∈ es, doc.Dumb e := by
  induction es generalizing space shaped with
  | nil => simp [recognizeEntries]
  | cons e rest ih =>
    obtain ⟨entry, others⟩ := List.forall_mem_cons.mp entries
    have later := ih others
    rw [List.exists_mem_cons_iff]
    unfold recognizeEntries
    split
    next none =>
      rw [later, or_iff_right]
      rintro ⟨named, _⟩
      have is : doc.entryProperty? e = some .nameSpace := entryProperty?_eq_some.mpr named
      rw [is] at none
      cases none
    next is =>
      have fails := namespaceText_fails entry
      cases tells : doc.namespaceText e with
      | error failure =>
        exact iff_of_true ⟨failure, rfl⟩ (.inl ⟨entryProperty?_eq_some.mp is, fails.mp ⟨failure, tells⟩⟩)
      | ok text =>
        refine (later (some text) shaped).trans (or_iff_right fun dumb => ?_).symm
        obtain ⟨failure, failed⟩ := fails.mpr dumb.2
        rw [tells] at failed
        cases failed
    next property other is =>
      rw [later, or_iff_right]
      rintro ⟨named, _⟩
      have same : doc.entryProperty? e = some .nameSpace := entryProperty?_eq_some.mpr named
      rw [is] at same
      exact other (Option.some.inj same)

theorem recognize_fails (doc : Document) (filter : Option (List Char)) (x : NodeId) :
    (∃ failure, doc.recognize filter x = .error failure) ↔ ∃ e ∈ doc.entries x, doc.Dumb e := by
  rw [← recognizeEntries_fails (fun e member => (mem_entries member).2) none false]
  unfold recognize
  cases doc.recognizeEntries none false (doc.entries x) with
  | error failure => exact iff_of_true ⟨failure, rfl⟩ ⟨failure, rfl⟩
  | ok result =>
    obtain ⟨space, shaped⟩ := result
    refine iff_of_false (fun ⟨failure, failed⟩ => ?_) fun ⟨_, failed⟩ => by cases failed
    cases space with
    | none => cases failed
    | some space =>
      simp only [bind, Except.bind, pure, Except.pure] at failed
      split at failed <;> cases failed

theorem recognizeAll_fails (doc : Document) (filter : Option (List Char)) (xs : List NodeId) :
    (∃ failure, doc.recognizeAll filter xs = .error failure) ↔ ∃ x ∈ xs, ∃ e ∈ doc.entries x, doc.Dumb e := by
  induction xs with
  | nil => simp [recognizeAll]
  | cons x rest ih =>
    rw [List.exists_mem_cons_iff, ← ih, ← recognize_fails doc filter x, recognizeAll]
    cases doc.recognize filter x with
    | error failure => exact iff_of_true ⟨failure, rfl⟩ (.inl ⟨failure, rfl⟩)
    | ok found =>
      cases doc.recognizeAll filter rest with
      | error failure => exact iff_of_true ⟨failure, rfl⟩ (.inr ⟨failure, rfl⟩)
      | ok others => simp [bind, Except.bind, pure, Except.pure]

/-! ## Models -/

theorem entryProperty?_shapes :
    (∃ property, doc.entryProperty? e = some property ∧ property.makesModel = true) ↔
      ∃ name ∈ shapeNames, doc.entryIdentifier? e = some name.toList := by
  constructor
  · rintro ⟨property, is, makes⟩
    refine ⟨property.name, ?_, entryProperty?_eq_some.mp is⟩
    cases property with
    | nameSpace => cases makes
    | state => decide
    | container c => cases c <;> decide
  · rintro ⟨name, listed, is⟩
    have each : ∀ name ∈ shapeNames, ∃ property : Property, property.name = name ∧ property.makesModel = true := by
      simp only [shapeNames, List.forall_mem_cons]
      exact ⟨⟨.state, rfl, rfl⟩, ⟨.container .reducers, rfl, rfl⟩, ⟨.container .effects, rfl, rfl⟩,
        ⟨.container .subscriptions, rfl, rfl⟩, by simp⟩
    obtain ⟨property, rfl, makes⟩ := each name listed
    exact ⟨property, entryProperty?_eq_some.mpr is, makes⟩

/-- What entries come to tells whether a property that makes a model is among them. -/
theorem recognizeEntries_shape {space found : Option (List Char)} {shaped shape : Bool}
    (run : doc.recognizeEntries space shaped es = .ok (found, shape)) :
    shape = true ↔ shaped = true ∨ ∃ e ∈ es, ∃ property, doc.entryProperty? e = some property ∧
      property.makesModel = true := by
  induction es generalizing space shaped with
  | nil =>
    cases run
    simp
  | cons e rest ih =>
    rw [List.exists_mem_cons_iff]
    unfold recognizeEntries at run
    split at run
    next none => rw [ih run]; simp [none]
    next is =>
      obtain ⟨text, _, run⟩ := bind_eq_ok.mp run
      rw [ih run]
      simp [is, Property.makesModel]
    next property _ is =>
      rw [ih run]
      simp [is, or_assoc]

/-- An object literal without a namespace that fails is recognized just as the model that it is. -/
theorem recognize_matches (object : doc.role x = .object) (sane : ¬ ∃ e ∈ doc.entries x, doc.Dumb e) :
    doc.recognize none x = .ok (some m) ↔ m.object = x ∧ (∃ entry value, m.Titled doc entry value) ∧ m.space ≠ [] ∧
      ∃ e ∈ doc.entries x, ∃ name ∈ shapeNames, doc.entryIdentifier? e = some name.toList := by
  have shapes : ∀ {found shape}, doc.recognizeEntries none false (doc.entries x) = .ok (found, shape) →
      (shape = true ↔ ∃ e ∈ doc.entries x, ∃ name ∈ shapeNames, doc.entryIdentifier? e = some name.toList) := by
    intro found shape run
    rw [recognizeEntries_shape run]
    simp only [Bool.false_eq_true, false_or, entryProperty?_shapes]
  constructor
  · intro run
    have titled := recognize_titled object run
    obtain ⟨here, filled, run⟩ := recognize_some_iff.mp run
    exact ⟨here, titled, filled, (shapes run).mp rfl⟩
  · rintro ⟨rfl, ⟨p, v, titled⟩, filled, shape⟩
    cases run : doc.recognizeEntries none false (doc.entries m.object) with
    | error failure =>
      exact absurd ((recognizeEntries_fails (fun e member => (mem_entries member).2) _ _).mp ⟨failure, run⟩) sane
    | ok result =>
      obtain ⟨found, shaped⟩ := result
      obtain rfl := (shapes run).mpr shape
      rcases recognizeEntries_titled run with ⟨_, absent⟩ | ⟨p', v', named, held, _, is⟩
      · rw [titled.named] at absent
        cases absent
      · obtain rfl : p = p' := Option.some.inj (titled.named.symm.trans named)
        obtain rfl : v = v' := Option.some.inj (titled.held.symm.trans held)
        rw [titled.space] at is
        exact recognize_some_iff.mpr ⟨rfl, filled, is ▸ run⟩

theorem mem_objects (forest : doc.Forest) (root : doc.root < doc.nodes.size) :
    x ∈ doc.objects ↔ doc.Below doc.root x ∧ doc.role x = .object := by
  rw [objects, List.mem_filter, mem_descendants forest root, decide_eq_true_iff]

/-- The models that are found are just those that the tree holds. -/
theorem mem_models_matches (forest : doc.Forest) (root : doc.root < doc.nodes.size) {all : List Model}
    (found : doc.models none = .ok all) : m ∈ all ↔ doc.Matches m := by
  have sane : ∀ x ∈ doc.objects, ¬ ∃ e ∈ doc.entries x, doc.Dumb e := fun x listed dumb => by
    obtain ⟨failure, failed⟩ := (recognizeAll_fails doc none doc.objects).mpr ⟨x, listed, dumb⟩
    cases found.symm.trans failed
  constructor
  · intro member
    have listed := mem_recognizeAll found member
    have object := (mem_objects forest root).mp listed
    obtain ⟨_, titled, filled, shaped⟩ := (recognize_matches object.2 (sane _ listed)).mp (recognizeAll_mem found member)
    exact ⟨object.1, titled, filled, shaped⟩
  · rintro ⟨attached, titled, filled, shaped⟩
    obtain ⟨p, v, told⟩ := titled
    have listed := (mem_objects forest root).mpr ⟨attached, told.object⟩
    have run := (recognize_matches told.object (sane _ listed)).mpr ⟨rfl, ⟨p, v, told⟩, filled, shaped⟩
    rcases mem_of_recognize found listed with none | ⟨m', member, is⟩
    · cases run.symm.trans none
    · cases run.symm.trans is
      exact member

theorem asked_some (space other : List Char) : asked (some space) other = decide (other = space) := by
  by_cases is : other = space
  · simp [asked, is]
  · simp [asked, is, Ne.symm is]

/-- Asking for one namespace fails as asking for all does, and leaves out the models of the others. -/
theorem models_some (doc : Document) (space : List Char) :
    doc.models (some space) = (doc.models none).map fun all => all.filter fun m => m.space = space := by
  have each : ∀ xs, doc.recognizeAll (some space) xs =
      (doc.recognizeAll none xs).map fun all => all.filter fun m => m.space = space := by
    intro xs
    induction xs with
    | nil => rfl
    | cons x rest ih =>
      rw [recognizeAll, recognizeAll, recognize_eq, ih]
      cases doc.recognize none x with
      | error failure => rfl
      | ok found =>
        cases doc.recognizeAll none rest with
        | error failure => rfl
        | ok others =>
          have filtered : (found.filter fun m => asked (some space) m.space).toList =
              found.toList.filter fun m => m.space = space := by
            simp only [asked_some]
            cases found with
            | none => rfl
            | some m => by_cases is : m.space = space <;> simp [is, Option.filter]
          simp [bind, Except.bind, pure, Except.pure, Except.map, filtered]
  exact each _

/-- The records of the models of one namespace are those of all models that have it. -/
theorem extractAll_some {callees : List (List Char)} {ms : List Model} {records : List ModelRecord}
    (all : doc.extractAll callees ms = .ok records) (space : List Char) :
    doc.extractAll callees (ms.filter fun m => m.space = space) =
      .ok (records.filter fun record => record.space = space) := by
  have pairs := extractAll_iff.mp all
  refine extractAll_iff.mpr ?_
  clear all
  induction pairs with
  | nil => exact .nil
  | @cons m record ms records here _ ih =>
    have same : record.space = m.space := extractEntries_space here
    by_cases is : m.space = space
    · rw [List.filter_cons_of_pos (by simpa using is), List.filter_cons_of_pos (by simpa [same] using is)]
      exact .cons here ih
    · rw [List.filter_cons_of_neg (by simpa using is), List.filter_cons_of_neg (by simpa [same] using is)]
      exact ih

/-! ## The order of the text -/

namespace Pristine
variable (shaped : doc.Shaped) (plain : doc.Pristine buffer y) (object : doc.role y = .object)
include shaped plain object

/-- An object literal takes up some place, and what is inside of its parts starts behind its opening brace. -/
theorem object_starts {span : Syntax.Span} (origin : (doc.node y).origin = .parsed buffer span)
    (bare : ∀ c ∈ doc.children y, (doc.role c).isEntry = true ∨ doc.children c = []) :
    span.start < span.stop ∧ ∀ z, doc.Below y z → z ≠ y → doc.role z = .object → doc.StartsBefore buffer y z := by
  obtain ⟨outline, places, ordered, braces⟩ := plain.places shaped origin
  rcases braces object with ⟨rfl, keyword⟩ | braces
  · -- The keyword has no parts.
    have none : doc.children y = [] := List.forall₂_nil_right_iff.mp places
    have wide : span.start < span.stop := by
      by_contra narrow
      rw [Text.slice_empty _ (Nat.le_of_not_lt narrow), Outline.kind_of_object object] at keyword
      cases keyword
    refine ⟨wide, fun z below other _ => ?_⟩
    rcases Relation.ReflTransGen.cases_head below with rfl | ⟨c, child, _⟩
    · exact absurd rfl other
    · rw [none] at child
      cases child
  obtain ⟨opening, inner, closing, rfl, opens, _, _, _⟩ := Outline.isObject_split braces
  simp only [Outline.isBrace, Bool.and_eq_true, beq_iff_eq, decide_eq_true_eq] at opens
  obtain ⟨low, _, later⟩ := ordered
  have high := later.le
  refine ⟨by omega, fun z below other role => ?_⟩
  rcases Relation.ReflTransGen.cases_head below with rfl | ⟨c, child, under⟩
  · exact absurd rfl other
  have inside := plain.below (Below.child child)
  obtain ⟨span', origin'⟩ := inside.parsed z under
  cases places' : doc.children y with
  | nil => rw [places'] at child; cases child
  | cons brace rest =>
    rw [places'] at places child
    obtain _ | ⟨place, places⟩ := places
    rcases List.mem_cons.mp child with rfl | among
    · -- The opening brace has no parts.
      have kind : doc.role c = .other := by rw [Document.role, Node.role, place.1, opens.1]; decide
      rcases bare c (places' ▸ List.mem_cons_self) with entry | leaf
      · rw [kind] at entry
        cases entry
      · rcases Relation.ReflTransGen.cases_head under with rfl | ⟨d, deeper, _⟩
        · rw [kind] at role
          cases role
        · rw [leaf] at deeper
          cases deeper
    · obtain ⟨part, listed, place'⟩ := forall₂_mem_left places among
      have behind := later.mem (List.mem_map_of_mem listed)
      have deeper := inside.inside shaped under place'.2 origin'
      exact ⟨span, span', origin, origin', by omega⟩

end Pristine

/-- In a tree that is as it was parsed, object literals are visited in the order in which they start. -/
theorem Pristine.objects_ordered (pristine : doc.Pristine buffer x) (shaped : doc.Shaped) (forest : doc.Forest)
    (lt : x < doc.nodes.size)
    (bare : ∀ {y c}, doc.role y = .object → c ∈ doc.children y → (doc.role c).isEntry = true ∨ doc.children c = []) :
    ((doc.descendants x).filter fun id => doc.role id = .object).Pairwise (doc.StartsBefore buffer) := by
  have walk := (pristine.descend_ordered shaped (forest.fits lt)).and (nodup_descendants forest lt)
  refine (List.Pairwise.filter _ walk).imp_of_mem fun {y z} first second apart => ?_
  obtain ⟨here, object⟩ := List.mem_filter.mp first
  obtain ⟨there, object'⟩ := List.mem_filter.mp second
  have pristine' := pristine.below (below_of_mem_descend here)
  obtain ⟨span, origin⟩ := pristine'.parsed y (Below.refl doc y)
  have starts := pristine'.object_starts shaped (by simpa using object) origin fun c => bare (by simpa using object)
  rcases apart with ⟨above | ⟨s, s', left, right, behind⟩, other⟩
  · exact starts.2 z above (Ne.symm other) (by simpa using object')
  · cases origin.symm.trans left
    exact ⟨span, s', origin, right, Nat.lt_of_lt_of_le starts.1 behind⟩

/-- Finding the models of a document that edits of a file lead to fails just if an object literal of the tree has a bare
    namespace that is no string literal. Otherwise the models are those that the tree holds, each once, in the order of a
    walk that visits each node before its children and these one after the other; in the file as it was parsed, in the
    order in which they start. Asking for one namespace fails in the same cases and leaves out the other models, and so
    does reporting them with their records, if there are records of all. -/
theorem models_exact [Reader] (file : Document.parse dialect source = .ok first) (reached : Reached first doc) :
    ((∃ failure, doc.models none = .error failure) ↔
      ∃ x, doc.Below doc.root x ∧ doc.role x = .object ∧ ∃ e ∈ doc.entries x, doc.Dumb e) ∧
    (∀ all, doc.models none = .ok all →
      (∀ m, m ∈ all ↔ doc.Matches m) ∧ (all.map Model.object).Nodup ∧
        (all.map Model.object).Sublist (doc.visit doc.nodes.size [doc.root]).1 ∧
        (all.map Model.object).Pairwise (fun x y => ¬ doc.Below y x) ∧
        ∀ indent, doc = first.withFallbackIndent indent → Reader.Lawful dialect source →
          (∀ program, Reader.program? dialect source = some program → program.Bare) →
            (all.map Model.object).Pairwise (doc.StartsBefore 0)) ∧
    (doc.visit doc.nodes.size [doc.root] = (doc.descendants doc.root, []) ∧
      ∀ x < doc.nodes.size, doc.descendants x = x :: (doc.children x).flatMap doc.descendants) ∧
    (∀ space, doc.models (some space) = (doc.models none).map fun all => all.filter fun m => m.space = space) ∧
    ∀ callees records, doc.extract callees none = .ok records → ∀ space,
      doc.extract callees (some space) = .ok (records.filter fun record => record.space = space) := by
  have forest := (reached.sound file).forest
  have root := (reached.present file).2
  have walk := visit_descendants forest root
  refine ⟨?fails, fun all found => ⟨fun m => mem_models_matches forest root found, models_nodup forest root found,
    ?walked, ?outer, ?ordered⟩, ⟨walk, fun x lt => descendants_eq forest lt⟩, models_some doc, ?records⟩
  case fails =>
    refine (recognizeAll_fails doc none doc.objects).trans (exists_congr fun x => ?_)
    rw [mem_objects forest root, and_assoc]
  case walked =>
    rw [walk]
    exact (recognizeAll_sublist found).trans List.filter_sublist
  case outer =>
    exact (descendants_outer forest root).sublist ((recognizeAll_sublist found).trans List.filter_sublist)
  case ordered =>
    intro indent is lawful bare
    have start : first.root < first.nodes.size := by
      obtain ⟨_, _, root, some⟩ := parse_buffers file
      exact root ▸ some
    obtain ⟨program, read, fresh⟩ := Fresh.ofFile file indent
    have shaped := (parse_shaped file (parse_readable file lawful)).withFallbackIndent indent
    subst is
    refine (Pristine.objects_ordered (parse_pristine file indent start) shaped forest root ?_).sublist
      (recognizeAll_sublist found)
    exact fun object child => fresh.bare (bare program read) object child
  case records =>
    intro callees records run space
    obtain ⟨all, found, run⟩ := bind_eq_ok.mp run
    exact bind_eq_ok.mpr ⟨_, by rw [models_some, found]; rfl, extractAll_some run space⟩

end Document

/-! ## A sample -/

namespace Syntax

/-- A file with a model whose container is another model. -/
def twofoldText : List Char := "x=\x7bnamespace:'a',reducers:\x7bnamespace:'b',reducers:\x7breducers:0\x7d\x7d\x7d".toList

/-- A container with a container's name for an entry. -/
def twofoldSnippet : List Char := "\x7breducers:1\x7d".toList

/-- The tree of the file. -/
def twofoldTree : Tree :=
  let innermost := Tree.braced (some "value") 50 62 [.keyed 51 59 (.number (some "value") 60 61)]
  let inner := Tree.braced (some "value") 26 63 [.spaced 27, .mark "," 40, .keyed 41 49 innermost]
  .assigned 0 (.braced (some "right") 2 64 [.spaced 3, .mark "," 16, .keyed 17 25 inner])

/-- The tree of the container as a snippet. -/
def twofoldSnippetTree : Tree :=
  .enclosed 15 (.braced none 1 13 [.keyed 2 10 (.number (some "value") 11 12)])

/-- A reader of the file and of that snippet. -/
@[reducible] def twofoldReader : Reader :=
  ⟨fun _ text => List.lookup text [(twofoldText, twofoldTree), (snippetText twofoldSnippet, twofoldSnippetTree)]⟩

theorem twofoldReader_regular (dialect : Dialect) (text : List Char) : twofoldReader.Regular dialect text :=
  ⟨lawful_of_lookup (by decide +kernel) dialect text, plain_of_lookup (by decide +kernel) dialect text⟩

end Syntax

namespace Document
open Syntax (twofoldText twofoldTree twofoldReader twofoldReader_regular)

def twofoldFile : Document := ofTree .markup twofoldText twofoldTree

theorem twofoldFile_parsed : @Document.parse twofoldReader .markup twofoldText = .ok twofoldFile := rfl

theorem twofoldFile_reached : @Reached twofoldReader twofoldFile twofoldFile := by
  have start := @Reached.start twofoldReader twofoldFile twofoldFile.fallbackIndent
  rwa [withFallbackIndent_self] at start

/-- Both models of the file are found, the outer one first. -/
theorem models_exact_twofold :
    ∃ all, twofoldFile.models none = .ok all ∧ all.map Model.space = [['a'], ['b']] ∧
      (∀ m, m ∈ all ↔ twofoldFile.Matches m) ∧ (all.map Model.object).Pairwise (twofoldFile.StartsBefore 0) ∧
      twofoldFile.models (some ['b']) = .ok (all.filter fun m => m.space = ['b']) := by
  have found : twofoldFile.models none = .ok [⟨5, ['a']⟩, ⟨18, ['b']⟩] := by decide +kernel
  have whole := @models_exact twofoldFile _ _ _ twofoldReader twofoldFile_parsed
    twofoldFile_reached
  have listed := whole.2.1 _ found
  refine ⟨_, found, rfl, listed.1, listed.2.2.2.2 _ withFallbackIndent_self.symm (twofoldReader_regular _ _).1 ?_, ?_⟩
  · rintro _ ⟨⟩
    decide +kernel
  · rw [whole.2.2.2.1, found]
    rfl

end Document

end StoreModels
