import StoreModels.Proofs.Model.Consistent
import StoreModels.Proofs.Record.Snippets

/-!
Edits that fail. An edit of one model looks for all that it needs before it changes anything, so that where it fails the
document is as it was. An edit of a set therefore stops between two models: it leaves what the same edit of the models
before the failing one leaves.
-/
namespace StoreModels
open Syntax (Dialect Reader sampleReader)

variable {α β : Type} {doc doc' : Document} {models : List Model} {snippet : Snippet} {failure : Failure}

/-! ## Runs that fail early or not at all -/

namespace Edit

/-- A run that fails only where it meets a broken tree. -/
def Firm (run : Edit α) : Prop :=
  ∀ doc failure doc', outcome run doc = (.error failure, doc') → failure.isBreakage = true

/-- A run that leaves a document as it is where it fails, unless it meets a broken tree. -/
def Spares (run : Edit α) (doc : Document) : Prop :=
  ∀ failure doc', outcome run doc = (.error failure, doc') → failure.isBreakage = false → doc' = doc

namespace Firm

theorem pure (a : α) : Firm (pure a) := by
  intro doc failure doc' failed
  cases failed

theorem look (view : Document → α) : Firm (Edit.look view) := by
  intro doc failure doc' failed
  cases failed

theorem make (step : Document → Document × α) : Firm (Edit.make step) := by
  intro doc failure doc' failed
  cases failed

theorem bind {first : Edit α} {next : α → Edit β} (left : Firm first) (right : ∀ a, Firm (next a)) :
    Firm (first >>= next) := by
  intro doc failure doc' failed
  rw [outcome_bind] at failed
  split at failed
  next a middle _ => exact right a middle failure doc' failed
  next other middle is =>
    cases failed
    exact left doc failure doc' is

/-- A change whose mismatches tell of a broken tree. -/
theorem change {step : Document → Except Mismatch Document}
    (breaks : ∀ doc m, step doc = .error m → (Failure.mismatch m).isBreakage = true) : Firm (Edit.change step) := by
  intro doc failure doc' failed
  rw [outcome_change] at failed
  split at failed
  next => cases failed
  next m is =>
    cases failed
    exact breaks doc m is

theorem spares {run : Edit α} (firm : Firm run) (doc : Document) : Spares run doc := by
  intro failure doc' failed intact
  rw [firm doc failure doc' failed] at intact
  cases intact

end Firm

namespace Spares

/-- Whatever comes behind an early failure must be firm. -/
theorem bind {first : Edit α} {next : α → Edit β} (left : Spares first doc) (right : ∀ a, Firm (next a)) :
    Spares (first >>= next) doc := by
  intro failure doc' failed intact
  rw [outcome_bind] at failed
  split at failed
  next a middle _ =>
    rw [right a middle failure doc' failed] at intact
    cases intact
  next other middle is =>
    cases failed
    exact left failure doc' is intact

theorem look (view : Document → α) {next : α → Edit β} (right : Spares (next (view doc)) doc) :
    Spares (Edit.look view >>= next) doc :=
  right

theorem get {next : Document → Edit β} (right : Spares (next doc) doc) : Spares (MonadState.get >>= next) doc :=
  right

theorem lift (result : Except Failure α) : Spares (liftM result) doc := by
  intro failure doc' failed _
  rw [outcome_lift] at failed
  cases failed
  rfl

theorem orFail (failure : Failure) (result : Option α) {next : α → Edit β} (right : ∀ a, Spares (next a) doc) :
    Spares (Edit.orFail failure result >>= next) doc := by
  intro other doc' failed intact
  rw [outcome_bind, outcome_orFail] at failed
  cases result with
  | none =>
    cases failed
    rfl
  | some a => exact right a other doc' failed intact

end Spares

end Edit

open Edit (Firm Spares)

namespace Document

theorem replace_breaks {old new : NodeId} (doc : Document) (m : Mismatch) (failed : doc.replace old new = .error m) :
    (Failure.mismatch m).isBreakage = true := by
  unfold replace at failed
  split at failed
  · cases failed
    rfl
  · split at failed <;> cases failed
    rfl

theorem requireObject_breaks {x : NodeId} {m : Mismatch} (failed : doc.requireObject x = .error m) :
    (Failure.mismatch m).isBreakage = true := by
  unfold requireObject at failed
  split at failed <;> cases failed
  rfl

theorem append_breaks {object entry : NodeId} (doc : Document) (m : Mismatch)
    (failed : doc.append object entry = .error m) : (Failure.mismatch m).isBreakage = true := by
  simp only [append, bind, Except.bind] at failed
  split at failed
  next is =>
    cases failed
    exact requireObject_breaks is
  next => cases failed

theorem remove_breaks {entry : NodeId} (doc : Document) (m : Mismatch) (failed : doc.remove entry = .error m) :
    (Failure.mismatch m).isBreakage = true := by
  simp only [remove, bind, Except.bind] at failed
  split at failed
  · cases failed
    rfl
  · split at failed
    next is =>
      cases failed
      exact requireObject_breaks is
    next => cases failed

end Document

theorem Snippet.next_firm (snippet : Snippet) : Firm snippet.next := by
  unfold Snippet.next
  split
  · exact (Firm.make _).bind fun copy => Firm.pure _
  · exact Firm.pure _

namespace Model
variable {model : Model} {container : Container} {name space : List Char} {quote : Char}

theorem writePair_firm (value : NodeId) : Firm (writePair name quote value) :=
  (Firm.make _).bind fun _ => Firm.make _

theorem setValue_firm (entry value : NodeId) : Firm (setValue entry name quote value) := by
  refine (Firm.look _).bind fun found => ?_
  cases found with
  | some old => exact Firm.change Document.replace_breaks
  | none => exact (writePair_firm value).bind fun pair => Firm.change Document.replace_breaks

theorem setValues_firm (entries : List NodeId) (snippet : Snippet) : Firm (setValues name quote snippet entries) := by
  induction entries generalizing snippet with
  | nil => exact Firm.pure _
  | cons entry rest ih =>
    refine snippet.next_firm.bind fun (value, snippet) => ?_
    exact (setValue_firm entry value).bind fun _ => ih snippet

theorem removeAll_firm (entries : List NodeId) : Firm (removeAll entries) := by
  induction entries with
  | nil => exact Firm.pure _
  | cons entry rest ih => exact (Firm.change Document.remove_breaks).bind fun _ => ih

/-! ## Edits of one model -/

theorem rename_spares : Spares (model.rename space) doc := by
  refine Spares.look _ (Spares.orFail _ _ fun entry => Spares.look _ (Spares.orFail _ _ fun old => ?_))
  refine Firm.spares ((Firm.look _).bind fun quote => (Firm.make _).bind fun literal => ?_) doc
  exact Firm.change Document.replace_breaks

theorem setState_firm (model : Model) (snippet : Snippet) : Firm (model.setState snippet) := by
  refine (Firm.look _).bind fun found => ?_
  cases found with
  | none => exact Firm.pure _
  | some entry => exact snippet.next_firm.bind fun (value, _) => (setValue_firm entry value).bind fun _ => Firm.pure _

theorem setState_spares : Spares (model.setState snippet) doc := (setState_firm model snippet).spares doc

theorem ensureContainer_spares : Spares (model.ensureContainer container quote) doc := by
  refine Spares.get (Spares.bind (Spares.lift (model.containerObject? doc container)) fun found => ?_)
  cases found with
  | some object => exact Firm.pure _
  | none =>
    refine (Firm.make _).bind fun object => (writePair_firm object).bind fun pair => ?_
    exact (Firm.change Document.append_breaks).bind fun _ => Firm.pure _

theorem addEntry_spares : Spares (model.addEntry container name snippet) doc := by
  refine Spares.look _ (ensureContainer_spares.bind fun object => snippet.next_firm.bind fun (value, _) => ?_)
  exact (writePair_firm value).bind fun pair => (Firm.change Document.append_breaks).bind fun _ => Firm.pure _

theorem setEntry_spares : Spares (model.setEntry container name snippet) doc := by
  refine Spares.get (Spares.bind (Spares.lift (model.namedEntries doc container name)) fun entries => ?_)
  exact (Firm.look _).bind fun quote => setValues_firm entries snippet

theorem removeEntry_spares : Spares (model.removeEntry container name) doc :=
  Spares.get (Spares.bind (Spares.lift (model.namedEntries doc container name)) fun entries => removeAll_firm entries)

end Model

/-! ## Edits of a set of models -/

namespace ModelSet

/-- An edit with a snippet stops in front of a model. -/
theorem forAll_halts {edit : Model → Snippet → Edit Snippet} (spares : ∀ m snippet doc, Spares (edit m snippet) doc)
    (intact : failure.isBreakage = false) (failed : Edit.outcome (forAll edit snippet models) doc = (.error failure, doc')) :
    ∃ before m after, models = before ++ m :: after ∧
      Edit.outcome (forAll edit snippet before) doc = (.ok (), doc') := by
  induction models generalizing doc snippet with
  | nil => cases failed
  | cons m rest ih =>
    rw [forAll, Edit.outcome_bind] at failed
    split at failed
    next snippet' middle is =>
      obtain ⟨before, m', after, split, run⟩ := ih failed
      refine ⟨m :: before, m', after, by rw [split]; rfl, ?_⟩
      rw [forAll, Edit.outcome_bind, is]
      exact run
    next other middle is =>
      cases failed
      refine ⟨[], m, rest, rfl, ?_⟩
      rw [spares m snippet doc failure doc' is intact]
      rfl

theorem forAll_firm {edit : Model → Snippet → Edit Snippet} (firm : ∀ m snippet, Firm (edit m snippet))
    (snippet : Snippet) (models : List Model) : Firm (forAll edit snippet models) := by
  induction models generalizing snippet with
  | nil => exact Firm.pure _
  | cons m rest ih => exact (firm m snippet).bind fun snippet => ih snippet

/-- An edit without a snippet stops in front of a model. -/
theorem forEach_halts {edit : Model → Edit Unit} (spares : ∀ m doc, Spares (edit m) doc)
    (intact : failure.isBreakage = false) (failed : Edit.outcome (forEach edit models) doc = (.error failure, doc')) :
    ∃ before m after, models = before ++ m :: after ∧ Edit.outcome (forEach edit before) doc = (.ok (), doc') := by
  induction models generalizing doc with
  | nil => cases failed
  | cons m rest ih =>
    rw [forEach, Edit.outcome_bind] at failed
    split at failed
    next _ middle is =>
      obtain ⟨before, m', after, split, run⟩ := ih failed
      refine ⟨m :: before, m', after, by rw [split]; rfl, ?_⟩
      rw [forEach, Edit.outcome_bind, is]
      exact run
    next other middle is =>
      cases failed
      refine ⟨[], m, rest, rfl, ?_⟩
      rw [spares m doc failure doc' is intact]
      rfl

/-- Renaming stops in front of a model. -/
theorem renameAll_halts {space : List Char} {left : List Model} (intact : failure.isBreakage = false)
    (failed : (renameAll space models).run doc = ((left, .error failure), doc')) :
    ∃ before m after done, models = before ++ m :: after ∧ left = done ++ m :: after ∧
      (renameAll space before).run doc = ((done, .ok ()), doc') := by
  induction models generalizing doc left with
  | nil => cases failed
  | cons m rest ih =>
    rw [renameAll_cons] at failed
    split at failed
    next e middle is =>
      cases failed
      refine ⟨[], m, rest, [], rfl, rfl, ?_⟩
      rw [Model.rename_spares failure doc' is intact]
      rfl
    next middle is =>
      cases later : (renameAll space rest).run middle with
      | mk result last =>
        obtain ⟨more, result⟩ := result
        rw [later] at failed
        cases failed
        obtain ⟨before, m', after, done, split, leaves, run⟩ := ih later
        refine ⟨m :: before, m', after, { m with space } :: done, by rw [split]; rfl, by rw [leaves]; rfl, ?_⟩
        rw [renameAll_cons, is]
        simp only [run]

end ModelSet

/-- The snippet that an edit reads before it looks at any model. -/
def ModelEdit.snippet? : ModelEdit → Option (List Char)
  | .setNamespace _ => none
  | .setState source => some source
  | .addEntry container _ source => some (source.getD container.defaultSource.toList)
  | .setEntry _ _ source => some source
  | .removeEntry _ _ => none

namespace ModelSet
variable [Reader] {left : ModelSet} {edit : ModelEdit}

/-- What an edit of entries leaves, by its run. -/
theorem apply_of_outcome {result : Except Failure Unit} (other : ∀ space, edit ≠ .setNamespace space)
    (run : Edit.outcome (editEntries models edit) doc = (result, doc')) :
    (ModelSet.mk doc models).apply edit = (⟨doc', models⟩, result) := by
  cases edit with
  | setNamespace space => exact absurd rfl (other space)
  | _ => exact congrArg (fun pair => (ModelSet.mk pair.2 models, pair.1)) run

/-- An edit that reads a snippet refuses it, or goes through the models. -/
theorem editEntries_snippet {source : List Char} (reads : edit.snippet? = some source) :
    ∃ step : Model → Snippet → Edit Snippet, (∀ m snippet doc, Spares (step m snippet) doc) ∧
      ∀ models, editEntries models edit = (do forAll step (← Snippet.parse source) models) := by
  cases edit with
  | setNamespace | removeEntry => cases reads
  | setState =>
    cases reads
    exact ⟨Model.setState, fun _ _ _ => Model.setState_spares, fun _ => rfl⟩
  | addEntry container name source =>
    cases reads
    exact ⟨fun m => m.addEntry container name, fun _ _ _ => Model.addEntry_spares, fun _ => rfl⟩
  | setEntry container name source =>
    cases reads
    exact ⟨fun m => m.setEntry container name, fun _ _ _ => Model.setEntry_spares, fun _ => rfl⟩

/-- Reading a snippet adds its tree to a document, or leaves the document as it is. -/
theorem parse_outcome (source : List Char) (doc : Document) :
    Edit.outcome (Snippet.parse source) doc =
      match doc.parseExpression source with
      | .ok (grown, tree) => (.ok ⟨tree, false⟩, grown)
      | .error e => (.error (.ofRead e), doc) := by
  cases read : doc.parseExpression source with
  | error e => simp only [Snippet.parse, Edit.outcome_bind, Edit.outcome_get, read, Edit.outcome_throw]
  | ok result =>
    simp only [Snippet.parse, Edit.outcome_bind, Edit.outcome_get, read, Edit.outcome_set, Edit.outcome_pure]

/-- An edit with a snippet that succeeds has read the snippet and gone through all models. -/
theorem forAll_of_apply {source : List Char} {step : Model → Snippet → Edit Snippet} {grown : Document} {tree : NodeId}
    (other : ∀ space, edit ≠ .setNamespace space)
    (runs : editEntries models edit = do forAll step (← Snippet.parse source) models)
    (read : doc.parseExpression source = .ok (grown, tree))
    (given : (ModelSet.mk doc models).apply edit = (left, .ok ())) :
    Edit.outcome (forAll step ⟨tree, false⟩ models) grown = (.ok (), left.doc) := by
  cases run : Edit.outcome (editEntries models edit) doc with
  | mk result doc' =>
    rw [apply_of_outcome other run] at given
    cases given
    rw [runs, Edit.outcome_bind, parse_outcome, read] at run
    exact run

/-- A failing edit has refused its snippet or stops in front of a model, and leaves what the same edit of the models
    before that one leaves. -/
theorem apply_halts {failure : Failure} (intact : failure.isBreakage = false)
    (failed : (ModelSet.mk doc models).apply edit = (left, .error failure)) :
    (left = ⟨doc, models⟩ ∧ ∃ source e, edit.snippet? = some source ∧ doc.parseExpression source = .error e ∧
      failure = .ofRead e) ∨
    ∃ before m after done, models = before ++ m :: after ∧
      (ModelSet.mk doc before).apply edit = (⟨left.doc, done⟩, .ok ()) ∧ left.models = done ++ m :: after := by
  cases reads : edit.snippet? with
  | some source =>
    obtain ⟨step, spares, runs⟩ := editEntries_snippet reads
    have other : ∀ space, edit ≠ .setNamespace space := by
      rintro space rfl
      cases reads
    cases run : Edit.outcome (editEntries models edit) doc with
    | mk result doc' =>
      rw [apply_of_outcome other run] at failed
      cases failed
      rw [runs, Edit.outcome_bind, parse_outcome] at run
      cases read : doc.parseExpression source with
      | error e =>
        rw [read] at run
        cases run
        exact .inl ⟨rfl, source, e, rfl, read, rfl⟩
      | ok result =>
        obtain ⟨grown, tree⟩ := result
        rw [read] at run
        obtain ⟨before, m, after, split, run⟩ := forAll_halts spares intact run
        refine .inr ⟨before, m, after, before, split, apply_of_outcome other ?_, split⟩
        rw [runs, Edit.outcome_bind, parse_outcome, read]
        exact run
  | none =>
    refine .inr ?_
    cases edit with
    | setState | addEntry | setEntry => cases reads
    | setNamespace space =>
      cases run : (renameAll space models).run doc with
      | mk result doc' =>
        obtain ⟨leaves, result⟩ := result
        simp only [apply, run] at failed
        cases failed
        obtain ⟨before, m, after, done, split, rfl, stops⟩ := renameAll_halts intact run
        refine ⟨before, m, after, done, split, ?_, rfl⟩
        simp only [apply, stops]
    | removeEntry container name =>
      cases run : Edit.outcome (editEntries models (.removeEntry container name)) doc with
      | mk result doc' =>
        rw [apply_of_outcome (by simp) run] at failed
        cases failed
        obtain ⟨before, m, after, split, run⟩ := forEach_halts (fun _ _ => Model.removeEntry_spares) intact run
        exact ⟨before, m, after, before, split, apply_of_outcome (by simp) run, split⟩

/-- An edit of no models changes nothing but that it may have read its snippet. -/
theorem apply_none {result : Except Failure Unit} (run : (ModelSet.mk doc []).apply edit = (left, result)) :
    left.doc = doc ∨ ∃ source tree, doc.parseExpression source = .ok (left.doc, tree) := by
  cases reads : edit.snippet? with
  | none =>
    cases edit with
    | setState | addEntry | setEntry => cases reads
    | setNamespace | removeEntry =>
      cases run
      exact .inl rfl
  | some source =>
    obtain ⟨step, _, runs⟩ := editEntries_snippet reads
    have other : ∀ space, edit ≠ .setNamespace space := by
      rintro space rfl
      cases reads
    have all := runs []
    cases is : Edit.outcome (editEntries [] edit) doc with
    | mk last doc' =>
      rw [apply_of_outcome other is] at run
      cases run
      rw [all, Edit.outcome_bind, parse_outcome] at is
      cases read : doc.parseExpression source with
      | error e =>
        rw [read] at is
        cases is
        exact .inl rfl
      | ok grown =>
        obtain ⟨grown, tree⟩ := grown
        rw [read] at is
        cases is
        exact .inr ⟨source, tree, read⟩

end ModelSet

namespace Document
variable {first : Document} {dialect : Dialect} {source : List Char} {edit : ModelEdit} {left : ModelSet}

/-- A snippet that is read adds nodes to a document, and leaves its text and all the nodes that it had. -/
theorem parseExpression_print [Reader] {text : List Char} {tree : NodeId} (sound : doc.Sound)
    (texts : 0 < doc.buffers.length) (present : doc.root < doc.nodes.size) (read : doc.parseExpression text = .ok (doc', tree)) :
    doc'.print = doc.print ∧ doc'.root = doc.root ∧ ∀ x < doc.nodes.size, doc'.node x = doc.node x := by
  have calm := parseExpression_calm read sound
  have forest := (Move.sound (.adopt text read) sound).forest
  have node : ∀ x < doc.nodes.size, doc'.node x = doc.node x := by
    obtain ⟨_, _, _, adopted⟩ := parseExpression_adopted read
    exact adopted.longer.node
  have shown := calm.render sound forest present (apart_nowhere doc doc.root) [] 0
  refine ⟨print_congr calm.ext.root (calm.ext.origin doc.root present) (calm.ext.buffer texts) shown, calm.ext.root, node⟩

/-- A failing edit of models in a document that edits lead to has refused its snippet, and then the set is as it was; or
    it stops in front of a model, and then the document is the one that the same edit of the models before that one
    leads to. So a failing edit of a single model leaves the text and all nodes of the document. -/
theorem failing_edit_halts [Reader] (file : Document.parse dialect source = .ok first) (reached : Reached first doc)
    (objects : ∀ m ∈ models, doc.role m.object = .object)
    (failed : (ModelSet.mk doc models).apply edit = (left, .error failure)) :
    ((left = ⟨doc, models⟩ ∧ ∃ text e, edit.snippet? = some text ∧ doc.parseExpression text = .error e ∧
        failure = .ofRead e) ∨
      ∃ before m after done, models = before ++ m :: after ∧
        (ModelSet.mk doc before).apply edit = (⟨left.doc, done⟩, .ok ()) ∧ left.models = done ++ m :: after) ∧
    ∀ m, models = [m] → left.models = [m] ∧ left.doc.print = doc.print ∧ left.doc.root = doc.root ∧
      ∀ x < doc.nodes.size, left.doc.node x = doc.node x := by
  have sound := reached.sound file
  have intact := (ModelSet.apply_does sound objects edit).2 failure (by rw [failed])
  have halts := ModelSet.apply_halts intact failed
  refine ⟨halts, ?_⟩
  rintro m rfl
  rcases halts with ⟨rfl, _⟩ | ⟨before, m', after, done, split, run, leaves⟩
  · exact ⟨rfl, rfl, rfl, fun _ _ => rfl⟩
  · obtain ⟨rfl, rfl, rfl⟩ : before = [] ∧ m' = m ∧ after = [] := by
      rw [eq_comm, List.append_eq_singleton_iff] at split
      simpa [eq_comm] using split
    have none : done = [] := by
      have same := ModelSet.apply_objects ⟨doc, []⟩ edit
      rw [run] at same
      simpa using same
    subst none
    refine ⟨leaves, ?_⟩
    rcases ModelSet.apply_none run with same | ⟨text, tree, read⟩
    · have same : left.doc = doc := same
      rw [same]
      exact ⟨rfl, rfl, fun _ _ => rfl⟩
    · obtain ⟨texts, present⟩ := reached.present file
      exact parseExpression_print sound texts present read

/-- The model of the sample, edited once, has no entry `c` that could get another value. -/
theorem failing_edit_halts_sample :
    ∃ left failure, @ModelSet.apply sampleReader ⟨sampleEdited (.setEntry .reducers ['b'] ['2']), [⟨5, ['a']⟩]⟩
        (.setEntry .reducers ['c'] ['2']) = (left, .error failure) ∧
      left.doc.print = (sampleEdited (.setEntry .reducers ['b'] ['2'])).print := by
  have fails : (@ModelSet.apply sampleReader ⟨sampleEdited (.setEntry .reducers ['b'] ['2']), [⟨5, ['a']⟩]⟩
      (.setEntry .reducers ['c'] ['2'])).2 = .error (.entryNotFound ['a'] "reducer" ['c']) := by decide +kernel
  cases run : @ModelSet.apply sampleReader ⟨sampleEdited (.setEntry .reducers ['b'] ['2']), [⟨5, ['a']⟩]⟩
      (.setEntry .reducers ['c'] ['2']) with
  | mk left result =>
    rw [run] at fails
    cases fails
    have halts := @failing_edit_halts _ _ _ _ _ _ _ _ sampleReader sampleFile_parsed
      (sampleEdited_reached (.setEntry .reducers ['b'] ['2'])) (by decide +kernel) run
    exact ⟨left, _, rfl, (halts.2 _ rfl).2.1⟩

end Document

end StoreModels
