import StoreModels.Proofs.Model.Chasing
import StoreModels.Proofs.Model.Renewed

/-!
Updates that are repeated. Whatever an update put in place, another one of the same kind puts other things in just these
places; so of two updates in a row the last one decides on the text, and one that is run twice leaves the same text.
-/
namespace StoreModels
open Syntax (Dialect Reader)

/-- Two edits update the same: the namespaces, the states, or the entries with a name in a container. -/
inductive ModelEdit.Again : ModelEdit → ModelEdit → Prop
  | setNamespace (earlier later : List Char) : Again (.setNamespace earlier) (.setNamespace later)
  | setState (earlier later : List Char) : Again (.setState earlier) (.setState later)
  | setEntry (container : Container) (name earlier later : List Char) :
    Again (.setEntry container name earlier) (.setEntry container name later)

theorem ModelEdit.Again.self {earlier later : ModelEdit} (again : Again earlier later) : Again earlier earlier := by
  cases again with
  | setNamespace => exact .setNamespace _ _
  | setState => exact .setState _ _
  | setEntry => exact .setEntry _ _ _ _

namespace Document
variable {doc doc' mid first : Document} {name source text : List Char} {models : List Model} {dialect : Dialect}
  {edit : Model → Snippet → Edit Snippet} {aim : Model → Target → Prop} {skip : (Target → Prop) → Model → Prop}
  {earlier later : ModelEdit} {set set₁ : ModelSet}

/-- Of two edits with snippets the last one decides on the text, if each edit of a model reaches its targets and keeps up
    with itself in a document where they were reached before. -/
theorem forAll_again [Reader] (fit : first.Fit first (models.map Model.object)) (texts : 0 < first.buffers.length)
    (root : first.root < first.nodes.size)
    (fresh : models.Nodup)
    (order : models.Pairwise fun m n => ¬ first.Below n.object m.object)
    (reaches : ∀ {doc edited m rest done snippet taken}, m ∈ models →
      first.Underway doc name aim models (m :: rest) done snippet →
      Edit.outcome (edit m snippet) doc = (.ok taken, edited) →
      first.Underway edited name aim models rest (fun t => (¬ skip done m ∧ aim m t) ∨ done t) taken)
    (chases : ∀ {doc doc' edited m rest done snippet snippet' taken} {all : Target → Prop}, (∀ t, all t → t.Lies first) →
      m ∈ models → first.Chasing doc doc' name aim skip models (m :: rest) done all snippet snippet' →
      Edit.outcome (edit m snippet) doc = (.ok taken, edited) →
      ∃ done taken' edited', Edit.outcome (edit m snippet') doc' = (.ok taken', edited') ∧
        first.Chasing edited edited' name aim skip models rest done all taken taken')
    (moves : first.Moves mid) (learns : first.Learns mid Reader.Regular)
    (regular : Reader.Regular first.dialect (Syntax.snippetText (Text.trim text)))
    (once : Edit.outcome (do ModelSet.forAll edit (← Snippet.parse source) models) first = (.ok (), mid))
    (alone : Edit.outcome (do ModelSet.forAll edit (← Snippet.parse text) models) first = (.ok (), doc)) :
    ∃ doc', Edit.outcome (do ModelSet.forAll edit (← Snippet.parse text) models) mid = (.ok (), doc') ∧
      doc'.print = doc.print := by
  have start := fit.ready.sound
  rw [Edit.outcome_bind, ModelSet.parse_outcome] at once alone
  cases read : first.parseExpression source with
  | error failure =>
    rw [read] at once
    cases once
  | ok result =>
    cases read' : first.parseExpression text with
    | error failure =>
      rw [read'] at alone
      cases alone
    | ok result' =>
      rw [read] at once
      rw [read'] at alone
      obtain ⟨last, under⟩ := (Underway.ofSnippet start read fresh).forAll reaches once
      obtain ⟨grown', tree', again, chase⟩ := Chasing.ofSnippet fit texts fresh order moves learns regular under read'
      obtain ⟨_, _, _, doc', run, final⟩ := chase.forAll (chases under.filling.lies) alone
      refine ⟨doc', ?_, final.print_eq start under.filling.lies root⟩
      rw [Edit.outcome_bind, ModelSet.parse_outcome, again]
      exact run

/-- The outcome of an edit of entries, by what it leaves. -/
theorem outcome_of_apply [Reader] {edit : ModelEdit} {result : Except Failure Unit}
    (other : ∀ space, edit ≠ .setNamespace space) (given : (ModelSet.mk doc models).apply edit = (set, result)) :
    Edit.outcome (ModelSet.editEntries models edit) doc = (result, set.doc) ∧ set.models = models := by
  cases run : Edit.outcome (ModelSet.editEntries models edit) doc with
  | mk result' doc' =>
    rw [ModelSet.apply_of_outcome other run] at given
    cases given
    exact ⟨rfl, rfl⟩

/-- Models with titles can be renamed. -/
theorem rename_run [Reader] (start : first.Sound) (plain : first.Plain) (titled : ∀ m ∈ models, ∃ p old, m.Titled first p old)
    (distinct : (models.map Model.object).Nodup) (new : List Char) :
    ∃ doc, (ModelSet.mk first models).apply (.setNamespace new) = (⟨doc, models.map ({ · with space := new })⟩, .ok ()) ∧
      first.Renaming doc new models.reverse ∧ first.Moves doc ∧ doc.buffers = first.buffers := by
  have moves := ModelSet.apply_moves start (fun m member => (titled m member).elim fun _ ⟨_, told⟩ => told.object)
    (.setNamespace new)
  obtain ⟨doc, applied, run⟩ := (Renaming.start start new).all start plain titled distinct
    fun _ _ _ absent => absurd absent List.not_mem_nil
  have is : (ModelSet.mk first models).apply (.setNamespace new) = (⟨doc, models.map ({ · with space := new })⟩, .ok ()) := by
    simp only [ModelSet.apply, applied]
  have silent := ModelSet.renameAll_buffers new models first
  rw [is] at moves
  rw [applied] at silent
  exact ⟨doc, is, by simpa using run, moves, silent⟩

/-- Of two namespaces the last one decides on the text. -/
theorem rename_again [Reader] (fit : first.Fit first (models.map Model.object)) (texts : 0 < first.buffers.length)
    (root : first.root < first.nodes.size) (distinct : (models.map Model.object).Nodup)
    (titled : ∀ m ∈ models, ∃ p old, m.Titled first p old)
    (once : (ModelSet.mk first models).apply (.setNamespace source) = (set₁, .ok ()))
    (alone : (ModelSet.mk first models).apply (.setNamespace text) = (set, .ok ())) :
    ∃ set₂, set₁.apply (.setNamespace text) = (set₂, .ok ()) ∧ set₂.doc.print = set.doc.print := by
  have start := fit.ready.sound
  obtain ⟨mid, is, run, moves, silent⟩ := rename_run start fit.plain titled distinct source
  obtain ⟨last, is', run', moves', silent'⟩ := rename_run start fit.plain titled distinct text
  cases once.symm.trans is
  cases alone.symm.trans is'
  have fit₁ := fit.moves moves (.nothing silent)
  have same : (models.map ({ · with space := source })).map Model.object = models.map Model.object := by simp
  obtain ⟨doc', is₂, run₂, moves₂, silent₂⟩ := rename_run run.sound fit₁.plain (fun n member => by
    obtain ⟨m, listed, rfl⟩ := List.mem_map.mp member
    obtain ⟨p, old, before⟩ := titled m listed
    exact ⟨p, run.retitled start fit.plain (List.mem_reverse.mpr listed) before⟩) (same ▸ distinct) text
  rw [← List.map_reverse] at run₂
  refine ⟨_, is₂, ?_⟩
  exact Renaming.print_again start fit.plain fit₁.plain run' run run₂ (fun m listed => titled m (List.mem_reverse.mp listed))
    (fit.moves moves' (.nothing silent')).shaped (fit₁.moves moves₂ (.nothing silent₂)).shaped texts root

/-- An edit brings in the text of its snippet at most. -/
theorem apply_texts [Reader] {edit : ModelEdit} :
    ∀ text ∈ ((ModelSet.mk doc models).apply edit).1.doc.buffers.drop doc.buffers.length,
      ∃ source, edit.snippet? = some source ∧ text = Syntax.snippetText (Text.trim source) := by
  have silent : ∀ {run : Edit Unit} {text : List Char}, Edit.Silent run →
      text ∉ (Edit.outcome run doc).2.buffers.drop doc.buffers.length := fun silent => by
    rw [silent doc, List.drop_length]
    exact List.not_mem_nil
  have reading : ∀ (source : List Char) (edit : Model → Snippet → Edit Snippet), (∀ m snippet, Edit.Silent (edit m snippet)) →
      ∀ text ∈ (Edit.outcome (do ModelSet.forAll edit (← Snippet.parse source) models) doc).2.buffers.drop
        doc.buffers.length, text = Syntax.snippetText (Text.trim source) := by
    intro source edit each text member
    rw [Edit.outcome_bind, ModelSet.parse_outcome] at member
    cases read : doc.parseExpression source with
    | error failure =>
      rw [read, List.drop_length] at member
      cases member
    | ok result =>
      obtain ⟨_, _, _, adopted⟩ := parseExpression_adopted read
      rw [read] at member
      simp only [ModelSet.forAll_silent each _ models _] at member
      rw [adopted.longer.rest, List.drop_left, List.mem_singleton] at member
      exact member
  intro text member
  cases edit with
  | setNamespace space =>
    have same : ((ModelSet.mk doc models).apply (.setNamespace space)).1.doc.buffers = doc.buffers :=
      ModelSet.renameAll_buffers space models doc
    rw [same, List.drop_length] at member
    cases member
  | setState source => exact ⟨_, rfl, reading _ _ Model.setState_silent text member⟩
  | addEntry container name source =>
    exact ⟨_, rfl, reading _ _ (fun m => Model.addEntry_silent m container name) text member⟩
  | setEntry container name source =>
    exact ⟨_, rfl, reading _ _ (fun m => Model.setEntry_silent m container name) text member⟩
  | removeEntry container name =>
    exact absurd member (silent (ModelSet.forEach_silent (fun m => Model.removeEntry_silent m container name) models))

/-- An update after another one of the same kind succeeds if it does without it, and prints the same. -/
theorem update_again [Reader] (file : Document.parse dialect source = .ok first) (reached : Reached first doc)
    (texts : ∀ text ∈ doc.buffers, Reader.Regular doc.dialect text)
    (snippets : ∀ edit ∈ [earlier, later], ∀ snippet, edit.snippet? = some snippet →
      Reader.Regular doc.dialect (Syntax.snippetText (Text.trim snippet)))
    {filter : Option (List Char)} (found : doc.models filter = .ok models) (again : ModelEdit.Again earlier later)
    (once : (ModelSet.mk doc models).apply earlier = (set₁, .ok ()))
    (alone : (ModelSet.mk doc models).apply later = (set, .ok ())) :
    ∃ set₂, set₁.apply later = (set₂, .ok ()) ∧ set₂.doc.print = set.doc.print := by
  have start := reached.sound file
  obtain ⟨stored, root⟩ := reached.present file
  have objects := models_objects found
  have distinct := models_nodup start.forest root found
  have leaves := reached.plain file fun text member => (texts text member).2
  have titled : ∀ m ∈ models, ∃ p old, m.Titled doc p old := fun m member => by
    obtain ⟨all, whole, rfl⟩ := models_all found
    exact recognize_titled (objects m member) (recognizeAll_mem whole (List.mem_of_mem_filter member))
  have order : models.Pairwise fun m n => ¬ doc.Below n.object m.object :=
    List.pairwise_map.mp ((descendants_outer start.forest root).sublist
      ((recognizeAll_sublist found).trans List.filter_sublist))
  have fit : doc.Fit doc (models.map Model.object) := ⟨.self start (by simpa using objects), Extends.refl doc,
    reached.shaped file fun text member => (texts text member).1, leaves⟩
  have moves : doc.Moves set₁.doc := by
    have run : doc.Moves ((ModelSet.mk doc models).apply earlier).1.doc := ModelSet.apply_moves start objects earlier
    rwa [once] at run
  have learns : doc.Learns set₁.doc Reader.Regular := fun text member => by
    have since := @apply_texts doc models _ earlier text
    rw [once] at since
    obtain ⟨snippet, given, rfl⟩ := since member
    exact (moves.toExtends start).dialect ▸ snippets earlier (by simp) snippet given
  have given : ∀ text, later.snippet? = some text → _ := snippets later (by simp)
  cases again with
  | setNamespace => exact rename_again fit stored root distinct titled once alone
  | setState =>
    obtain ⟨mid, _⟩ := set₁
    obtain ⟨once, rfl⟩ := outcome_of_apply (by simp) once
    obtain ⟨alone, _⟩ := outcome_of_apply (by simp) alone
    obtain ⟨doc', run, print⟩ := forAll_again fit stored root (distinct.of_map _) order
      (fun member under given => under.setState start leaves distinct (objects _ member) given)
      (fun lies member chase given => chase.setState start leaves distinct lies (objects _ member) given) moves learns (given _ rfl)
      once alone
    exact ⟨⟨doc', _⟩, ModelSet.apply_of_outcome (by simp) run, print⟩
  | setEntry =>
    obtain ⟨mid, _⟩ := set₁
    obtain ⟨once, rfl⟩ := outcome_of_apply (by simp) once
    obtain ⟨alone, _⟩ := outcome_of_apply (by simp) alone
    obtain ⟨doc', run, print⟩ := forAll_again fit stored root (distinct.of_map _) order
      (fun member under given => by
        obtain ⟨p, old, titled⟩ := titled _ member
        exact under.setEntry start leaves distinct titled given)
      (fun lies member chase given => by
        obtain ⟨p, old, titled⟩ := titled _ member
        exact chase.setEntry start leaves distinct lies (objects _ member) titled given) moves learns (given _ rfl)
      once alone
    exact ⟨⟨doc', _⟩, ModelSet.apply_of_outcome (by simp) run, print⟩

/-- The last update wins: what an update did to models that were found in a document just now does not show in the text
    after another one of the same kind, which succeeds if it does so without the earlier one. In particular an update can
    be repeated, and leaves the text as it is then. -/
theorem last_update_wins [Reader] (file : Document.parse dialect source = .ok first) (reached : Reached first doc)
    (texts : ∀ text ∈ doc.buffers, Reader.Regular doc.dialect text)
    (snippets : ∀ edit ∈ [earlier, later], ∀ snippet, edit.snippet? = some snippet →
      Reader.Regular doc.dialect (Syntax.snippetText (Text.trim snippet)))
    {filter : Option (List Char)} (found : doc.models filter = .ok models) (again : ModelEdit.Again earlier later)
    (once : (ModelSet.mk doc models).apply earlier = (set₁, .ok ())) :
    (∀ set, (ModelSet.mk doc models).apply later = (set, .ok ()) →
      ∃ set₂, set₁.apply later = (set₂, .ok ()) ∧ set₂.doc.print = set.doc.print) ∧
    ∃ set₂, set₁.apply earlier = (set₂, .ok ()) ∧ set₂.doc.print = set₁.doc.print :=
  ⟨fun _ alone => update_again file reached texts snippets found again once alone,
    update_again file reached texts (fun edit member => snippets edit (by
      simp only [List.mem_cons, List.not_mem_nil, or_false, or_self] at member
      simp [member])) found again.self once once⟩

open Syntax (twofoldReader twofoldReader_regular twofoldSnippet)

/-- Two models are renamed twice; and they get a value for the entry of the outer one's container in which the inner one
    has its own container, so that this makes way and the inner model gets its entry in the new tree. -/
theorem last_update_wins_twofold :
    (∃ set₁ set set₂,
      @ModelSet.apply twofoldReader ⟨twofoldFile, [⟨5, ['a']⟩, ⟨18, ['b']⟩]⟩ (.setNamespace ['c']) = (set₁, .ok ()) ∧
      @ModelSet.apply twofoldReader ⟨twofoldFile, [⟨5, ['a']⟩, ⟨18, ['b']⟩]⟩ (.setNamespace ['d']) = (set, .ok ()) ∧
      @ModelSet.apply twofoldReader set₁ (.setNamespace ['d']) = (set₂, .ok ()) ∧ set₂.doc.print = set.doc.print) ∧
    ∃ set₂, @ModelSet.apply twofoldReader twofoldUpdated.1 (.setEntry .reducers "reducers".toList twofoldSnippet) =
      (set₂, .ok ()) ∧ set₂.doc.print = twofoldUpdated.1.doc.print := by
  have found : twofoldFile.models none = .ok [⟨5, ['a']⟩, ⟨18, ['b']⟩] := by decide +kernel
  have regular := fun text => twofoldReader_regular twofoldFile.dialect text
  have updated : twofoldUpdated.2 = .ok () := by decide +kernel
  have renamed : ∀ new ∈ [['c'], ['d']], (@ModelSet.apply twofoldReader ⟨twofoldFile, [⟨5, ['a']⟩, ⟨18, ['b']⟩]⟩
      (.setNamespace new)).2 = .ok () := by decide +kernel
  constructor
  · cases once : @ModelSet.apply twofoldReader ⟨twofoldFile, [⟨5, ['a']⟩, ⟨18, ['b']⟩]⟩ (.setNamespace ['c']) with
    | mk set₁ outcome =>
      cases alone : @ModelSet.apply twofoldReader ⟨twofoldFile, [⟨5, ['a']⟩, ⟨18, ['b']⟩]⟩ (.setNamespace ['d']) with
      | mk set outcome' =>
        have first := renamed ['c'] (by simp)
        have second := renamed ['d'] (by simp)
        rw [once] at first
        rw [alone] at second
        cases first
        cases second
        obtain ⟨wins, _⟩ := @last_update_wins twofoldFile _ _ _ _ _ _ _ twofoldReader twofoldFile_parsed twofoldFile_reached
          (fun text _ => regular text) (fun _ _ _ _ => regular _) _ found (.setNamespace ['c'] ['d']) once
        obtain ⟨set₂, both, same⟩ := wins set alone
        exact ⟨set₁, set, set₂, rfl, rfl, both, same⟩
  · have once : @ModelSet.apply twofoldReader ⟨twofoldFile, [⟨5, ['a']⟩, ⟨18, ['b']⟩]⟩
        (.setEntry .reducers "reducers".toList twofoldSnippet) = (twofoldUpdated.1, .ok ()) := by
      show twofoldUpdated = _
      rw [← updated]
    exact (@last_update_wins twofoldFile _ _ _ _ _ _ _ twofoldReader twofoldFile_parsed twofoldFile_reached
      (fun text _ => regular text) (fun _ _ _ _ => regular _) _ found (.setEntry .reducers "reducers".toList twofoldSnippet twofoldSnippet) once).2

end Document

end StoreModels
