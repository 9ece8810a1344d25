import StoreModels.Proofs.Literal.Quoting
import StoreModels.Proofs.Model.Reached

/-!
Where the nodes of edited documents come from. An edit adds the nodes of snippets, copies of nodes, nodes without a text
of their own, literals in quotes and bare names. So whatever holds of the places of a file's tree, and of all that edits
bring, holds of the origin of every node that edits lead to, whichever models they are made on and whether they succeed.
-/
namespace StoreModels
open Syntax (Dialect Reader Tree)

/-- A condition on origins that all that edits bring into a document meets. -/
structure Origin.Admits (asked : Origin → Prop) : Prop where
  joint : asked (.written none)
  snippet : ∀ buffer span, buffer ≠ 0 → asked (.parsed buffer span)
  quoted : ∀ text quote, Literal.isQuote quote = true → asked (.written (some (Literal.quoted text quote)))
  bare : ∀ name, Literal.isBareName name = true → asked (.written (some name))

namespace Document

/-- All nodes of a document come from where a condition asks; the first text is that of the file. -/
structure Stems (asked : Origin → Prop) (doc : Document) : Prop where
  file : doc.buffers ≠ []
  origin : ∀ id, asked (doc.node id).origin

namespace Stems
variable {asked : Origin → Prop} {doc doc' : Document} {id old new object entry : NodeId}

/-! ## Steps -/

theorem update (stems : doc.Stems asked) (change : Node → Node) (same : ∀ node, (change node).origin = node.origin) :
    (doc.update id change).Stems asked where
  file := stems.file
  origin x := by
    rw [node_update_field Node.origin change same]
    exact stems.origin x

theorem insert (stems : doc.Stems asked) {node : Node} (meets : asked node.origin) :
    (doc.insert node).1.Stems asked where
  file := stems.file
  origin x := by
    by_cases here : x = doc.nodes.size
    · rw [here, node_insert_self]
      exact meets
    · rw [node_insert_of_ne node here]
      exact stems.origin x

theorem mark (stems : doc.Stems asked) (id : NodeId) : (doc.mark id).Stems asked where
  file := by
    rw [(mark_same doc id).rest]
    exact stems.file
  origin x := by
    rw [(mark_same doc id).node x]
    exact stems.origin x

theorem writeNode (stems : doc.Stems asked) (admits : Origin.Admits asked) (kind : String)
    (parts : List (Option String × NodeId)) : (doc.writeNode kind parts).1.Stems asked := by
  have hung : ∀ {doc : Document}, doc.Stems asked → ∀ parts : List (Option String × NodeId), ∀ top,
      (parts.foldl (fun doc (part : Option String × NodeId) =>
        doc.update part.2 fun node => { node with parent := some top, field := part.1 }) doc).Stems asked := by
    intro doc stems parts top
    induction parts generalizing doc with
    | nil => exact stems
    | cons part rest ih => exact ih (stems.update _ fun _ => rfl)
  exact (hung (stems.insert admits.joint) parts _).update _ fun _ => rfl

theorem replace (stems : doc.Stems asked) (run : doc.replace old new = .ok doc') : doc'.Stems asked := by
  unfold Document.replace at run
  split at run
  · cases run
  · split at run
    · cases run
    · cases run
      refine Stems.mark (Stems.update (Stems.update (Stems.update stems _ ?_) _ ?_) _ ?_) _ <;> exact fun _ => rfl

theorem append (stems : doc.Stems asked) (run : doc.append object entry = .ok doc') : doc'.Stems asked := by
  unfold Document.append at run
  cases required : doc.requireObject object with
  | error m =>
    rw [required] at run
    cases run
  | ok _ =>
    rw [required] at run
    cases run
    refine Stems.mark (Stems.update (Stems.update stems _ ?_) _ ?_) _ <;> exact fun _ => rfl

theorem remove (stems : doc.Stems asked) (run : doc.remove entry = .ok doc') : doc'.Stems asked := by
  unfold Document.remove at run
  split at run
  · cases run
  next object _ =>
    cases required : doc.requireObject object with
    | error m =>
      rw [required] at run
      cases run
    | ok _ =>
      rw [required] at run
      cases run
      refine Stems.mark (Stems.update (Stems.update stems _ ?_) _ ?_) _ <;> exact fun _ => rfl

theorem copyAll {copy : NodeId → Document → Document × NodeId} {parent : NodeId} {ids : List NodeId}
    (stems : doc.Stems asked) (each : ∀ {doc : Document} id, doc.Stems asked → (copy id doc).1.Stems asked) :
    (Document.copyAll copy parent ids doc).1.Stems asked := by
  induction ids generalizing doc with
  | nil => exact stems
  | cons id rest ih => exact ih ((each id stems).update _ fun _ => rfl)

/-- A copy comes from where its original does. -/
theorem copyDown (stems : doc.Stems asked) (depth : Nat) (id : NodeId) :
    (Document.copyDown depth id doc).1.Stems asked := by
  induction depth generalizing doc id with
  | zero => exact stems
  | succ depth ih =>
    -- The copy of the node alone comes from where the node does.
    have single : (doc.insert { doc.node id with parent := none, children := [], firstChildren := [] }).1.Stems asked :=
      stems.insert (stems.origin id)
    simp only [Document.copyDown]
    exact (single.copyAll fun c stems => ih stems c).update _ fun _ => rfl

theorem duplicate (stems : doc.Stems asked) (id : NodeId) : (doc.duplicate id).1.Stems asked := by
  simp only [Document.duplicate]
  exact (stems.copyDown _ id).update _ fun _ => rfl

theorem parseExpression [Reader] (stems : doc.Stems asked) (admits : Origin.Admits asked) {snippet : List Char}
    (read : doc.parseExpression snippet = .ok (doc', id)) : doc'.Stems asked := by
  obtain ⟨_, tree, _, adopted⟩ := parseExpression_adopted read
  refine ⟨?_, fun x => ?_⟩
  · rw [adopted.longer.rest]
    simp
  · by_cases before : x < doc.nodes.size
    · rw [adopted.longer.node x before]
      exact stems.origin x
    · by_cases present : x < doc'.nodes.size
      · obtain ⟨t, _, mirrors⟩ := adopted.mirrors x (Nat.le_of_not_lt before) present
        rw [mirrors.origin]
        exact admits.snippet _ _ (by simpa using stems.file)
      · rw [node_beyond (Nat.le_of_not_lt present)]
        exact admits.joint

end Stems

end Document

/-! ## Runs -/

namespace Edit
variable {α β γ : Type} {asked : Origin → Prop} {first : Edit α} {next : α → Edit β}

open Document (Stems)

/-- An edit leaves all nodes where a condition asks them to come from. -/
def Keeps (asked : Origin → Prop) (run : Edit α) : Prop :=
  ∀ doc : Document, doc.Stems asked → (outcome run doc).2.Stems asked

namespace Keeps

theorem pure (a : α) : Keeps asked (pure a : Edit α) := fun _ stems => stems

theorem bind (left : Keeps asked first) (right : ∀ a, Keeps asked (next a)) : Keeps asked (first >>= next) := by
  intro doc stems
  have done := left doc stems
  rw [outcome_bind]
  generalize outcome first doc = reached at done
  obtain ⟨result, doc'⟩ := reached
  cases result with
  | ok a => exact right a doc' done
  | error failure => exact done

/-- What is done after a look at a document may depend on what is seen there. -/
theorem look {view : Document → γ} {next : γ → Edit β} (right : ∀ doc, Keeps asked (next (view doc))) :
    Keeps asked (Edit.look view >>= next) := by
  intro doc stems
  rw [outcome_bind, outcome_look]
  exact right doc doc stems

theorem get {next : Document → Edit β} (right : ∀ doc : Document, doc.Stems asked → (outcome (next doc) doc).2.Stems asked) :
    Keeps asked (get >>= next) := by
  intro doc stems
  rw [outcome_bind, outcome_get]
  exact right doc stems

theorem make {step : Document → Document × α} (each : ∀ doc : Document, doc.Stems asked → (step doc).1.Stems asked) :
    Keeps asked (Edit.make step) := each

theorem change {step : Document → Except Mismatch Document}
    (each : ∀ {doc doc' : Document}, doc.Stems asked → step doc = .ok doc' → doc'.Stems asked) :
    Keeps asked (Edit.change step) := by
  intro doc stems
  rw [outcome_change]
  cases run : step doc with
  | ok doc' => exact each stems run
  | error m => exact stems

theorem orFail (failure : Failure) (result : Option α) : Keeps asked (Edit.orFail failure result) := by
  intro doc stems
  rw [outcome_orFail]
  cases result <;> exact stems

theorem lift (result : Except Failure α) : Keeps asked (liftM result : Edit α) := fun doc stems => by
  rw [outcome_lift]
  exact stems

end Keeps

end Edit

section
variable {asked : Origin → Prop} (admits : Origin.Admits asked) {name : List Char} {quote : Char}
include admits

open Document (Stems)
open Edit (Keeps)

theorem Snippet.parse_keeps [Reader] (source : List Char) : Keeps asked (Snippet.parse source) := by
  refine Keeps.get fun doc stems => ?_
  cases read : doc.parseExpression source with
  | error e => exact stems
  | ok result => exact stems.parseExpression admits read

omit admits in
theorem Snippet.next_keeps (snippet : Snippet) : Keeps asked snippet.next := by
  unfold Snippet.next
  split
  · exact Keeps.bind (Keeps.make fun doc stems => stems.duplicate _) fun _ => Keeps.pure _
  · exact Keeps.pure _

theorem writeLeaf_keeps (kind : String) (name : List Char) (isQuote : Literal.isQuote quote = true) :
    Keeps asked (Edit.make (·.writeLeaf kind (Literal.keyText name quote))) := by
  refine Keeps.make fun doc stems => stems.insert ?_
  unfold Literal.keyText
  split
  next bare => exact admits.bare name bare
  next => exact admits.quoted name quote isQuote

namespace Model
variable {model : Model} {container : Container}

theorem writePair_keeps (name : List Char) (isQuote : Literal.isQuote quote = true) (value : NodeId) :
    Keeps asked (writePair name quote value) :=
  Keeps.bind (writeLeaf_keeps admits _ name isQuote) fun _ => Keeps.make fun _ stems => stems.writeNode admits _ _

theorem setValue_keeps (entry : NodeId) (name : List Char) (isQuote : Literal.isQuote quote = true) (value : NodeId) :
    Keeps asked (setValue entry name quote value) := by
  refine Keeps.look fun doc => ?_
  cases doc.pairValue? entry with
  | some old => exact Keeps.change fun stems run => stems.replace run
  | none =>
    exact Keeps.bind (writePair_keeps admits name isQuote value) fun _ => Keeps.change fun stems run => stems.replace run

theorem setValues_keeps (name : List Char) (isQuote : Literal.isQuote quote = true) (snippet : Snippet)
    (entries : List NodeId) : Keeps asked (setValues name quote snippet entries) := by
  induction entries generalizing snippet with
  | nil => exact Keeps.pure _
  | cons entry rest ih =>
    refine Keeps.bind (Snippet.next_keeps snippet) fun (value, snippet) => ?_
    exact Keeps.bind (setValue_keeps admits entry name isQuote value) fun _ => ih snippet

omit admits in
theorem removeAll_keeps (entries : List NodeId) : Keeps asked (removeAll entries) := by
  induction entries with
  | nil => exact Keeps.pure _
  | cons entry rest ih => exact Keeps.bind (Keeps.change fun stems run => stems.remove run) fun _ => ih

theorem rename_keeps (model : Model) (space : List Char) : Keeps asked (model.rename space) := by
  refine Keeps.look fun _ => Keeps.bind (Keeps.orFail _ _) fun _ => ?_
  refine Keeps.look fun _ => Keeps.bind (Keeps.orFail _ _) fun old => Keeps.look fun _ => ?_
  refine Keeps.bind (Keeps.make fun doc stems => stems.insert ?_) fun _ => ?_
  · exact admits.quoted space _ (Literal.isQuote_quoteOf _)
  · exact Keeps.change fun stems run => stems.replace run

theorem setState_keeps (model : Model) (snippet : Snippet) : Keeps asked (model.setState snippet) := by
  refine Keeps.look fun doc => ?_
  cases doc.entryNamed? model.object stateName with
  | none => exact Keeps.pure _
  | some entry =>
    refine Keeps.bind (Snippet.next_keeps snippet) fun (value, snippet) => ?_
    exact Keeps.bind (setValue_keeps admits entry _ rfl value) fun _ => Keeps.pure _

theorem ensureContainer_keeps (model : Model) (container : Container) (isQuote : Literal.isQuote quote = true) :
    Keeps asked (model.ensureContainer container quote) := by
  refine Keeps.get fun _ => Keeps.bind (Keeps.lift _) (fun found => ?_) _
  cases found with
  | some object => exact Keeps.pure _
  | none =>
    refine Keeps.bind (Keeps.make fun _ stems => stems.writeNode admits _ _) fun object => ?_
    refine Keeps.bind (writePair_keeps admits _ isQuote object) fun _ => ?_
    exact Keeps.bind (Keeps.change fun stems run => stems.append run) fun _ => Keeps.pure _

theorem addEntry_keeps (model : Model) (container : Container) (name : List Char) (snippet : Snippet) :
    Keeps asked (model.addEntry container name snippet) := by
  refine Keeps.look fun doc => ?_
  have isQuote := isQuote_quote doc model
  refine Keeps.bind (ensureContainer_keeps admits model container isQuote) fun object => ?_
  refine Keeps.bind (Snippet.next_keeps snippet) fun (value, snippet) => ?_
  refine Keeps.bind (writePair_keeps admits name isQuote value) fun _ => ?_
  exact Keeps.bind (Keeps.change fun stems run => stems.append run) fun _ => Keeps.pure _

theorem setEntry_keeps (model : Model) (container : Container) (name : List Char) (snippet : Snippet) :
    Keeps asked (model.setEntry container name snippet) := by
  refine Keeps.get fun _ => Keeps.bind (Keeps.lift _) (fun entries => Keeps.look fun doc => ?_) _
  exact setValues_keeps admits name (isQuote_quote doc model) snippet entries

omit admits in
theorem removeEntry_keeps (model : Model) (container : Container) (name : List Char) :
    Keeps asked (model.removeEntry container name) :=
  Keeps.get fun _ => Keeps.bind (Keeps.lift _) (fun entries => removeAll_keeps entries) _

end Model

namespace ModelSet

omit admits in
theorem forAll_keeps {edit : Model → Snippet → Edit Snippet} (each : ∀ model snippet, Keeps asked (edit model snippet))
    (snippet : Snippet) (models : List Model) : Keeps asked (forAll edit snippet models) := by
  induction models generalizing snippet with
  | nil => exact Keeps.pure _
  | cons model rest ih => exact Keeps.bind (each model snippet) fun snippet => ih snippet

omit admits in
theorem forEach_keeps {edit : Model → Edit Unit} (each : ∀ model, Keeps asked (edit model)) (models : List Model) :
    Keeps asked (forEach edit models) := by
  induction models with
  | nil => exact Keeps.pure _
  | cons model rest ih => exact Keeps.bind (each model) fun _ => ih

theorem editEntries_keeps [Reader] (models : List Model) (edit : ModelEdit) : Keeps asked (editEntries models edit) := by
  cases edit with
  | setNamespace space => exact Keeps.pure _
  | setState source =>
    exact Keeps.bind (Snippet.parse_keeps admits source) fun snippet =>
      forAll_keeps (fun model => model.setState_keeps admits) snippet models
  | addEntry container name source =>
    exact Keeps.bind (Snippet.parse_keeps admits _) fun snippet =>
      forAll_keeps (fun model => model.addEntry_keeps admits container name) snippet models
  | setEntry container name source =>
    exact Keeps.bind (Snippet.parse_keeps admits source) fun snippet =>
      forAll_keeps (fun model => model.setEntry_keeps admits container name) snippet models
  | removeEntry container name => exact forEach_keeps (fun model => model.removeEntry_keeps container name) models

theorem renameAll_keeps (space : List Char) (models : List Model) {doc : Document} (stems : doc.Stems asked) :
    ((renameAll space models).run doc).2.Stems asked := by
  induction models generalizing doc with
  | nil => exact stems
  | cons model rest ih =>
    have done := Model.rename_keeps admits model space doc stems
    rw [renameAll, StateT.run_bind,
      show StateT.run (ExceptT.run (model.rename space)) doc = (model.rename space).outcome doc from rfl]
    generalize (model.rename space).outcome doc = reached at done
    obtain ⟨result, doc'⟩ := reached
    cases result with
    | error e => exact done
    | ok _ => exact ih done

/-- Every edit leaves all nodes where a condition asks them to come from. -/
theorem apply_keeps [Reader] {doc : Document} (stems : doc.Stems asked) (models : List Model) (edit : ModelEdit) :
    ((ModelSet.mk doc models).apply edit).1.doc.Stems asked := by
  have others := editEntries_keeps admits models edit doc stems
  cases edit with
  | setNamespace space => exact renameAll_keeps admits space models stems
  | setState source => exact others
  | addEntry container name source => exact others
  | setEntry container name source => exact others
  | removeEntry container name => exact others

end ModelSet

end

/-- All nodes that edits of a file lead to come from where a condition asks that admits what edits bring, if the nodes
    of the file's tree do. -/
theorem Document.Reached.stems [Reader] {asked : Origin → Prop} (admits : Origin.Admits asked) {first doc : Document}
    {dialect : Dialect} {source : List Char} (reached : Reached first doc)
    (file : Document.parse dialect source = .ok first)
    (tree : ∀ program, Reader.program? dialect source = some program → ∀ t ∈ program.subtrees, asked (.parsed 0 t.span)) :
    doc.Stems asked := by
  induction reached with
  | start indent =>
    refine ⟨?_, fun x => ?_⟩
    · show first.buffers ≠ []
      rw [(parse_buffers file).1]
      exact List.cons_ne_nil _ _
    · show asked (first.node x).origin
      by_cases present : x < first.nodes.size
      · obtain ⟨program, read, mirrors⟩ := parse_tree file
        obtain ⟨t, part, mirrors⟩ := mirrors x present
        rw [mirrors.origin]
        exact tree program read t part
      · rw [node_beyond (Nat.le_of_not_lt present)]
        exact admits.joint
  | edit _ models _ edit ih => exact ModelSet.apply_keeps admits ih models edit

end StoreModels
