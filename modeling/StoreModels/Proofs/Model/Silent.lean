import StoreModels.Proofs.Model.Runs

/-!
Which texts a document has after an edit. A snippet comes in when it is parsed; whatever is done with its tree later on,
to however many models, brings in no other text.
-/
namespace StoreModels
open Syntax (Reader)

variable {α β γ : Type}

/-! ## Changes of a tree -/

namespace Document
variable {doc doc' : Document}

@[simp] theorem insert_buffers (doc : Document) (node : Node) : (doc.insert node).1.buffers = doc.buffers := rfl

@[simp] theorem update_buffers (doc : Document) (id : NodeId) (change : Node → Node) :
    (doc.update id change).buffers = doc.buffers := rfl

@[simp] theorem markUp_buffers (doc : Document) (height : Nat) (id : NodeId) :
    (doc.markUp height id).buffers = doc.buffers := by
  induction height generalizing doc id with
  | zero => rfl
  | succ height ih =>
    rw [markUp]
    split
    · rw [ih, update_buffers]
    · rw [update_buffers]

@[simp] theorem mark_buffers (doc : Document) (id : NodeId) : (doc.mark id).buffers = doc.buffers := markUp_buffers ..

@[simp] theorem writeLeaf_buffers (doc : Document) (kind : String) (text : List Char) :
    (doc.writeLeaf kind text).1.buffers = doc.buffers := rfl

/-- Changes of nodes, one after another, bring in no text. -/
theorem foldl_update_buffers {α : Type} (child : α → NodeId) (change : α → Node → Node) (parts : List α) (doc : Document) :
    (parts.foldl (fun doc part => doc.update (child part) (change part)) doc).buffers = doc.buffers := by
  induction parts generalizing doc with
  | nil => rfl
  | cons part rest ih => rw [List.foldl_cons, ih, update_buffers]

@[simp] theorem writeNode_buffers (doc : Document) (kind : String) (children : List (Option String × NodeId)) :
    (doc.writeNode kind children).1.buffers = doc.buffers := by
  rw [writeNode, update_buffers]
  exact foldl_update_buffers Prod.snd (fun part node => { node with parent := some _, field := part.1 }) children _

theorem copyAll_buffers {copy : NodeId → Document → Document × NodeId} (each : ∀ id doc, (copy id doc).1.buffers = doc.buffers)
    (parent : NodeId) (ids : List NodeId) (doc : Document) : (copyAll copy parent ids doc).1.buffers = doc.buffers := by
  induction ids generalizing doc with
  | nil => rfl
  | cons id rest ih =>
    rw [copyAll, ih, update_buffers, each]

theorem copyDown_buffers (depth : Nat) (id : NodeId) (doc : Document) : (copyDown depth id doc).1.buffers = doc.buffers := by
  induction depth generalizing id doc with
  | zero => rfl
  | succ depth ih => rw [copyDown, update_buffers, copyAll_buffers ih, insert_buffers]

@[simp] theorem duplicate_buffers (doc : Document) (id : NodeId) : (doc.duplicate id).1.buffers = doc.buffers := by
  rw [duplicate, update_buffers, copyDown_buffers]

theorem replace_buffers {old new : NodeId} (run : doc.replace old new = .ok doc') : doc'.buffers = doc.buffers := by
  unfold replace at run
  split at run
  · cases run
  · split at run
    · cases run
    · cases run
      simp

theorem append_buffers {object entry : NodeId} (run : doc.append object entry = .ok doc') : doc'.buffers = doc.buffers := by
  unfold append requireObject at run
  split at run
  · cases run
    simp
  · cases run

theorem remove_buffers {entry : NodeId} (run : doc.remove entry = .ok doc') : doc'.buffers = doc.buffers := by
  unfold remove requireObject at run
  split at run
  · cases run
  · split at run
    · cases run
      simp
    · cases run

end Document

/-! ## Edits -/

namespace Edit

/-- Whether an edit leaves the texts of every document as they are. -/
def Silent (run : Edit α) : Prop := ∀ doc, (outcome run doc).2.buffers = doc.buffers

namespace Silent
variable {first : Edit α} {next : α → Edit β}

theorem pure (a : α) : Silent (pure a) := fun _ => rfl

theorem bind (left : Silent first) (right : ∀ a, Silent (next a)) : Silent (first >>= next) := fun doc => by
  have early := left doc
  rw [outcome_bind]
  cases is : outcome first doc with
  | mk result doc' =>
    rw [is] at early
    cases result with
    | ok a => exact (right a doc').trans early
    | error failure => exact early

theorem look (view : Document → α) : Silent (Edit.look view) := fun _ => rfl

theorem get : Silent (MonadState.get : Edit Document) := fun _ => rfl

theorem lift (result : Except Failure α) : Silent (liftM result) := fun doc => by rw [outcome_lift]

theorem orFail (failure : Failure) (result : Option α) : Silent (Edit.orFail failure result) := fun doc => by
  cases result <;> rfl

theorem make {step : Document → Document × α} (same : ∀ doc, (step doc).1.buffers = doc.buffers) :
    Silent (Edit.make step) := fun doc => same doc

theorem change {step : Document → Except Mismatch Document}
    (same : ∀ {doc doc'}, step doc = .ok doc' → doc'.buffers = doc.buffers) : Silent (Edit.change step) := fun doc => by
  rw [outcome_change]
  cases run : step doc with
  | ok doc' => exact same run
  | error m => rfl

/-- A document that a silent edit leads to has the texts it had. -/
theorem of_outcome {doc doc' : Document} {result : Except Failure α} (silent : Silent first)
    (is : outcome first doc = (result, doc')) : doc'.buffers = doc.buffers := by
  have same := silent doc
  rwa [is] at same

end Silent

end Edit

open Edit (Silent)

/-! ## Edits of models -/

theorem Snippet.next_silent (snippet : Snippet) : Silent snippet.next := by
  unfold Snippet.next
  split
  · exact .bind (.make fun _ => Document.duplicate_buffers _ _) fun _ => .pure _
  · exact .pure _

namespace Model

theorem writePair_silent (name : List Char) (quote : Char) (value : NodeId) : Silent (writePair name quote value) :=
  .bind (.make fun _ => Document.writeLeaf_buffers ..) fun _ => .make fun _ => Document.writeNode_buffers ..

theorem setValue_silent (entry : NodeId) (name : List Char) (quote : Char) (value : NodeId) :
    Silent (setValue entry name quote value) := by
  refine .bind (.look _) fun held => ?_
  cases held with
  | some old => exact .change Document.replace_buffers
  | none => exact .bind (writePair_silent _ _ _) fun _ => .change Document.replace_buffers

theorem setValues_silent (name : List Char) (quote : Char) (snippet : Snippet) (entries : List NodeId) :
    Silent (setValues name quote snippet entries) := by
  induction entries generalizing snippet with
  | nil => exact .pure _
  | cons entry rest ih =>
    exact .bind (Snippet.next_silent snippet) fun (_, snippet) => .bind (setValue_silent _ _ _ _) fun _ => ih snippet

theorem removeAll_silent (entries : List NodeId) : Silent (removeAll entries) := by
  induction entries with
  | nil => exact .pure _
  | cons entry rest ih => exact .bind (.change Document.remove_buffers) fun _ => ih

theorem rename_silent (model : Model) (space : List Char) : Silent (model.rename space) :=
  .bind (.look _) fun _ => .bind (.orFail _ _) fun _ => .bind (.look _) fun _ => .bind (.orFail _ _) fun _ =>
    .bind (.look _) fun _ => .bind (.make fun _ => Document.writeLeaf_buffers ..) fun _ =>
      .change Document.replace_buffers

theorem setState_silent (model : Model) (snippet : Snippet) : Silent (model.setState snippet) := by
  refine .bind (.look _) fun entry => ?_
  cases entry with
  | none => exact .pure _
  | some entry => exact .bind (Snippet.next_silent _) fun _ => .bind (setValue_silent _ _ _ _) fun _ => .pure _

theorem ensureContainer_silent (model : Model) (container : Container) (quote : Char) :
    Silent (model.ensureContainer container quote) := by
  refine .bind .get fun doc => .bind (.lift _) fun found => ?_
  cases found with
  | some object => exact .pure _
  | none =>
    exact .bind (.make fun _ => Document.writeNode_buffers ..) fun _ => .bind (writePair_silent _ _ _) fun _ =>
      .bind (.change Document.append_buffers) fun _ => .pure _

theorem addEntry_silent (model : Model) (container : Container) (name : List Char) (snippet : Snippet) :
    Silent (model.addEntry container name snippet) :=
  .bind (.look _) fun _ => .bind (ensureContainer_silent _ _ _) fun _ => .bind (Snippet.next_silent _) fun _ =>
    .bind (writePair_silent _ _ _) fun _ => .bind (.change Document.append_buffers) fun _ => .pure _

theorem setEntry_silent (model : Model) (container : Container) (name : List Char) (snippet : Snippet) :
    Silent (model.setEntry container name snippet) :=
  .bind .get fun _ => .bind (.lift _) fun _ => .bind (.look _) fun _ => setValues_silent _ _ _ _

theorem removeEntry_silent (model : Model) (container : Container) (name : List Char) :
    Silent (model.removeEntry container name) :=
  .bind .get fun _ => .bind (.lift _) fun _ => removeAll_silent _

end Model

/-! ## Edits of sets -/

namespace ModelSet

theorem forAll_silent {edit : Model → Snippet → Edit Snippet} (each : ∀ model snippet, Silent (edit model snippet))
    (snippet : Snippet) (models : List Model) : Silent (forAll edit snippet models) := by
  induction models generalizing snippet with
  | nil => exact .pure _
  | cons model rest ih => exact .bind (each model snippet) fun snippet => ih snippet

theorem forEach_silent {edit : Model → Edit Unit} (each : ∀ model, Silent (edit model)) (models : List Model) :
    Silent (forEach edit models) := by
  induction models with
  | nil => exact .pure _
  | cons model rest ih => exact .bind (each model) fun _ => ih

theorem renameAll_buffers (space : List Char) (models : List Model) (doc : Document) :
    ((renameAll space models).run doc).2.buffers = doc.buffers := by
  induction models generalizing doc with
  | nil => rfl
  | cons model rest ih =>
    have early := Model.rename_silent model space doc
    rw [renameAll_cons]
    generalize Edit.outcome (model.rename space) doc = reached at early
    obtain ⟨result, doc'⟩ := reached
    cases result with
    | error failure => exact early
    | ok _ => exact (ih doc').trans early

end ModelSet

end StoreModels
