import StoreModels.Model.Edit
import StoreModels.Proofs.Document.Works

/-!
Edits of models as runs of moves. Whether an edit succeeds or fails, the document it leaves is one that moves lead to:
new values are loose until they get a place, and they only get places below the models that are edited. So no edit ever
finds a link of the tree broken: it fails for what the models or the snippet are like, or not at all.
-/
namespace StoreModels
open Syntax (Role Reader)

variable {α β γ : Type}

/-- The failures that tell of a broken tree: a node without the parent that it should have, or an entry above which
    there is no object literal. -/
def Failure.isBreakage : Failure → Bool
  | .mismatch .replacesDetached | .mismatch .notAttached | .mismatch .removesDetached | .mismatch (.noObject _) => true
  | _ => false

/-! ## Outcomes -/

namespace Edit

/-- What an edit makes of a document. -/
def outcome (run : Edit α) (doc : Document) : Except Failure α × Document := ExceptT.run run doc

variable {doc : Document}

@[simp] theorem outcome_pure (a : α) : outcome (pure a) doc = (.ok a, doc) := rfl

@[simp] theorem outcome_throw (failure : Failure) : outcome (throw failure : Edit α) doc = (.error failure, doc) := rfl

theorem outcome_bind (first : Edit α) (next : α → Edit β) :
    outcome (first >>= next) doc =
      match outcome first doc with
      | (.ok a, doc') => outcome (next a) doc'
      | (.error failure, doc') => (.error failure, doc') := by
  show StateT.run (ExceptT.run (first >>= next)) doc = _
  rw [ExceptT.run_bind, StateT.run_bind]
  rw [show StateT.run (ExceptT.run first) doc = outcome first doc from rfl]
  rcases outcome first doc with ⟨result, doc'⟩
  cases result <;> rfl

@[simp] theorem outcome_look (view : Document → α) : outcome (look view) doc = (.ok (view doc), doc) := rfl

@[simp] theorem outcome_get : outcome (get : Edit Document) doc = (.ok doc, doc) := rfl

@[simp] theorem outcome_set (doc' : Document) : outcome (set doc' : Edit PUnit) doc = (.ok ⟨⟩, doc') := rfl

@[simp] theorem outcome_make (step : Document → Document × α) :
    outcome (make step) doc = (.ok (step doc).2, (step doc).1) := rfl

@[simp] theorem outcome_change (step : Document → Except Mismatch Document) :
    outcome (change step) doc =
      match step doc with
      | .ok doc' => (.ok (), doc')
      | .error m => (.error (.mismatch m), doc) := by
  show (outcome (get >>= fun doc => _) doc) = _
  rw [outcome_bind]
  simp only [outcome_get]
  cases step doc <;> rfl

@[simp] theorem outcome_orFail (failure : Failure) (result : Option α) :
    outcome (orFail failure result) doc =
      match result with
      | some a => (.ok a, doc)
      | none => (.error failure, doc) := by
  cases result <;> rfl

@[simp] theorem outcome_lift (result : Except Failure α) :
    outcome (liftM result) doc = (result, doc) := by
  cases result <;> rfl

/-! ## Runs -/

/-- An edit leads by work below some nodes to some document, and to one with a property where it succeeds; where it fails,
    it has not met a broken tree. -/
structure Does [Reader] (targets held : List NodeId) (run : Edit α) (doc : Document) (post : α → Document → Prop) :
    Prop where
  works : Document.Works (· ∈ targets) (· ∈ held) doc (outcome run doc).2
  holds : ∀ a, (outcome run doc).1 = .ok a → post a (outcome run doc).2
  intact : ∀ failure, (outcome run doc).1 = .error failure → failure.isBreakage = false

namespace Does
variable [Reader] {targets held : List NodeId} {doc' : Document} {post : α → Document → Prop}
  {after : β → Document → Prop} {first : Edit α} {next : α → Edit β}

theorem moves {run : Edit α} (does : Does targets held run doc post) : doc.Moves (outcome run doc).2 := does.works.moves

theorem of_outcome {run : Edit α} {a : α} (is : outcome run doc = (.ok a, doc'))
    (works : Document.Works (· ∈ targets) (· ∈ held) doc doc') (holds : post a doc') :
    Does targets held run doc post := by
  refine ⟨?_, fun b same => ?_, fun failure same => ?_⟩
  · rw [is]
    exact works
  · rw [is] at same ⊢
    cases same
    exact holds
  · rw [is] at same
    cases same

theorem of_failure {run : Edit α} {failure : Failure} (is : outcome run doc = (.error failure, doc))
    (intact : failure.isBreakage = false) : Does targets held run doc post := by
  refine ⟨?_, fun b same => ?_, fun failure same => ?_⟩
  · rw [is]
    exact Relation.ReflTransGen.refl
  · rw [is] at same
    cases same
  · rw [is] at same
    cases same
    exact intact

theorem pure {a : α} (holds : post a doc) : Does targets held (pure a) doc post :=
  of_outcome rfl Relation.ReflTransGen.refl holds

theorem bind (left : Does targets held first doc post)
    (right : ∀ a doc', doc.Moves doc' → post a doc' → Does targets held (next a) doc' after) :
    Does targets held (first >>= next) doc after := by
  obtain ⟨works, holds, intact⟩ := left
  cases is : outcome first doc with
  | mk result doc' =>
    rw [is] at works holds intact
    cases result with
    | error failure =>
      have whole : outcome (first >>= next) doc = (.error failure, doc') := by rw [outcome_bind, is]
      refine ⟨?_, fun b same => ?_, fun other same => ?_⟩
      · rw [whole]
        exact works
      · rw [whole] at same
        cases same
      · rw [whole] at same
        cases same
        exact intact failure rfl
    | ok a =>
      have whole : outcome (first >>= next) doc = outcome (next a) doc' := by rw [outcome_bind, is]
      obtain ⟨works', holds', intact'⟩ := right a doc' works.moves (holds a rfl)
      rw [← whole] at works' holds' intact'
      exact ⟨works.trans works', holds', intact'⟩

/-- An edit after one whose outcome is known. -/
theorem bind_outcome {a : α} (is : outcome first doc = (.ok a, doc'))
    (works : Document.Works (· ∈ targets) (· ∈ held) doc doc') (right : Does targets held (next a) doc' after) :
    Does targets held (first >>= next) doc after := by
  have left : Does targets held first doc fun b d => b = a ∧ d = doc' := of_outcome is works ⟨rfl, rfl⟩
  refine left.bind fun b d _ same => ?_
  rw [same.1, same.2]
  exact right

theorem look (view : Document → γ) {next : γ → Edit β} (right : Does targets held (next (view doc)) doc after) :
    Does targets held (Edit.look view >>= next) doc after :=
  bind_outcome rfl Relation.ReflTransGen.refl right

theorem get {next : Document → Edit β} (right : Does targets held (next doc) doc after) :
    Does targets held (MonadState.get >>= next) doc after :=
  bind_outcome rfl Relation.ReflTransGen.refl right

theorem lift {result : Except Failure α} (intact : ∀ failure, result = .error failure → failure.isBreakage = false)
    (right : ∀ a, result = .ok a → Does targets held (next a) doc after) :
    Does targets held (liftM result >>= next) doc after := by
  cases result with
  | error failure => exact of_failure (by rw [outcome_bind, outcome_lift]) (intact failure rfl)
  | ok a => exact bind_outcome (outcome_lift _) Relation.ReflTransGen.refl (right a rfl)

theorem orFail {failure : Failure} {result : Option α} (intact : failure.isBreakage = false)
    (right : ∀ a, result = some a → Does targets held (next a) doc after) :
    Does targets held (Edit.orFail failure result >>= next) doc after := by
  cases result with
  | none => exact of_failure (by rw [outcome_bind, outcome_orFail]) intact
  | some a => exact bind_outcome (outcome_orFail _ _) Relation.ReflTransGen.refl (right a rfl)

/-- A change that fits. -/
theorem change {step : Document → Except Mismatch Document} {P : Unit → Document → Prop} (run : step doc = .ok doc')
    (work : Document.Work (· ∈ targets) (· ∈ held) doc doc') (holds : P () doc') :
    Does targets held (Edit.change step) doc P :=
  of_outcome (by rw [outcome_change, run]) work.works holds

end Does

end Edit

namespace Document
variable {doc doc' : Document} {targets held : List NodeId} {o p q entry value : NodeId} {name : List Char} {quote : Char}

/-- A sound document with some object literals to work below, among other nodes to hold. -/
structure Ready (doc : Document) (targets held : List NodeId) : Prop where
  sound : doc.Sound
  objects : ∀ o ∈ targets, doc.role o = .object
  holds : ∀ o ∈ targets, o ∈ held
  present : ∀ x ∈ held, x < doc.nodes.size

/-- Object literals that are held to be worked below. -/
theorem Ready.self (sound : doc.Sound) (objects : ∀ o ∈ targets, doc.role o = .object) : Ready doc targets targets :=
  ⟨sound, objects, fun _ member => member, fun o member => lt_of_role (objects o member) (by decide)⟩

theorem Ready.moves [Reader] (ready : Ready doc targets held) (moves : doc.Moves doc') : Ready doc' targets held where
  sound := moves.sound ready.sound
  objects o member :=
    ((moves.toExtends ready.sound).role (ready.present o (ready.holds o member))).trans (ready.objects o member)
  holds := ready.holds
  present x member := Nat.lt_of_lt_of_le (ready.present x member) (moves.toExtends ready.sound).size

/-- A loose node is none of those that are held. -/
theorem Loose.not_held (loose : Loose doc held value) : value ∉ held := fun member =>
  loose.apart value member (Below.refl doc value)

/-! ## Written pairs -/

/-- The kind of a key that is written for a name. -/
def keyKind (name : List Char) : String := if Literal.isBareName name then "property_identifier" else "string"

theorem keyKind_plain (name : List Char) : Role.ofKind (keyKind name) ≠ .pair := by
  unfold keyKind
  split <;> decide

/-- A pair with a new key has been written above a value. -/
structure PairWritten (doc doc' : Document) (name : List Char) (quote : Char) (value : NodeId) : Prop where
  rest : doc' = { doc with nodes := doc'.nodes }
  size : doc'.nodes.size = doc.nodes.size + 2
  key : doc'.node doc.nodes.size =
    { Node.written (keyKind name) (some (Literal.keyText name quote)) with
      parent := some (doc.nodes.size + 1), field := some "key" }
  pair : doc'.node (doc.nodes.size + 1) = { Node.written "pair" none with children := [doc.nodes.size, value] }
  held : doc'.node value = { doc.node value with parent := some (doc.nodes.size + 1), field := some "value" }
  others : ∀ x < doc.nodes.size, x ≠ value → doc'.node x = doc.node x

/-- What writing a pair above a loose value does. -/
theorem writePair_run [Reader] (ready : Ready doc targets held) (loose : Loose doc held value) (name : List Char)
    (quote : Char) :
    ∃ doc', Edit.outcome (Model.writePair name quote value) doc = (.ok (doc.nodes.size + 1), doc') ∧
      Works (fun _ => False) (· ∈ held) doc doc' ∧
      PairWritten doc doc' name quote value ∧ Steady doc doc' ∧ Loose doc' held (doc.nodes.size + 1) ∧
      ∀ x, x ≠ value → Loose doc held x → Loose doc' held x := by
  have sound := ready.sound
  have lt := loose.free.lt
  have leaf := writeLeaf_node doc (keyKind name) (Literal.keyText name quote)
  have leafMove : Move doc _ := .leaf (keyKind name) (Literal.keyText name quote) (keyKind_plain name)
  have leafLoose := writeLeaf_loose sound ready.present (keyKind name) (Literal.keyText name quote)
  have leafSize : (doc.writeLeaf (keyKind name) (Literal.keyText name quote)).1.nodes.size = doc.nodes.size + 1 :=
    size_insert doc _
  have leafSteady := (writeLeaf_prolongs doc (keyKind name) (Literal.keyText name quote)).steady
  have leafWork : Work (fun _ => False) (· ∈ held) doc _ :=
    leafMove.work (writeLeaf_prolongs doc (keyKind name) (Literal.keyText name quote)).node ready.present
  have leafRest := (writeLeaf_prolongs doc (keyKind name) (Literal.keyText name quote)).rest
  have keeps : ∀ x, Loose doc held x →
      Loose (doc.writeLeaf (keyKind name) (Literal.keyText name quote)).1 held x := fun x is =>
    is.writeLeaf sound.forest (keyKind name) (Literal.keyText name quote)
  have run : Edit.outcome (Model.writePair name quote value) doc =
      (.ok ((doc.writeLeaf (keyKind name) (Literal.keyText name quote)).1.writeNode "pair"
          [(some "key", doc.nodes.size), (some "value", value)]).2,
        ((doc.writeLeaf (keyKind name) (Literal.keyText name quote)).1.writeNode "pair"
          [(some "key", doc.nodes.size), (some "value", value)]).1) := rfl
  generalize (doc.writeLeaf (keyKind name) (Literal.keyText name quote)).1 = keyed at *
  have readyKeyed : Ready keyed targets held := ready.moves (Relation.ReflTransGen.single leafMove)
  have valueLoose := keeps value loose
  obtain ⟨parts, partsIs⟩ : ∃ parts : List (Option String × NodeId),
      parts = [(some "key", doc.nodes.size), (some "value", value)] := ⟨_, rfl⟩
  have members : ∀ c ∈ parts.map Prod.snd, Loose keyed held c := by
    simp only [partsIs, List.map_cons, List.map_nil, List.mem_cons, List.not_mem_nil, or_false]
    rintro c (rfl | rfl)
    · exact leafLoose
    · exact valueLoose
  have distinct : (parts.map Prod.snd).Nodup := by
    simpa [partsIs] using Nat.ne_of_gt lt
  rw [← partsIs] at run
  obtain ⟨number, joined⟩ := writeNode_joined keyed "pair" parts distinct fun c member => (members c member).free.lt
  rw [number, leafSize] at run
  have join : Move keyed _ := .join "pair" parts rfl distinct (fun c member => (members c member).free)
    (fun _ => ⟨value, by simp [partsIs]⟩)
  have joinWork : Work (fun _ => False) (· ∈ held) keyed _ :=
    joined.work join readyKeyed.present fun x member listed => (members x listed).not_held member
  have top := joined.loose readyKeyed.sound readyKeyed.present members
  generalize (keyed.writeNode "pair" parts).1 = final at *
  refine ⟨final, run, leafWork.works.tail joinWork, ⟨?_, ?_, ?_, ?_, ?_, ?_⟩, ?_, ?_, ?_⟩
  · rw [joined.rest, leafRest]
  · rw [joined.size, leafSize]
  · rw [joined.part (some "key") doc.nodes.size (by simp [partsIs]), leafSize, leaf, if_pos rfl]
  · rw [← leafSize, joined.top, partsIs]
    rfl
  · rw [joined.part (some "value") value (by simp [partsIs]), leafSize, leaf, if_neg (Nat.ne_of_lt lt)]
  · intro x below other
    rw [joined.node x (leafSize ▸ Nat.lt_succ_of_lt below)
      (by simpa [partsIs] using ⟨Nat.ne_of_lt below, other⟩), leaf, if_neg (Nat.ne_of_lt below)]
  · refine ⟨leafSteady.ext.trans joined.steady.ext, fun x below => ?_⟩
    rw [joined.steady.children x (leafSize ▸ Nat.lt_succ_of_lt below), leafSteady.children x below]
  · rw [← leafSize]
    exact top
  · intro x other is
    refine (keeps x is).joined joined readyKeyed.sound.forest ?_
    simpa [partsIs] using ⟨Nat.ne_of_lt is.free.lt, other⟩

/-- An entry below some node has got another value: the old one has made way in a pair, or the entry for a new pair. -/
inductive Revalued (doc doc' : Document) (name : List Char) (quote : Char) (q entry value : NodeId) : Prop
  | pair {old : NodeId} (held : doc.pairValue? entry = some old) (replaced : Replaced doc doc' entry old value)
  | other {paired : Document} (lacking : doc.pairValue? entry = none) (made : PairWritten doc paired name quote value)
      (steady : Steady doc paired) (sound : paired.Sound) (free : paired.Free (doc.nodes.size + 1))
      (replaced : Replaced paired doc' q entry (doc.nodes.size + 1))

/-! ## Entries -/

/-- An entry that has a name of its own: anything but a spread. -/
def Keyed (doc : Document) (entry : NodeId) : Prop :=
  doc.role entry = .pair ∨ doc.role entry = .shorthandProperty ∨ doc.role entry = .methodDefinition

theorem keyed_of_name (named : doc.entryName? entry = some name) : doc.Keyed entry := by
  unfold entryName? entryKey? at named
  unfold Keyed
  split at named <;> simp_all [EntryKey.name?]

theorem keyed_of_identifier (named : doc.entryIdentifier? entry = some name) : doc.Keyed entry := by
  unfold entryIdentifier? entryKey? at named
  unfold Keyed
  split at named <;> simp_all [EntryKey.identifier?]

theorem childByField?_some {field : String} (found : doc.childByField? p field = some q) :
    q ∈ doc.children p ∧ (doc.node q).field = some field := by
  refine ⟨List.mem_of_find?_eq_some found, ?_⟩
  have := List.find?_some found
  simpa using this

theorem pairValue?_some (found : doc.pairValue? entry = some value) :
    doc.role entry = .pair ∧ value ∈ doc.children entry ∧ (doc.node value).field = some "value" := by
  unfold pairValue? at found
  split at found
  next pair => exact ⟨pair, childByField?_some found⟩
  next => cases found

theorem pairValue?_none (lacking : doc.pairValue? entry = none) (pair : doc.role entry = .pair) :
    ∀ c ∈ doc.children entry, (doc.node c).field ≠ some "value" := by
  rw [pairValue?, if_pos pair, childByField?, List.find?_eq_none] at lacking
  intro c member
  simpa using lacking c member

theorem entryNamed?_some (found : doc.entryNamed? p name = some entry) :
    entry ∈ doc.children p ∧ doc.entryIdentifier? entry = some name := by
  have member := List.mem_of_getLast? found
  rw [List.mem_filter, entries, List.mem_filter] at member
  exact ⟨member.1.1, by simpa using member.2⟩

theorem mem_entriesNamed (member : entry ∈ doc.entriesNamed p name) :
    entry ∈ doc.children p ∧ doc.entryName? entry = some name := by
  rw [entriesNamed, List.mem_filter, entries, List.mem_filter] at member
  exact ⟨member.1.1, by simpa using member.2⟩

theorem entriesNamed_nodup (forest : doc.Forest) (p : NodeId) (name : List Char) : (doc.entriesNamed p name).Nodup :=
  ((forest.distinct p).filter _).filter _

theorem below_entryBody (member : entry ∈ doc.children p) : doc.Below p (doc.entryBody entry) := by
  unfold entryBody
  cases found : doc.pairValue? entry with
  | none => exact Below.child member
  | some value => exact (Below.child member).trans (Below.child (pairValue?_some found).2.1)

end Document

namespace Snippet
variable {doc : Document} {targets held : List NodeId} {snippet : Snippet}

/-- The tree of a snippet is in the table, and loose as long as it has no place. -/
structure Pending (doc : Document) (held : List NodeId) (snippet : Snippet) : Prop where
  present : snippet.tree < doc.nodes.size
  loose : snippet.used = false → doc.Loose held snippet.tree

/-- A snippet whose tree has a place only has to be in the table. -/
theorem Pending.of_used (used : snippet.used = true) (present : snippet.tree < doc.nodes.size) :
    Pending doc held snippet :=
  ⟨present, fun unused => by
    rw [used] at unused
    cases unused⟩

variable [Reader]

/-- A snippet is refused for what it is. -/
theorem ofRead_intact {source : List Char} {e : ReadError} (refused : doc.parseExpression source = .error e) :
    (Failure.ofRead e).isBreakage = false := by
  unfold Document.parseExpression at refused
  simp only at refused
  split at refused <;> cases refused <;> rfl

theorem parse_does (ready : doc.Ready targets held) (source : List Char) :
    Edit.Does targets held (parse source) doc fun snippet doc' => Pending doc' held snippet := by
  refine Edit.Does.get ?_
  cases read : doc.parseExpression source with
  | error e => exact Edit.Does.of_failure rfl (ofRead_intact read)
  | ok result =>
    obtain ⟨doc', tree⟩ := result
    obtain ⟨number, _, _, adopted⟩ := Document.parseExpression_adopted read
    have loose := adopted.loose (ready.sound.withBuffer _) ready.present
    have work : Document.Work (· ∈ targets) (· ∈ held) doc doc' :=
      (Document.Move.adopt source read).work adopted.longer.node ready.present
    refine Edit.Does.of_outcome rfl work.works ⟨?_, fun _ => ?_⟩
    · rw [number]
      exact loose.free.lt
    · rw [number]
      exact loose

/-- The next tree of a snippet is loose, and nothing has got or lost children for it. -/
theorem next_does (ready : doc.Ready targets held) (pending : Pending doc held snippet) :
    Edit.Does targets held snippet.next doc fun (value, snippet) doc' =>
      doc'.Loose held value ∧ (snippet.used = true ∧ snippet.tree < doc'.nodes.size) ∧ doc.Steady doc' := by
  unfold next
  by_cases used : snippet.used
  · rw [if_pos used]
    obtain ⟨number, twin, copied⟩ := Document.duplicate_duplicated ready.sound.forest pending.present
    have steady := copied.longer.steady
    have work : Document.Work (· ∈ targets) (· ∈ held) doc _ :=
      (Document.Move.copy pending.present).work copied.longer.node ready.present
    refine Edit.Does.of_outcome rfl work.works ⟨?_, ⟨used, ?_⟩, steady⟩
    · show Document.Loose _ held (doc.duplicate snippet.tree).2
      rw [number]
      exact copied.loose ready.sound ready.present
    · exact Nat.lt_of_lt_of_le pending.present steady.ext.size
  · rw [if_neg used]
    have unused : snippet.used = false := by simpa using used
    exact Edit.Does.pure ⟨pending.loose unused, ⟨rfl, pending.present⟩, Document.Extends.refl doc, fun _ _ => rfl⟩

end Snippet

namespace Model

/-- The object literal of a container is an object literal below its model. -/
theorem containerObject?_some {doc : Document} {model : Model} {container : Container} {object : NodeId}
    (found : model.containerObject? doc container = .ok (some object)) :
    doc.Below model.object object ∧ doc.role object = .object := by
  unfold containerObject? at found
  split at found
  · cases found
  next entry named =>
    obtain ⟨child, _⟩ := Document.entryNamed?_some named
    simp only at found
    split at found
    next object' =>
      cases found
      exact ⟨Document.below_entryBody child, object'⟩
    next => cases found

theorem containerObject?_intact {doc : Document} {model : Model} {container : Container} {failure : Failure}
    (failed : model.containerObject? doc container = .error failure) : failure.isBreakage = false := by
  unfold containerObject? at failed
  split at failed
  · cases failed
  · simp only at failed
    split at failed
    · cases failed
    · cases failed
      rfl

/-- The named entries of a container are those of its object literal, if it has any. -/
theorem namedEntries_iff {doc : Document} {model : Model} {container : Container} {name : List Char} {object : NodeId}
    {entries : List NodeId} (found : model.containerObject? doc container = .ok (some object)) :
    model.namedEntries doc container name = .ok entries ↔ entries = doc.entriesNamed object name ∧ entries ≠ [] := by
  rw [namedEntries, found]
  simp only [bind, Except.bind, throw, throwThe, MonadExceptOf.throw, pure, Except.pure]
  split
  next none =>
    rw [List.isEmpty_iff.mp none]
    refine ⟨fun impossible => ?_, fun ⟨is, other⟩ => absurd is other⟩
    cases impossible
  next some =>
    refine ⟨fun is => ?_, fun ⟨is, _⟩ => is ▸ rfl⟩
    cases is
    exact ⟨rfl, by simpa using some⟩

/-- The named entries of a container, if there are any, are those of its object literal. -/
theorem namedEntries_ok {doc : Document} {model : Model} {container : Container} {name : List Char}
    {entries : List NodeId} (found : model.namedEntries doc container name = .ok entries) :
    ∃ object, model.containerObject? doc container = .ok (some object) ∧ entries = doc.entriesNamed object name := by
  unfold namedEntries at found
  cases is : model.containerObject? doc container with
  | error failure =>
    rw [is] at found
    cases found
  | ok literal =>
    rw [is] at found
    cases literal with
    | none => cases found
    | some object =>
      refine ⟨object, rfl, ?_⟩
      simp only [bind, Except.bind, throw, throwThe, MonadExceptOf.throw, pure, Except.pure] at found
      split at found
      · cases found
      · cases found
        rfl

theorem namedEntries_intact {doc : Document} {model : Model} {container : Container} {name : List Char}
    {failure : Failure} (failed : model.namedEntries doc container name = .error failure) :
    failure.isBreakage = false := by
  unfold namedEntries at failed
  cases is : model.containerObject? doc container with
  | error refusal =>
    rw [is] at failed
    cases failed
    exact containerObject?_intact is
  | ok literal =>
    rw [is] at failed
    cases literal with
    | none =>
      cases failed
      rfl
    | some object =>
      simp only [bind, Except.bind, throw, throwThe, MonadExceptOf.throw, pure, Except.pure] at failed
      split at failed
      · cases failed
        rfl
      · cases failed

variable [Reader] {doc : Document} {targets held : List NodeId} {o q entry value : NodeId} {name : List Char}
  {quote : Char}

open Document (Ready Loose Keyed)

/-- Giving an entry another value is a run of moves that leaves its siblings where they are. -/
theorem setValue_run (ready : Ready doc targets held) (member : o ∈ targets) (below : doc.Below o q)
    (child : entry ∈ doc.children q) (keyed : doc.Keyed entry) (loose : Loose doc held value) (name : List Char)
    (quote : Char) :
    ∃ doc', Edit.outcome (setValue entry name quote value) doc = (.ok (), doc') ∧
      Document.Works (· ∈ targets) (· ∈ held) doc doc' ∧
      doc.Revalued doc' name quote q entry value ∧ doc'.Below o q ∧
      ∀ e ∈ doc.children q, e ≠ entry → e ∈ doc'.children q := by
  have sound := ready.sound
  have forest := sound.forest
  have notAbove : ¬ doc.Below entry q := fun up =>
    forest.child_ne child (forest.below_antisymm up (Document.Below.child child))
  cases found : doc.pairValue? entry with
  | some old =>
    obtain ⟨pair, inside, field⟩ := Document.pairValue?_some found
    have parent := forest.childParent inside
    have apart := loose.not_below forest (ready.holds o member) (below.tail child)
    obtain ⟨doc', run, replaced⟩ := Document.replace_ok forest parent loose.free apart
    have hung := replaced.edited.hung
    have work := replaced.edited.work (.replace parent loose.free apart (.inl ⟨pair, field⟩) run) member
      (below.tail child) fun _ same => Option.some.inj same ▸ loose.not_held
    refine ⟨doc', ?_, work.works, .pair found replaced, hung.below_stays below ?_, ?_⟩
    · simp only [setValue, Edit.outcome_bind, Edit.outcome_look, found, Edit.outcome_change, run]
    · intro g same up
      cases same
      exact notAbove ((Document.Below.child inside).trans up)
    · intro e sibling _
      rw [hung.children q (forest.child_ne child).symm]
      exact sibling
  | none =>
    obtain ⟨written, run, writes, made, steady, fresh, _⟩ := Document.writePair_run ready loose name quote
    have ready' := ready.moves writes.moves
    have present : q < doc.nodes.size := Document.lt_of_mem_children child
    have child' : entry ∈ written.children q := (steady.children q present).symm ▸ child
    have below' : written.Below o q := (steady.below forest (ready.present o (ready.holds o member))).mpr below
    have parent := ready'.sound.forest.childParent child'
    have apart := fresh.not_below ready'.sound.forest (ready.holds o member) below'
    have keeps : ∀ c, c < doc.nodes.size → doc.parent? c ≠ none → written.node c = doc.node c := fun c lt hung =>
      made.others c lt fun same => hung (same ▸ loose.free.root)
    have may : written.Replaceable q entry := by
      have role : written.role entry = doc.role entry := steady.ext.role (forest.childLt child)
      rcases keyed with pair | shorthand | method
      · refine .inr (.inr (.inr ⟨role.trans pair, fun c inside => ?_⟩))
        rw [steady.children entry (forest.childLt child)] at inside
        rw [keeps c (forest.childLt inside) (by simp [forest.childParent inside])]
        exact Document.pairValue?_none found pair c inside
      · exact .inr (.inl (role.trans shorthand))
      · exact .inr (.inr (.inl (role.trans method)))
    obtain ⟨doc', run', replaced⟩ := Document.replace_ok ready'.sound.forest parent fresh.free apart
    have work := replaced.edited.work (.replace parent fresh.free apart may run') member below' fun _ same =>
      Option.some.inj same ▸ fresh.not_held
    refine ⟨doc', ?_, writes.anywhere.tail work,
      .other found made steady ready'.sound fresh.free replaced, replaced.edited.hung.below_stays below' ?_, ?_⟩
    · simp only [setValue, Edit.outcome_bind, Edit.outcome_look, found, run, Edit.outcome_change, run']
    · intro g same up
      cases same
      exact notAbove ((steady.below forest (forest.childLt child)).mp up)
    · intro e sibling other
      refine (replaced.edited.hung.mem e).mpr (.inr ⟨(steady.children q present).symm ▸ sibling, ?_⟩)
      exact fun same => other (Option.some.inj same)

theorem setValue_does (ready : Ready doc targets held) (member : o ∈ targets) (below : doc.Below o q)
    (child : entry ∈ doc.children q) (keyed : doc.Keyed entry) (loose : Loose doc held value) :
    Edit.Does targets held (setValue entry name quote value) doc fun _ doc' =>
      doc'.Below o q ∧ ∀ e ∈ doc.children q, e ≠ entry → e ∈ doc'.children q := by
  obtain ⟨doc', set, works, _, stays⟩ := setValue_run ready member below child keyed loose name quote
  exact Edit.Does.of_outcome set works stays

/-- Giving some siblings other values is a run of moves. -/
theorem setValues_does {entries : List NodeId} {snippet : Snippet} (ready : Ready doc targets held) (member : o ∈ targets)
    (below : doc.Below o q) (children : ∀ e ∈ entries, e ∈ doc.children q ∧ doc.Keyed e) (distinct : entries.Nodup)
    (pending : snippet.Pending doc held) :
    Edit.Does targets held (setValues name quote snippet entries) doc fun snippet doc' => snippet.Pending doc' held := by
  induction entries generalizing doc snippet with
  | nil => exact Edit.Does.pure pending
  | cons entry rest ih =>
    obtain ⟨fresh, distinct⟩ := List.nodup_cons.mp distinct
    refine Edit.Does.bind (Snippet.next_does ready pending) fun (value, snippet) grown moves ⟨loose, taken, steady⟩ => ?_
    have forest := ready.sound.forest
    have ready' := ready.moves moves
    have below' : grown.Below o q := (steady.below forest (ready.present o (ready.holds o member))).mpr below
    have children' : ∀ e ∈ entry :: rest, e ∈ grown.children q ∧ grown.Keyed e := by
      intro e listed
      obtain ⟨child, keyed⟩ := children e listed
      refine ⟨(steady.children q (Document.lt_of_mem_children child)).symm ▸ child, ?_⟩
      unfold Document.Keyed
      rw [steady.ext.role (forest.childLt child)]
      exact keyed
    obtain ⟨child, keyed⟩ := children' entry (by simp)
    refine Edit.Does.bind (setValue_does ready' member below' child keyed loose) fun _ doc' moves' ⟨below, stay⟩ => ?_
    refine ih (ready'.moves moves') below (fun e listed => ?_) distinct ?_
    · obtain ⟨sibling, keyed⟩ := children' e (List.mem_cons_of_mem _ listed)
      refine ⟨stay e sibling fun same => fresh (same ▸ listed), ?_⟩
      unfold Document.Keyed
      rw [(moves'.toExtends ready'.sound).role (ready'.sound.forest.childLt sibling)]
      exact keyed
    · exact .of_used taken.1 (Nat.lt_of_lt_of_le taken.2 (moves'.toExtends ready'.sound).size)

/-- Taking entries out of an object literal is a run of moves. -/
theorem removeAll_does {entries : List NodeId} (sound : doc.Sound) (member : o ∈ targets) (below : doc.Below o q)
    (object : doc.role q = .object) (children : ∀ e ∈ entries, e ∈ doc.children q) (distinct : entries.Nodup) :
    Edit.Does targets held (removeAll entries) doc fun _ _ => True := by
  induction entries generalizing doc with
  | nil => exact Edit.Does.pure trivial
  | cons entry rest ih =>
    obtain ⟨fresh, distinct⟩ := List.nodup_cons.mp distinct
    have child := children entry (by simp)
    have parent := sound.forest.childParent child
    obtain ⟨doc', run, removed⟩ := Document.remove_ok sound.forest parent object
    have work : Document.Work (· ∈ targets) (· ∈ held) doc doc' :=
      removed.edited.work (.remove parent object run) member below fun _ same => by cases same
    refine Edit.Does.bind (Edit.Does.change (P := fun _ d => d = doc') run work rfl) fun _ d moves same => ?_
    rw [same] at moves ⊢
    refine ih (moves.sound sound) (removed.edited.hung.below_stays below ?_) ?_ (fun e listed => ?_) distinct
    · intro g same up
      cases same
      exact sound.forest.not_below_parent child up
    · rw [(moves.toExtends sound).role (Document.lt_of_role object (by decide))]
      exact object
    · refine (removed.edited.hung.mem e).mpr (.inr ⟨children e (List.mem_cons_of_mem _ listed), ?_⟩)
      exact fun same => fresh (Option.some.inj same ▸ listed)

variable {model : Model} {snippet : Snippet}

theorem rename_does (ready : Ready doc targets held) (member : model.object ∈ targets) (space : List Char) :
    Edit.Does targets held (model.rename space) doc fun _ _ => True := by
  refine Edit.Does.look _ (Edit.Does.orFail rfl fun entry found => ?_)
  refine Edit.Does.look _ (Edit.Does.orFail rfl fun old value => ?_)
  refine Edit.Does.look _ ?_
  obtain ⟨child, _⟩ := Document.entryNamed?_some found
  obtain ⟨pair, inside, field⟩ := Document.pairValue?_some value
  obtain ⟨text, textIs⟩ : ∃ text, text = Literal.quoted space (Literal.quoteOf (doc.text old)) := ⟨_, rfl⟩
  rw [← textIs]
  have sound := ready.sound
  have forest := sound.forest
  have loose := Document.writeLeaf_loose sound ready.present "string" text
  have longer := Document.writeLeaf_prolongs doc "string" text
  have steady := longer.steady
  have move : Document.Move doc (doc.writeLeaf "string" text).1 := .leaf "string" text (by decide)
  refine Edit.Does.bind_outcome rfl (move.work longer.node ready.present).works ?_
  have ready' := ready.moves (Relation.ReflTransGen.single move)
  have entryLt := forest.childLt child
  have oldLt := forest.childLt inside
  have inside' : old ∈ (doc.writeLeaf "string" text).1.children entry := (steady.children entry entryLt).symm ▸ inside
  have below : (doc.writeLeaf "string" text).1.Below model.object entry :=
    (steady.below forest (ready.present _ (ready.holds _ member))).mpr (Document.Below.child child)
  have parent := ready'.sound.forest.childParent inside'
  have apart := loose.not_below ready'.sound.forest (ready.holds _ member) below
  obtain ⟨_, run, replaced⟩ := Document.replace_ok ready'.sound.forest parent loose.free apart
  refine Edit.Does.change run (replaced.edited.work (.replace parent loose.free apart (.inl ⟨?_, ?_⟩) run) member below
    fun _ same => Option.some.inj same ▸ loose.not_held) trivial
  · exact (steady.ext.role entryLt).trans pair
  · exact (congrArg Node.field (longer.node old oldLt)).trans field

theorem setState_does (ready : Ready doc targets held) (member : model.object ∈ targets)
    (pending : snippet.Pending doc held) :
    Edit.Does targets held (model.setState snippet) doc fun snippet doc' => snippet.Pending doc' held := by
  refine Edit.Does.look _ ?_
  cases found : doc.entryNamed? model.object stateName with
  | none => exact Edit.Does.pure pending
  | some entry =>
    obtain ⟨child, named⟩ := Document.entryNamed?_some found
    have keyed := Document.keyed_of_identifier named
    have forest := ready.sound.forest
    refine Edit.Does.bind (Snippet.next_does ready pending) fun (value, snippet) grown moves ⟨loose, taken, steady⟩ => ?_
    have ready' := ready.moves moves
    have child' : entry ∈ grown.children model.object :=
      (steady.children _ (ready.present _ (ready.holds _ member))).symm ▸ child
    have keyed' : grown.Keyed entry := by
      unfold Document.Keyed
      rw [steady.ext.role (forest.childLt child)]
      exact keyed
    refine Edit.Does.bind (setValue_does ready' member (Document.Below.refl _ _) child' keyed' loose)
      fun _ doc' moves' _ => Edit.Does.pure ?_
    exact .of_used taken.1 (Nat.lt_of_lt_of_le taken.2 (moves'.toExtends ready'.sound).size)

theorem ensureContainer_does (ready : Ready doc targets held) (member : model.object ∈ targets)
    (pending : snippet.Pending doc held) (container : Container) (quote : Char) :
    Edit.Does targets held (model.ensureContainer container quote) doc fun object doc' =>
      doc'.Below model.object object ∧ doc'.role object = .object ∧ snippet.Pending doc' held := by
  refine Edit.Does.get (Edit.Does.lift (fun _ => containerObject?_intact) fun found is => ?_)
  cases found with
  | some object =>
    obtain ⟨below, role⟩ := containerObject?_some is
    exact Edit.Does.pure ⟨below, role, pending⟩
  | none =>
    have sound := ready.sound
    have forest := sound.forest
    obtain ⟨number, joined⟩ := Document.writeNode_joined doc "object" [] (by simp) (by simp)
    have move : Document.Move doc (doc.writeNode "object" []).1 :=
      .join "object" [] rfl (by simp) (by simp) (fun pair => absurd pair (by decide))
    have run : Edit.outcome (Edit.make (·.writeNode "object" [])) doc =
        (.ok doc.nodes.size, (doc.writeNode "object" []).1) := by
      rw [Edit.outcome_make, number]
    refine Edit.Does.bind_outcome run (joined.work move ready.present (by simp)).works ?_
    have ready' := ready.moves (Relation.ReflTransGen.single move)
    have objectLoose := joined.loose sound ready.present (by simp)
    have role : (doc.writeNode "object" []).1.role doc.nodes.size = .object := by
      rw [Document.role, joined.top]
      rfl
    have snippetLoose : snippet.used = false → Loose (doc.writeNode "object" []).1 held snippet.tree := fun unused =>
      (pending.loose unused).joined joined forest (by simp)
    have more := joined.toExtends.size
    generalize (doc.writeNode "object" []).1 = made at *
    obtain ⟨paired, run', writes, pair, steady, fresh, keeps⟩ :=
      Document.writePair_run ready' objectLoose container.key.toList quote
    refine Edit.Does.bind_outcome run' writes.anywhere ?_
    have ready'' := ready'.moves writes.moves
    have heldModel := ready.holds _ member
    have apart := fresh.not_below ready''.sound.forest heldModel (Document.Below.refl _ _)
    have object := ready''.objects _ member
    obtain ⟨_, run'', appended⟩ := Document.append_ok ready''.sound.forest object fresh.free apart
    have work := appended.edited.work (.append object fresh.free apart run'') member (Document.Below.refl _ _) fun _ same =>
      Option.some.inj same ▸ fresh.not_held
    refine Edit.Does.bind (Edit.Does.change (P := fun _ doc' => paired.Appended doc' model.object (made.nodes.size + 1))
      run'' work appended) fun _ doc' moves'' appended => Edit.Does.pure ⟨?_, ?_, ?_, ?_⟩
    · obtain ⟨before, after, _, now, _⟩ := appended.place
      have listed : made.nodes.size + 1 ∈ doc'.children model.object := by simp [now]
      have inside : doc.nodes.size ∈ doc'.children (made.nodes.size + 1) := by
        rw [appended.edited.hung.children _ fun same => apart (same ▸ Document.Below.refl _ _), Document.children,
          pair.pair]
        simp
      exact (Document.Below.child listed).trans (Document.Below.child inside)
    · have lt : doc.nodes.size < made.nodes.size := objectLoose.free.lt
      rw [appended.edited.ext.role (Nat.lt_of_lt_of_le lt steady.ext.size), steady.ext.role lt]
      exact role
    · have size := (moves''.toExtends ready''.sound).size
      exact Nat.lt_of_lt_of_le pending.present (Nat.le_trans more (Nat.le_trans steady.ext.size size))
    · intro unused
      have other : snippet.tree ≠ doc.nodes.size := Nat.ne_of_lt pending.present
      have loose := keeps snippet.tree other (snippetLoose unused)
      refine loose.edited appended.edited ?_ ?_ (loose.not_below ready''.sound.forest heldModel (Document.Below.refl _ _))
      · intro same
        have lt := (snippetLoose unused).free.lt
        rw [Option.some.inj same] at lt
        exact absurd lt (Nat.not_lt_of_ge (Nat.le_succ _))
      · intro n same
        cases same
        rw [appended.replaces]
        exact fun impossible => by cases impossible

theorem addEntry_does (ready : Ready doc targets held) (member : model.object ∈ targets)
    (pending : snippet.Pending doc held) (container : Container) (name : List Char) :
    Edit.Does targets held (model.addEntry container name snippet) doc fun snippet doc' => snippet.Pending doc' held := by
  refine Edit.Does.look _ ?_
  refine Edit.Does.bind (ensureContainer_does ready member pending container _)
    fun object made moves ⟨below, role, pending⟩ => ?_
  have heldModel := ready.holds _ member
  have ready := ready.moves moves
  refine Edit.Does.bind (Snippet.next_does ready pending) fun (value, snippet) grown moves ⟨loose, taken, steady⟩ => ?_
  have below : grown.Below model.object object := (steady.below ready.sound.forest (ready.present _ heldModel)).mpr below
  have role : grown.role object = .object := (steady.ext.role (Document.lt_of_role role (by decide))).trans role
  have ready := ready.moves moves
  obtain ⟨paired, run, writes, _, steady, fresh, _⟩ := Document.writePair_run ready loose name (model.quote doc)
  refine Edit.Does.bind_outcome run writes.anywhere ?_
  have below : paired.Below model.object object := (steady.below ready.sound.forest (ready.present _ heldModel)).mpr below
  have role : paired.role object = .object := (steady.ext.role (Document.lt_of_role role (by decide))).trans role
  have ready := ready.moves writes.moves
  have apart := fresh.not_below ready.sound.forest heldModel below
  obtain ⟨_, run, appended⟩ := Document.append_ok ready.sound.forest role fresh.free apart
  have work := appended.edited.work (.append role fresh.free apart run) member below fun _ same =>
    Option.some.inj same ▸ fresh.not_held
  refine Edit.Does.bind (Edit.Does.change (P := fun _ _ => True) run work trivial)
    fun _ doc' moves _ => Edit.Does.pure ?_
  have size := (moves.toExtends ready.sound).size
  exact .of_used taken.1 (Nat.lt_of_lt_of_le taken.2 (Nat.le_trans steady.ext.size size))

theorem setEntry_does (ready : Ready doc targets held) (member : model.object ∈ targets)
    (pending : snippet.Pending doc held) (container : Container) (name : List Char) :
    Edit.Does targets held (model.setEntry container name snippet) doc fun snippet doc' => snippet.Pending doc' held := by
  refine Edit.Does.get (Edit.Does.lift (fun _ => namedEntries_intact) fun entries found => Edit.Does.look _ ?_)
  obtain ⟨object, holds, rfl⟩ := namedEntries_ok found
  obtain ⟨below, _⟩ := containerObject?_some holds
  refine setValues_does ready member below (fun e listed => ?_) ?_ pending
  · obtain ⟨child, named⟩ := Document.mem_entriesNamed listed
    exact ⟨child, Document.keyed_of_name named⟩
  · exact Document.entriesNamed_nodup ready.sound.forest object name

theorem removeEntry_does (sound : doc.Sound) (member : model.object ∈ targets) (container : Container) (name : List Char) :
    Edit.Does targets held (model.removeEntry container name) doc fun _ _ => True := by
  refine Edit.Does.get (Edit.Does.lift (fun _ => namedEntries_intact) fun entries found => ?_)
  obtain ⟨object, holds, rfl⟩ := namedEntries_ok found
  obtain ⟨below, role⟩ := containerObject?_some holds
  exact removeAll_does sound member below role (fun _ listed => (Document.mem_entriesNamed listed).1)
    (Document.entriesNamed_nodup sound.forest object name)

end Model

namespace ModelSet
variable [Reader] {doc doc' : Document} {targets held : List NodeId} {models : List Model}

open Document (Ready)

theorem forAll_does {edit : Model → Snippet → Edit Snippet} {snippet : Snippet} (ready : Ready doc targets held)
    (pending : snippet.Pending doc held) (members : ∀ m ∈ models, m.object ∈ targets)
    (each : ∀ {doc snippet}, ∀ m ∈ models, Ready doc targets held → snippet.Pending doc held →
      Edit.Does targets held (edit m snippet) doc fun snippet doc' => snippet.Pending doc' held) :
    Edit.Does targets held (forAll edit snippet models) doc fun _ _ => True := by
  induction models generalizing doc snippet with
  | nil => exact Edit.Does.pure trivial
  | cons model rest ih =>
    refine Edit.Does.bind (each model (by simp) ready pending) fun snippet doc' moves pending => ?_
    exact ih (ready.moves moves) pending (fun m member => members m (List.mem_cons_of_mem _ member))
      fun m member => each m (List.mem_cons_of_mem _ member)

theorem forEach_does {edit : Model → Edit Unit} (sound : doc.Sound)
    (each : ∀ {doc : Document}, ∀ m ∈ models, doc.Sound → Edit.Does targets held (edit m) doc fun _ _ => True) :
    Edit.Does targets held (forEach edit models) doc fun _ _ => True := by
  induction models generalizing doc with
  | nil => exact Edit.Does.pure trivial
  | cons model rest ih =>
    refine Edit.Does.bind (each model (by simp) sound) fun _ doc' moves _ => ?_
    exact ih (moves.sound sound) fun m member => each m (List.mem_cons_of_mem _ member)

theorem editEntries_does (ready : Ready doc targets held) (members : ∀ m ∈ models, m.object ∈ targets)
    (edit : ModelEdit) : Edit.Does targets held (editEntries models edit) doc fun _ _ => True := by
  cases edit with
  | setNamespace space => exact Edit.Does.pure trivial
  | setState source =>
    refine Edit.Does.bind (Snippet.parse_does ready source) fun snippet doc' moves pending => ?_
    exact forAll_does (ready.moves moves) pending members fun m member ready pending =>
      Model.setState_does ready (members m member) pending
  | addEntry container name source =>
    refine Edit.Does.bind (Snippet.parse_does ready _) fun snippet doc' moves pending => ?_
    exact forAll_does (ready.moves moves) pending members fun m member ready pending =>
      Model.addEntry_does ready (members m member) pending container name
  | setEntry container name source =>
    refine Edit.Does.bind (Snippet.parse_does ready source) fun snippet doc' moves pending => ?_
    exact forAll_does (ready.moves moves) pending members fun m member ready pending =>
      Model.setEntry_does ready (members m member) pending container name
  | removeEntry container name =>
    exact forEach_does ready.sound fun m member sound => Model.removeEntry_does sound (members m member) container name

omit [Reader] in
/-- Models are renamed one by one. -/
theorem renameAll_cons (space : List Char) (m : Model) (rest : List Model) (doc : Document) :
    (renameAll space (m :: rest)).run doc =
      match (m.rename space).outcome doc with
      | (.error e, doc') => ((m :: rest, .error e), doc')
      | (.ok (), doc') =>
        (({ m with space } :: ((renameAll space rest).run doc').1.1, ((renameAll space rest).run doc').1.2),
          ((renameAll space rest).run doc').2) := by
  rw [renameAll, StateT.run_bind,
    show StateT.run (ExceptT.run (m.rename space)) doc = (m.rename space).outcome doc from rfl]
  rcases (m.rename space).outcome doc with ⟨result, doc'⟩
  cases result <;> rfl

/-- Renaming models leads by work below them to some document and finds no broken tree. -/
theorem renameAll_does (ready : Ready doc targets held) (members : ∀ m ∈ models, m.object ∈ targets) (space : List Char) :
    Document.Works (· ∈ targets) (· ∈ held) doc ((renameAll space models).run doc).2 ∧
      ∀ failure, ((renameAll space models).run doc).1.2 = .error failure → failure.isBreakage = false := by
  induction models generalizing doc with
  | nil => exact ⟨Relation.ReflTransGen.refl, fun failure same => by cases same⟩
  | cons model rest ih =>
    obtain ⟨works, _, intact⟩ := Model.rename_does ready (members model (by simp)) space
    rw [renameAll_cons]
    generalize (model.rename space).outcome doc = reached at works intact ⊢
    obtain ⟨result, doc'⟩ := reached
    cases result with
    | error e => exact ⟨works, fun failure same => by cases same; exact intact e rfl⟩
    | ok _ =>
      obtain ⟨works', intact'⟩ := ih (ready.moves works.moves) fun m member => members m (List.mem_cons_of_mem _ member)
      exact ⟨works.trans works', intact'⟩

/-- Every edit of a set of object literals leads by work below them to the document it leaves, whether it succeeds or
    fails, and finds no broken tree. Nodes that are held get no new places. -/
theorem apply_works (ready : Ready doc (models.map Model.object) held) (edit : ModelEdit) :
    Document.Works (· ∈ models.map Model.object) (· ∈ held) doc ((ModelSet.mk doc models).apply edit).1.doc ∧
      ∀ failure, ((ModelSet.mk doc models).apply edit).2 = .error failure → failure.isBreakage = false := by
  have members : ∀ m ∈ models, m.object ∈ models.map Model.object := fun m member => List.mem_map_of_mem member
  have others := editEntries_does ready members edit
  cases edit with
  | setNamespace space => exact renameAll_does ready members space
  | setState source => exact ⟨others.works, others.intact⟩
  | addEntry container name source => exact ⟨others.works, others.intact⟩
  | setEntry container name source => exact ⟨others.works, others.intact⟩
  | removeEntry container name => exact ⟨others.works, others.intact⟩

/-- Every edit of a set of object literals leads by moves to the document it leaves, whether it succeeds or fails, and
    finds no broken tree. -/
theorem apply_does (sound : doc.Sound) (objects : ∀ m ∈ models, doc.role m.object = .object) (edit : ModelEdit) :
    doc.Moves ((ModelSet.mk doc models).apply edit).1.doc ∧
      ∀ failure, ((ModelSet.mk doc models).apply edit).2 = .error failure → failure.isBreakage = false := by
  have ready : Ready doc (models.map Model.object) (models.map Model.object) := by
    refine .self sound fun o member => ?_
    obtain ⟨m, listed, rfl⟩ := List.mem_map.mp member
    exact objects m listed
  obtain ⟨works, intact⟩ := apply_works ready edit
  exact ⟨works.moves, intact⟩

theorem apply_moves (sound : doc.Sound) (objects : ∀ m ∈ models, doc.role m.object = .object) (edit : ModelEdit) :
    doc.Moves ((ModelSet.mk doc models).apply edit).1.doc :=
  (apply_does sound objects edit).1

end ModelSet

end StoreModels
