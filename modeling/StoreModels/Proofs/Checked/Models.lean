import StoreModels.Record.Extract
import StoreModels.Proofs.Checked.Print

/-!
Finding and reading models, where every node, every text and every part of a text that is asked for may be missing. A
search may also refuse what it reads; the refusal is then its result. In a document without a hole, whose string
literals stand between characters of one byte, nothing that is asked for is missing.
-/
namespace StoreModels.Checked
open Syntax (Role)

variable {α β : Type} {doc : Document} {id entry object : NodeId}

/-- A document without a hole whose string literals can be taken out of their quotes. -/
structure Legible (doc : Document) : Prop extends Intact doc where
  peelable : ∀ {id}, doc.role id = .stringLiteral → IsPeelable (doc.text id)

/-! ## Runs that may refuse -/

/-- A run that fails where something is missing, and otherwise ends with a result or a refusal. -/
abbrev Run := ExceptT Failure Option

/-- A run that needs something which may be missing. -/
def found (asked : Option α) : Run α := ExceptT.lift asked

/-- A run that ends with a result or a refusal. -/
def given (result : Except Failure α) : Run α := ExceptT.mk (some result)

theorem found_some (a : α) : found (some a) = pure a := rfl

/-- Runs one after the other end as their results do. -/
theorem given_bind {result : Except Failure α} {next : α → Run β} {total : α → Except Failure β}
    (each : ∀ a, result = .ok a → next a = given (total a)) : given result >>= next = given (result >>= total) := by
  cases result with
  | error failure => rfl
  | ok a => exact each a rfl

theorem optionMapM_some {asked : Option α} {step : α → Option β} {total : α → β}
    (each : ∀ a ∈ asked, step a = some (total a)) : asked.mapM step = some (asked.map total) := by
  cases asked with
  | none => rfl
  | some a =>
    rw [Option.mapM_some, each a rfl]
    rfl

/-! ## Keys and entries -/

/-- The current text of a node. -/
def text (doc : Document) (id : NodeId) : Option (List Char) := printNode doc id

/-- The text that the literal at a node stands for. -/
def literal (doc : Document) (id : NodeId) : Option (List Char) := do unquoted (← text doc id)

/-- The key that a node in a key's place makes. -/
def keyOf (doc : Document) (key : NodeId) : Option EntryKey := do
  match ← role doc key with
  | .propertyIdentifier | .identifier => return .identifier (← text doc key)
  | .stringLiteral => return .literal (← literal doc key)
  | .numberLiteral => return .literal (← text doc key)
  | _ => return .computed

/-- The key of an entry; none for nodes that are no entries. -/
def entryKey (doc : Document) (entry : NodeId) : Option (Option EntryKey) := do
  match ← role doc entry with
  | .pair => (← childByField doc entry "key").mapM (keyOf doc)
  | .methodDefinition => (← childByField doc entry "name").mapM (keyOf doc)
  | .shorthandProperty => return some (.identifier (← text doc entry))
  | .spreadElement => return some .spread
  | _ => return none

/-- The value of a `key: value` entry. -/
def pairValue (doc : Document) (entry : NodeId) : Option (Option NodeId) := do
  if (← role doc entry) = .pair then childByField doc entry "value" else return none

/-- What an entry holds. -/
def entryBody (doc : Document) (entry : NodeId) : Option NodeId := do return (← pairValue doc entry).getD entry

/-- The name of an entry, as far as a view of its key shows it. -/
def entryView (doc : Document) (view : EntryKey → Option (List Char)) (entry : NodeId) :
    Option (Option (List Char)) := do
  return (← entryKey doc entry).bind view

/-- The entries of an object literal with a name. -/
def entriesNamed (doc : Document) (object : NodeId) (name : List Char) : Option (List NodeId) := do
  keep (fun e => do return (← entryView doc EntryKey.name? e) == some name) (← entries doc object)

/-- The property of a model that an entry defines. -/
def entryProperty (doc : Document) (entry : NodeId) : Option (Option Property) := do
  return (← entryView doc EntryKey.identifier? entry).bind fun name => Property.ofName? (String.ofList name)

section Entries
variable (legible : Legible doc)
include legible

theorem text_some (lt : id < doc.nodes.size) : text doc id = some (doc.text id) := printNode_some legible.toIntact lt

theorem literal_some (string : doc.role id = .stringLiteral) :
    literal doc id = some (Literal.unquoted (doc.text id)) := by
  rw [literal, text_some legible (Document.lt_of_role string (by decide))]
  exact unquoted_some (legible.peelable string)

theorem keyOf_some (lt : id < doc.nodes.size) : keyOf doc id = some (doc.keyOf id) := by
  rw [keyOf, role_some lt, Document.keyOf, text_some legible lt]
  cases is : doc.role id <;> first | rfl | (rw [literal_some legible is]; rfl)

theorem entryKey_some (lt : id < doc.nodes.size) : entryKey doc id = some (doc.entryKey? id) := by
  have forest := legible.sound.forest
  have key : ∀ field, (doc.childByField? id field).mapM (keyOf doc) =
      some ((doc.childByField? id field).map doc.keyOf) := fun field =>
    optionMapM_some fun c member => keyOf_some legible (childByField_lt forest member)
  simp only [entryKey, Document.entryKey?, role_some lt, childByField_some forest lt, text_some legible lt, key,
    Option.bind_eq_bind, Option.bind_some]
  cases doc.role id <;> rfl

theorem pairValue_some (lt : id < doc.nodes.size) : pairValue doc id = some (doc.pairValue? id) := by
  rw [pairValue, role_some lt, childByField_some legible.sound.forest lt]
  exact ite_some (fun value => value) _ _

theorem entryBody_some (lt : id < doc.nodes.size) : entryBody doc id = some (doc.entryBody id) := by
  rw [entryBody, pairValue_some legible lt]
  rfl

theorem entryBody_lt (lt : id < doc.nodes.size) : doc.entryBody id < doc.nodes.size := by
  rw [Document.entryBody, Document.pairValue?]
  split
  · cases value : doc.childByField? id "value" with
    | none => exact lt
    | some value' => exact childByField_lt legible.sound.forest value
  · exact lt

theorem entryView_some (view : EntryKey → Option (List Char)) (lt : id < doc.nodes.size) :
    entryView doc view id = some ((doc.entryKey? id).bind view) := by
  rw [entryView, entryKey_some legible lt]
  rfl

theorem mem_entries_lt (member : entry ∈ doc.entries object) : entry < doc.nodes.size :=
  legible.sound.forest.childLt (List.mem_of_mem_filter member)

theorem entriesNamed_some (lt : id < doc.nodes.size) (name : List Char) :
    entriesNamed doc id name = some (doc.entriesNamed id name) := by
  rw [entriesNamed, entries_some legible.sound.forest lt]
  refine keep_some fun e member => ?_
  rw [entryView_some legible _ (mem_entries_lt legible member)]
  rfl

theorem entryProperty_some (lt : id < doc.nodes.size) : entryProperty doc id = some (doc.entryProperty? id) := by
  rw [entryProperty, entryView_some legible _ lt]
  rfl

end Entries

/-! ## Models -/

/-- The text of a namespace entry. -/
def namespaceText (doc : Document) (entry : NodeId) : Run (List Char) := do
  let value ← found (entryBody doc entry)
  let node ← found (node doc value)
  if node.role = .stringLiteral then found (literal doc value)
  else given (.error (.mismatch (.namespaceKind node.kind)))

/-- The last namespace among some entries, and whether another property of a model is among them. -/
def recognizeEntries (doc : Document) : Option (List Char) → Bool → List NodeId → Run (Option (List Char) × Bool)
  | space, shaped, [] => given (.ok (space, shaped))
  | space, shaped, entry :: rest => do
    match ← found (entryProperty doc entry) with
    | none => recognizeEntries doc space shaped rest
    | some .nameSpace => do
      let text ← namespaceText doc entry
      recognizeEntries doc (some text) shaped rest
    | some property => recognizeEntries doc space (shaped || property.makesModel) rest

/-- The model that an object literal is. -/
def recognize (doc : Document) (filter : Option (List Char)) (object : NodeId) : Run (Option Model) := do
  let (space, shaped) ← recognizeEntries doc none false (← found (entries doc object))
  match space with
  | none => return none
  | some space =>
    if space.isEmpty || !shaped || filter.any (· != space) then return none
    else return some ⟨object, space⟩

/-- The object literals of the current tree. -/
def objects (doc : Document) : Option (List NodeId) := do
  keep (fun id => do return (← role doc id) = .object) (← descendants doc doc.root)

/-- The models among some object literals. -/
def recognizeAll (doc : Document) (filter : Option (List Char)) : List NodeId → Run (List Model)
  | [] => given (.ok [])
  | object :: rest => do
    let model ← recognize doc filter object
    let models ← recognizeAll doc filter rest
    return model.toList ++ models

/-- The models of a document. -/
def models (doc : Document) (filter : Option (List Char)) : Run (List Model) := do
  recognizeAll doc filter (← found (objects doc))

section Models
variable (legible : Legible doc)
include legible

theorem namespaceText_given (lt : id < doc.nodes.size) : namespaceText doc id = given (doc.namespaceText id) := by
  have body := entryBody_lt legible lt
  rw [namespaceText, entryBody_some legible lt, found_some, pure_bind, node_some body, found_some, pure_bind,
    Document.namespaceText]
  by_cases string : doc.role (doc.entryBody id) = .stringLiteral
  · rw [if_pos string, literal_some legible string]
    exact (if_pos string).trans rfl
  · rw [if_neg string]
    exact if_neg string

theorem recognizeEntries_given {ids : List NodeId} {space : Option (List Char)} {shaped : Bool}
    (known : ∀ e ∈ ids, e < doc.nodes.size) :
    recognizeEntries doc space shaped ids = given (doc.recognizeEntries space shaped ids) := by
  induction ids generalizing space shaped with
  | nil => rfl
  | cons entry rest ih =>
    obtain ⟨lt, later⟩ := List.forall_mem_cons.mp known
    rw [recognizeEntries, entryProperty_some legible lt, found_some, pure_bind, Document.recognizeEntries]
    cases doc.entryProperty? entry with
    | none => exact ih later
    | some property =>
      cases property with
      | nameSpace =>
        simp only [namespaceText_given legible lt]
        exact given_bind fun _ _ => ih later
      | state => exact ih later
      | container c => exact ih later

theorem recognize_given (lt : object < doc.nodes.size) (filter : Option (List Char)) :
    recognize doc filter object = given (doc.recognize filter object) := by
  rw [recognize, entries_some legible.sound.forest lt, found_some, pure_bind,
    recognizeEntries_given legible fun e member => mem_entries_lt legible member, Document.recognize]
  refine given_bind fun seen _ => ?_
  obtain ⟨space, shaped⟩ := seen
  cases space with
  | none => rfl
  | some space =>
    simp only []
    split <;> rfl

theorem descendants_lt (lt : id < doc.nodes.size) : ∀ x ∈ doc.descendants id, x < doc.nodes.size := fun _ member =>
  legible.sound.forest.below_lt lt (Document.below_of_mem_descend member)

theorem objects_some : objects doc = some doc.objects := by
  rw [objects, descendants_some legible.sound.forest legible.root]
  refine keep_some fun x member => ?_
  rw [role_some (descendants_lt legible legible.root x member)]
  rfl

theorem recognizeAll_given {ids : List NodeId} {filter : Option (List Char)} (known : ∀ e ∈ ids, e < doc.nodes.size) :
    recognizeAll doc filter ids = given (doc.recognizeAll filter ids) := by
  induction ids with
  | nil => rfl
  | cons object rest ih =>
    obtain ⟨lt, later⟩ := List.forall_mem_cons.mp known
    rw [recognizeAll, recognize_given legible lt, ih later, Document.recognizeAll]
    exact given_bind fun _ _ => given_bind fun _ _ => rfl

theorem models_given (filter : Option (List Char)) : models doc filter = given (doc.models filter) := by
  rw [models, objects_some legible, found_some, pure_bind]
  exact recognizeAll_given legible fun x member =>
    descendants_lt legible legible.root x (List.mem_of_mem_filter member)

end Models

end StoreModels.Checked
