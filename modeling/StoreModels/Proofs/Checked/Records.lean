import StoreModels.Proofs.Checked.Models
import StoreModels.Proofs.Model.Reached

/-!
Reading the records of models, where every node, every text and every part of a text that is asked for may be missing: the
values of literal expressions, the actions that code dispatches, and the entries of containers.
-/
namespace StoreModels.Checked
open Syntax (Role)

variable {α : Type} {doc : Document} {id entry object : NodeId} {callees : List (List Char)}

/-! ## Values -/

/-- The refusal of an expression. -/
def refuse (doc : Document) (id : NodeId) : Run α := do
  let node ← found (node doc id)
  given (.error (.mismatch (.unsupportedState node.kind)))

/-- The value of a number literal; the digits after a prefix of two bytes are cut out. -/
def readNumber (raw : List Char) : Option (Option Literal.Number) :=
  let text := raw.filter (· ≠ '_')
  if text.getLast? = some 'n' then some none
  else match Literal.radix? text with
    | some base => do
      let digits ← bytes text 2 (Text.byteLength text)
      return (Literal.unsigned? base (Nat.pow 2 64) digits).map fun n => .integer n
    | none => some (Literal.Number.read? raw)

def numberValue (doc : Document) (id : NodeId) : Run Literal.Number := do
  let text ← found (text doc id)
  match ← found (readNumber text) with
  | some n => given (.ok n)
  | none => given (.error (.mismatch (.unsupportedNumber text)))

/-- The name that a key of an object stands for. -/
def memberName (doc : Document) (key : NodeId) : Run (List Char) := do
  match ← found (role doc key) with
  | .propertyIdentifier => found (text doc key)
  | .stringLiteral => found (literal doc key)
  | .numberLiteral => return (← numberValue doc key).keyText
  | _ => refuse doc key

/-- The values of expressions one after the other. -/
def evaluateItems (evaluate : NodeId → Run Value) : List NodeId → Run (List Value)
  | [] => given (.ok [])
  | id :: rest => do
    let value ← evaluate id
    return value :: (← evaluateItems evaluate rest)

/-- The members of an object literal after some that have been read. -/
def evaluateMembers (doc : Document) (evaluate : NodeId → Run Value) :
    List (List Char × Value) → List NodeId → Run (List (List Char × Value))
  | members, [] => given (.ok members)
  | members, entry :: rest => do
    let role ← found (role doc entry)
    let key ← found (childByField doc entry "key")
    let value ← found (childByField doc entry "value")
    match role, key, value with
    | .pair, some key, some value => do
      let name ← memberName doc key
      let value ← evaluate value
      evaluateMembers doc evaluate (Value.insertMember name value members) rest
    | _, _, _ => refuse doc entry

/-- The value of a number with an operator before it. -/
def evaluateUnary (doc : Document) (id : NodeId) : Run Value := do
  let operator ← found (childByField doc id "operator")
  let sign ← found (operator.mapM (text doc))
  let argument ← found (childByField doc id "argument")
  match sign, argument with
  | some ['-'], some argument => do
    let role ← found (role doc argument)
    if role = .numberLiteral then do
      match (← numberValue doc argument).negate? with
      | some n => return .number n
      | none => refuse doc id
    else refuse doc id
  | _, _ => refuse doc id

/-- The value of an expression, down to a depth. -/
def evaluateDown (doc : Document) : Nat → NodeId → Run Value
  | 0, _ => found none
  | depth + 1, id => do
    match ← found (role doc id) with
    | .object => do
      return .object (← evaluateMembers doc (evaluateDown doc depth) [] (← found (namedChildren doc id)))
    | .array => do return .array (← evaluateItems (evaluateDown doc depth) (← found (namedChildren doc id)))
    | .stringLiteral => return .string (← found (literal doc id))
    | .numberLiteral => do return .number (← numberValue doc id)
    | .trueLiteral => return .bool true
    | .falseLiteral => return .bool false
    | .nullLiteral => return .null
    | .unaryExpr => evaluateUnary doc id
    | _ => refuse doc id

/-- The value of a literal expression. -/
def evaluate (doc : Document) (id : NodeId) : Run Value := evaluateDown doc doc.depth id

theorem bytes_two {text : List Char} {base : Nat} (announced : Literal.radix? text = some base) :
    bytes text 2 (Text.byteLength text) = some (text.drop 2) := by
  have split : ∃ x rest, text = '0' :: x :: rest ∧ x.utf8Size = 1 := by
    unfold Literal.radix? at announced
    split at announced <;> first | exact ⟨_, _, rfl, rfl⟩ | cases announced
  obtain ⟨x, rest, rfl, narrow⟩ := split
  have middle := bytes_middle ['0', x] rest []
  have front : Text.byteLength ['0', x] = 2 := by
    rw [byteLength_cons, byteLength_cons, narrow]
    rfl
  rw [front, List.append_nil] at middle
  exact middle

theorem readNumber_some (raw : List Char) : readNumber raw = some (Literal.Number.read? raw) := by
  rw [readNumber, Literal.Number.read?]
  split
  · rfl
  · cases announced : Literal.radix? (raw.filter (· ≠ '_')) with
    | none => rfl
    | some base =>
      simp only [bytes_two announced]
      rfl

theorem refuse_given (lt : id < doc.nodes.size) : (refuse doc id : Run α) = given (.error (doc.unsupported id)) := by
  rw [refuse, node_some lt]
  rfl

variable {check : NodeId → Run Value} {total : NodeId → Except Failure Value}

theorem evaluateItems_given {ids : List NodeId} (each : ∀ x ∈ ids, check x = given (total x)) :
    evaluateItems check ids = given (Document.evaluateItems total ids) := by
  induction ids with
  | nil => rfl
  | cons x rest ih =>
    obtain ⟨here, later⟩ := List.forall_mem_cons.mp each
    rw [evaluateItems, here, ih later, Document.evaluateItems]
    exact given_bind fun _ _ => given_bind fun _ _ => rfl

section Values
variable (legible : Legible doc)
include legible

theorem numberValue_given (lt : id < doc.nodes.size) : numberValue doc id = given (doc.numberValue id) := by
  rw [numberValue, text_some legible lt, found_some, pure_bind, readNumber_some, found_some, pure_bind,
    Document.numberValue]
  cases Literal.Number.read? (doc.text id) <;> rfl

theorem memberName_given (lt : id < doc.nodes.size) : memberName doc id = given (doc.memberName id) := by
  rw [memberName, role_some lt, found_some, pure_bind, Document.memberName]
  have number : (do return (← numberValue doc id).keyText : Run (List Char)) =
      given (do return (← doc.numberValue id).keyText) := by
    rw [numberValue_given legible lt]
    exact given_bind fun _ _ => rfl
  cases is : doc.role id <;>
    first
      | exact refuse_given lt
      | exact number
      | (simp only [text_some legible lt]; rfl)
      | (simp only [literal_some legible is]; rfl)

theorem evaluateMembers_given {ids : List NodeId} {members : List (List Char × Value)}
    (known : ∀ x ∈ ids, x < doc.nodes.size)
    (each : ∀ x ∈ ids, ∀ c, doc.childByField? x "value" = some c → check c = given (total c)) :
    evaluateMembers doc check members ids = given (doc.evaluateMembers total members ids) := by
  induction ids generalizing members with
  | nil => rfl
  | cons entry rest ih =>
    obtain ⟨lt, later⟩ := List.forall_mem_cons.mp known
    obtain ⟨here, others⟩ := List.forall_mem_cons.mp each
    have forest := legible.sound.forest
    rw [evaluateMembers, role_some lt, found_some, pure_bind, childByField_some forest lt, found_some, pure_bind,
      childByField_some forest lt, found_some, pure_bind]
    by_cases is : ∃ key value, doc.role entry = .pair ∧ doc.childByField? entry "key" = some key ∧
        doc.childByField? entry "value" = some value
    · obtain ⟨key, value, pair, keyIs, valueIs⟩ := is
      simp only [Document.evaluateMembers, pair, keyIs, valueIs, memberName_given legible (childByField_lt forest keyIs),
        here value valueIs]
      exact given_bind fun _ _ => given_bind fun _ _ => ih later others
    · have other : doc.evaluateMembers total members (entry :: rest) = .error (doc.unsupported entry) := by
        rw [Document.evaluateMembers]
        split
        next key value pair keyIs valueIs => exact absurd ⟨key, value, pair, keyIs, valueIs⟩ is
        next => rfl
      rw [other]
      split
      next key value pair keyIs valueIs => exact absurd ⟨key, value, pair, keyIs, valueIs⟩ is
      next => exact refuse_given lt

theorem evaluateUnary_given (lt : id < doc.nodes.size) : evaluateUnary doc id = given (doc.evaluateUnary id) := by
  have forest := legible.sound.forest
  have sign : (doc.childByField? id "operator").mapM (text doc) = some ((doc.childByField? id "operator").map doc.text) :=
    optionMapM_some fun c member => text_some legible (childByField_lt forest member)
  rw [evaluateUnary, childByField_some forest lt, found_some, pure_bind, sign, found_some, pure_bind,
    childByField_some forest lt, found_some, pure_bind]
  by_cases is : (doc.childByField? id "operator").map doc.text = some ['-'] ∧
      ∃ argument, doc.childByField? id "argument" = some argument
  · obtain ⟨signIs, argument, argumentIs⟩ := is
    have present := childByField_lt forest argumentIs
    simp only [Document.evaluateUnary, signIs, argumentIs, role_some present, found_some, pure_bind]
    by_cases number : doc.role argument = .numberLiteral
    · simp only [if_pos number, numberValue_given legible present]
      refine given_bind fun n _ => ?_
      cases n.negate? with
      | none => exact refuse_given lt
      | some m => rfl
    · simp only [if_neg number]
      exact refuse_given lt
  · have other : doc.evaluateUnary id = .error (doc.unsupported id) := by
      rw [Document.evaluateUnary]
      split
      next argument signIs argumentIs => exact absurd ⟨signIs, argument, argumentIs⟩ is
      next => rfl
    rw [other]
    split
    next argument signIs argumentIs => exact absurd ⟨signIs, argument, argumentIs⟩ is
    next => exact refuse_given lt

theorem evaluate_given (lt : id < doc.nodes.size) : evaluate doc id = given (doc.evaluate id) := by
  have forest := legible.sound.forest
  have down : ∀ (depth : Nat) (id : NodeId), id < doc.nodes.size → doc.Fits depth id →
      evaluateDown doc depth id = given (doc.evaluateDown depth id) := by
    intro depth
    induction depth with
    | zero => exact fun _ _ fits => fits.elim
    | succ depth ih =>
      intro id lt fits
      have named : ∀ x ∈ doc.namedChildren id, x ∈ doc.children id := fun x member => List.mem_of_mem_filter member
      have items : (do return .array (← evaluateItems (evaluateDown doc depth) (doc.namedChildren id)) : Run Value) =
          given (do return .array (← Document.evaluateItems (doc.evaluateDown depth) (doc.namedChildren id))) := by
        rw [evaluateItems_given fun x member => ih x (forest.childLt (named x member)) (fits x (named x member))]
        exact given_bind fun _ _ => rfl
      have members : (do
            return .object (← evaluateMembers doc (evaluateDown doc depth) [] (doc.namedChildren id)) : Run Value) =
          given (do return .object (← doc.evaluateMembers (doc.evaluateDown depth) [] (doc.namedChildren id))) := by
        rw [evaluateMembers_given legible (fun x member => forest.childLt (named x member)) fun x member c value => ?_]
        · exact given_bind fun _ _ => rfl
        · have below : c ∈ doc.children x := List.mem_of_find?_eq_some value
          refine ih c (forest.childLt below) ?_
          exact Document.Within.next (fits x (named x member)) below
      have number : (do return .number (← numberValue doc id) : Run Value) =
          given (do return .number (← doc.numberValue id)) := by
        rw [numberValue_given legible lt]
        exact given_bind fun _ _ => rfl
      rw [evaluateDown, role_some lt, found_some, pure_bind, Document.evaluateDown]
      cases is : doc.role id <;>
        first
          | exact refuse_given lt
          | exact number
          | exact evaluateUnary_given legible lt
          | (simp only [namedChildren_some forest lt, found_some, pure_bind]; first | exact items | exact members)
          | (simp only [literal_some legible is]; rfl)
          | rfl
  exact down _ id lt (Document.Within.mono (Nat.le_succ _) (forest.fits lt))

end Values

/-! ## Dispatches -/

/-- The string literal that tells the type of the action an argument stands for. -/
def actionLiteral (doc : Document) (argument : NodeId) : Option (Option NodeId) := do
  match ← role doc argument with
  | .stringLiteral => return some argument
  | .object => do
    match (← entriesNamed doc argument "type".toList).getLast? with
    | none => return none
    | some entry => do
      match ← pairValue doc entry with
      | none => return none
      | some value => return if (← role doc value) = .stringLiteral then some value else none
  | _ => return none

/-- The type of the action that a node dispatches, if it is a call that does. -/
def actionType (doc : Document) (callees : List (List Char)) (call : NodeId) : Option (Option (List Char)) := do
  if (← role doc call) ≠ .callExpr then return none
  let some callee ← childByField doc call "function" | return none
  if (← role doc callee) ≠ .identifier then return none
  if !callees.contains (← text doc callee) then return none
  let some arguments ← childByField doc call "arguments" | return none
  let some first := (← namedChildren doc arguments).head? | return none
  (← actionLiteral doc first).mapM (literal doc)

/-- The types of the actions that the code of a node dispatches. -/
def dispatches (doc : Document) (callees : List (List Char)) (id : NodeId) : Option (List (List Char)) := do
  return (← (← descendants doc id).mapM (actionType doc callees)).reduceOption

theorem actionLiteral_string {literal : NodeId} (found : doc.actionLiteral? id = some literal) :
    doc.role literal = .stringLiteral := by
  rw [Document.actionLiteral?] at found
  split at found
  next string => exact Option.some.inj found ▸ string
  next => simpa using (Option.filter_eq_some_iff.mp found).2
  next => cases found

section Dispatches
variable (legible : Legible doc)
include legible

theorem actionLiteral_some (lt : id < doc.nodes.size) : actionLiteral doc id = some (doc.actionLiteral? id) := by
  rw [actionLiteral, role_some lt, Document.actionLiteral?]
  cases doc.role id <;> try rfl
  simp only [entriesNamed_some legible lt, Option.bind_eq_bind, Option.bind_some]
  cases last : (doc.entriesNamed id "type".toList).getLast? with
  | none => rfl
  | some entry =>
    have listed : entry ∈ doc.entriesNamed id "type".toList := List.mem_of_getLast? last
    have present := mem_entries_lt legible (List.mem_of_mem_filter listed)
    simp only [pairValue_some legible present, Option.bind_some]
    cases value : doc.pairValue? entry with
    | none => rfl
    | some v =>
      have lt : v < doc.nodes.size := by
        have body := entryBody_lt legible present
        rwa [Document.entryBody, value] at body
      simp only [role_some lt, Option.bind_some, Option.filter, decide_eq_true_eq]
      rfl

theorem actionType_some (lt : id < doc.nodes.size) : actionType doc callees id = some (doc.actionType? callees id) := by
  have forest := legible.sound.forest
  rw [actionType, role_some lt, childByField_some forest lt, childByField_some forest lt, Document.actionType?]
  by_cases call : doc.role id = .callExpr
  · simp only [call, ne_eq, not_true_eq_false, if_false, guard, if_true, Option.bind_eq_bind, Option.bind_some]
    cases calleeIs : doc.childByField? id "function" with
    | none => rfl
    | some callee =>
      have present := childByField_lt forest calleeIs
      simp only [role_some present, text_some legible present, Option.bind_some]
      by_cases bare : doc.role callee = .identifier
      · by_cases known : callees.contains (doc.text callee) = true
        · simp only [bare, known]
          cases argumentsIs : doc.childByField? id "arguments" with
          | none => rfl
          | some arguments =>
            have present := childByField_lt forest argumentsIs
            simp only [namedChildren_some forest present, Option.bind_some]
            cases firstIs : (doc.namedChildren arguments).head? with
            | none => rfl
            | some first =>
              have listed : first ∈ doc.namedChildren arguments := List.mem_of_head? firstIs
              have present := forest.childLt (List.mem_of_mem_filter listed)
              have each : (doc.actionLiteral? first).mapM (literal doc) =
                  some ((doc.actionLiteral? first).map fun literal => Literal.unquoted (doc.text literal)) :=
                optionMapM_some fun literal found =>
                  literal_some legible (actionLiteral_string found)
              simp only [actionLiteral_some legible present, Option.bind_some, each]
              cases doc.actionLiteral? first <;> rfl
        · rw [Bool.not_eq_true] at known
          simp only [bare, known]
          rfl
      · simp only [bare]
        rfl
  · simp only [call, ne_eq, not_false_eq_true, if_true, Option.bind_eq_bind, Option.bind_some, guard, if_false]
    rfl

theorem dispatches_some (lt : id < doc.nodes.size) : dispatches doc callees id = some (doc.dispatches callees id) := by
  have all : (doc.descendants id).mapM (actionType doc callees) =
      some ((doc.descendants id).map (doc.actionType? callees)) :=
    mapM_some fun x member => actionType_some legible (descendants_lt legible lt x member)
  rw [dispatches, descendants_some legible.sound.forest lt]
  simp only [Option.bind_eq_bind, Option.bind_some, all]
  show some (List.filterMap (fun type? => type?) _) = _
  rw [List.filterMap_map]
  rfl

end Dispatches

/-! ## Records -/

/-- The records of entries of a container. -/
def entryRecords (doc : Document) (callees : List (List Char)) (container : Container) :
    List NodeId → Run (List EntryRecord)
  | [] => given (.ok [])
  | entry :: rest => do
    let key := (← found (entryKey doc entry)).getD .computed
    match key.name? with
    | none => given (.error (.mismatch (.dynamicKey container.key key.describe)))
    | some name => do
      let body ← found (entryBody doc entry)
      let source ← found (printNode doc body)
      let dispatches ← found (if container.tracksDispatches then dispatches doc callees body else some [])
      return { name, source, dispatches } :: (← entryRecords doc callees container rest)

/-- The records of all entries of a container. -/
def containerRecords (doc : Document) (callees : List (List Char)) (container : Container) (value : NodeId) :
    Run (List EntryRecord) := do
  let node ← found (node doc value)
  if node.role = .object then entryRecords doc callees container (← found (entries doc value))
  else given (.error (.mismatch (.containerKind container.key node.kind)))

/-- A record with what some entries of its model say. -/
def extractEntries (doc : Document) (callees : List (List Char)) : ModelRecord → List NodeId → Run ModelRecord
  | record, [] => given (.ok record)
  | record, entry :: rest => do
    let key ← found (entryKey doc entry)
    match ← found (entryProperty doc entry) with
    | none => given (.error (.unrecognizedProperty record.space (key.getD .computed).describe))
    | some .nameSpace => extractEntries doc callees record rest
    | some .state => do
      let value ← evaluate doc (← found (entryBody doc entry))
      extractEntries doc callees { record with state := some value } rest
    | some (.container container) => do
      let entries ← containerRecords doc callees container (← found (entryBody doc entry))
      extractEntries doc callees (record.withEntries entries container) rest

/-- The record of a model. -/
def extractModel (doc : Document) (callees : List (List Char)) (model : Model) : Run ModelRecord := do
  extractEntries doc callees (.ofNamespace model.space) (← found (entries doc model.object))

/-- The records of some models. -/
def extractAll (doc : Document) (callees : List (List Char)) : List Model → Run (List ModelRecord)
  | [] => given (.ok [])
  | model :: rest => do
    let record ← extractModel doc callees model
    return record :: (← extractAll doc callees rest)

/-- The records of the models of a document. -/
def extract (doc : Document) (callees : List (List Char)) (filter : Option (List Char)) : Run (List ModelRecord) := do
  extractAll doc callees (← models doc filter)

section Records
variable (legible : Legible doc)
include legible

theorem entryRecords_given {container : Container} {ids : List NodeId} (known : ∀ e ∈ ids, e < doc.nodes.size) :
    entryRecords doc callees container ids = given (doc.entryRecords callees container ids) := by
  induction ids with
  | nil => rfl
  | cons entry rest ih =>
    obtain ⟨lt, later⟩ := List.forall_mem_cons.mp known
    have body := entryBody_lt legible lt
    have tracked : (if container.tracksDispatches then dispatches doc callees (doc.entryBody entry) else some []) =
        some (if container.tracksDispatches then doc.dispatches callees (doc.entryBody entry) else []) := by
      rw [dispatches_some legible body]
      exact ite_some (fun actions => actions) _ _
    simp only [entryRecords, Document.entryRecords, entryKey_some legible lt, found_some, pure_bind,
      entryBody_some legible lt, printNode_some legible.toIntact body, tracked, ih later]
    cases ((doc.entryKey? entry).getD .computed).name? with
    | none => rfl
    | some name => exact given_bind fun _ _ => rfl

theorem containerRecords_given {container : Container} (lt : id < doc.nodes.size) :
    containerRecords doc callees container id = given (doc.containerRecords callees container id) := by
  rw [containerRecords, node_some lt, found_some, pure_bind, Document.containerRecords]
  by_cases object : doc.role id = .object
  · rw [if_pos object, entries_some legible.sound.forest lt, found_some, pure_bind,
      entryRecords_given legible fun e member => mem_entries_lt legible member]
    exact if_pos object
  · rw [if_neg object]
    exact if_neg object

theorem extractEntries_given {record : ModelRecord} {ids : List NodeId} (known : ∀ e ∈ ids, e < doc.nodes.size) :
    extractEntries doc callees record ids = given (doc.extractEntries callees record ids) := by
  induction ids generalizing record with
  | nil => rfl
  | cons entry rest ih =>
    obtain ⟨lt, later⟩ := List.forall_mem_cons.mp known
    have body := entryBody_lt legible lt
    rw [extractEntries, entryKey_some legible lt, found_some, pure_bind, entryProperty_some legible lt, found_some,
      pure_bind, Document.extractEntries]
    cases doc.entryProperty? entry with
    | none => rfl
    | some property =>
      simp only [entryBody_some legible lt, found_some, pure_bind]
      cases property with
      | nameSpace => exact ih later
      | state =>
        simp only [evaluate_given legible body]
        exact given_bind fun _ _ => ih later
      | container c =>
        simp only [containerRecords_given legible body]
        exact given_bind fun _ _ => ih later

theorem extractAll_given {models : List Model} (known : ∀ m ∈ models, m.object < doc.nodes.size) :
    extractAll doc callees models = given (doc.extractAll callees models) := by
  induction models with
  | nil => rfl
  | cons model rest ih =>
    obtain ⟨lt, later⟩ := List.forall_mem_cons.mp known
    have record : extractModel doc callees model = given (doc.extractModel callees model) := by
      rw [extractModel, entries_some legible.sound.forest lt, found_some, pure_bind]
      exact extractEntries_given legible fun e member => mem_entries_lt legible member
    rw [extractAll, record, ih later, Document.extractAll]
    exact given_bind fun _ _ => given_bind fun _ _ => rfl

theorem extract_given (filter : Option (List Char)) :
    extract doc callees filter = given (doc.extract callees filter) := by
  rw [extract, models_given legible, Document.extract]
  refine given_bind fun models found => extractAll_given legible fun m member => ?_
  exact legible.sound.forest.below_lt legible.root (Document.models_below found m member)

end Records

end StoreModels.Checked
