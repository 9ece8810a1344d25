import StoreModels.Json.Value
import StoreModels.Model.Key
import StoreModels.Model.Match

/-!
The values of literal expressions: objects with plain keys, arrays, strings, numbers with an optional minus sign,
truth values and null. Every other expression is refused.
-/
namespace StoreModels
namespace Document

/-- The refusal of an expression. -/
def unsupported (doc : Document) (id : NodeId) : Failure := .mismatch (.unsupportedState (doc.node id).kind)

/-- The value of a number literal. -/
def numberValue (doc : Document) (id : NodeId) : Except Failure Literal.Number :=
  match Literal.Number.read? (doc.text id) with
  | some n => .ok n
  | none => .error (.mismatch (.unsupportedNumber (doc.text id)))

/-- The name that a key of an object stands for. -/
def memberName (doc : Document) (key : NodeId) : Except Failure (List Char) :=
  match doc.role key with
  | .propertyIdentifier => .ok (doc.text key)
  | .stringLiteral => .ok (Literal.unquoted (doc.text key))
  | .numberLiteral => do return (← doc.numberValue key).keyText
  | _ => .error (doc.unsupported key)

/-- The values of expressions one after the other. -/
def evaluateItems (evaluate : NodeId → Except Failure Value) : List NodeId → Except Failure (List Value)
  | [] => .ok []
  | id :: rest => do
    let value ← evaluate id
    return value :: (← evaluateItems evaluate rest)

/-- The members of an object literal after some that have been read. -/
def evaluateMembers (doc : Document) (evaluate : NodeId → Except Failure Value) :
    List (List Char × Value) → List NodeId → Except Failure (List (List Char × Value))
  | members, [] => .ok members
  | members, entry :: rest =>
    match doc.role entry, doc.childByField? entry "key", doc.childByField? entry "value" with
    | .pair, some key, some value => do
      let name ← doc.memberName key
      let value ← evaluate value
      doc.evaluateMembers evaluate (Value.insertMember name value members) rest
    | _, _, _ => .error (doc.unsupported entry)

/-- The value of a number with an operator before it. -/
def evaluateUnary (doc : Document) (id : NodeId) : Except Failure Value :=
  match (doc.childByField? id "operator").map doc.text, doc.childByField? id "argument" with
  | some ['-'], some argument =>
    if doc.role argument = .numberLiteral then do
      match (← doc.numberValue argument).negate? with
      | some n => return .number n
      | none => throw (doc.unsupported id)
    else .error (doc.unsupported id)
  | _, _ => .error (doc.unsupported id)

/-- The value of an expression, down to a depth. -/
def evaluateDown (doc : Document) : Nat → NodeId → Except Failure Value
  | 0, id => .error (doc.unsupported id)
  | depth + 1, id =>
    match doc.role id with
    | .object => do
      return .object (← doc.evaluateMembers (doc.evaluateDown depth) [] (doc.namedChildren id))
    | .array => do return .array (← evaluateItems (doc.evaluateDown depth) (doc.namedChildren id))
    | .stringLiteral => .ok (.string (Literal.unquoted (doc.text id)))
    | .numberLiteral => do return .number (← doc.numberValue id)
    | .trueLiteral => .ok (.bool true)
    | .falseLiteral => .ok (.bool false)
    | .nullLiteral => .ok .null
    | .unaryExpr => doc.evaluateUnary id
    | _ => .error (doc.unsupported id)

/-- The value of a literal expression. -/
def evaluate (doc : Document) (id : NodeId) : Except Failure Value := doc.evaluateDown doc.depth id

end Document

end StoreModels
