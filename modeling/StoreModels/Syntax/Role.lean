/-!
The roles that syntax nodes play for the library. The grammar names many kinds of node; the ones that no rule of the
library depends on share one role.
-/
namespace StoreModels.Syntax

/-- What a node is to the library. -/
inductive Role
  | program
  | exportStatement
  | object
  | pair
  | shorthandProperty
  | methodDefinition
  | spreadElement
  | computedPropertyName
  | propertyIdentifier
  | array
  | stringLiteral
  | numberLiteral
  | trueLiteral
  | falseLiteral
  | nullLiteral
  | templateString
  | identifier
  | unaryExpr
  | callExpr
  | arguments
  | memberExpr
  | parenthesizedExpr
  | expressionStatement
  | comment
  | error
  | other
  deriving DecidableEq, Repr

namespace Role

/-- The kinds with a role of their own. -/
def table : List (String × Role) :=
  [("program", program), ("export_statement", exportStatement), ("object", object), ("pair", pair),
    ("shorthand_property_identifier", shorthandProperty), ("method_definition", methodDefinition),
    ("spread_element", spreadElement), ("computed_property_name", computedPropertyName),
    ("property_identifier", propertyIdentifier), ("array", array), ("string", stringLiteral),
    ("number", numberLiteral), ("true", trueLiteral), ("false", falseLiteral), ("null", nullLiteral),
    ("template_string", templateString), ("identifier", identifier), ("unary_expression", unaryExpr),
    ("call_expression", callExpr), ("arguments", arguments), ("member_expression", memberExpr),
    ("parenthesized_expression", parenthesizedExpr), ("expression_statement", expressionStatement),
    ("comment", comment), ("ERROR", error)]

/-- The role of a kind of node. -/
def ofKind (kind : String) : Role := (table.lookup kind).getD other

/-- The name of a role. -/
def name : Role → String
  | program => "Program"
  | exportStatement => "ExportStatement"
  | object => "Object"
  | pair => "Pair"
  | shorthandProperty => "ShorthandProperty"
  | methodDefinition => "MethodDefinition"
  | spreadElement => "SpreadElement"
  | computedPropertyName => "ComputedPropertyName"
  | propertyIdentifier => "PropertyIdentifier"
  | array => "Array"
  | stringLiteral => "StringLiteral"
  | numberLiteral => "NumberLiteral"
  | trueLiteral => "TrueLiteral"
  | falseLiteral => "FalseLiteral"
  | nullLiteral => "NullLiteral"
  | templateString => "TemplateString"
  | identifier => "Identifier"
  | unaryExpr => "UnaryExpr"
  | callExpr => "CallExpr"
  | arguments => "Arguments"
  | memberExpr => "MemberExpr"
  | parenthesizedExpr => "ParenthesizedExpr"
  | expressionStatement => "ExpressionStatement"
  | comment => "Comment"
  | error => "Error"
  | other => "Other"

/-- Whether a node of this role is an entry of an object literal: braces, commas and comments are not. -/
def isEntry : Role → Bool
  | pair | shorthandProperty | methodDefinition | spreadElement => true
  | _ => false

/-- Whether a node of this role is a literal without parts. -/
def isLiteral : Role → Bool
  | stringLiteral | numberLiteral | trueLiteral | falseLiteral | nullLiteral => true
  | _ => false

end Role

end StoreModels.Syntax
