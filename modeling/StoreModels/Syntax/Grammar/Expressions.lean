import StoreModels.Syntax.Grammar.Rule
import StoreModels.Syntax.Dialect

/-!
Expressions.
-/
namespace StoreModels.Syntax.Grammar
open Rule

/-- Any expression. An angle bracket in front of one asserts a type, or opens an element of markup. -/
def expression (d : Dialect) : Definition :=
  let bracketed := match d with
    | .typed => part "type_assertion"
    | .markup => part "markup element"
  group "expression" <|
    choice [part "as_expression", part "satisfies_expression", part "instantiation_expression", part "internal_module",
      bracketed, part "primary_expression", part "glimmer_template", part "assignment_expression",
      part "augmented_assignment_expression", part "await_expression", part "unary_expression",
      part "binary_expression", part "ternary_expression", part "update_expression", part "new_expression",
      part "yield_expression"]

/-- Strings, templates, regular expressions, objects and arrays, and the names in them. -/
def literals : List Definition := [
  node "string" <|
    choice [
      seq ["\"", many (choice [renamed "string_fragment" Lexeme.doubleQuotedText, Lexeme.escapeSequence]),
        "\""],
      seq ["'", many (choice [renamed "string_fragment" Lexeme.singleQuotedText, Lexeme.escapeSequence]), "'"]],
  node "template_string" <|
    seq ["`",
      many (choice [renamed "string_fragment" Lexeme.templateText, Lexeme.escapeSequence,
        part "template_substitution"]), "`"],
  node "template_substitution" (seq ["$\x7b", part "expressions", "\x7d"]),
  node "regex" <|
    seq ["/", field "pattern" Lexeme.regexPattern, Lexeme.regexEnd, opt (field "flags" Lexeme.regexFlags)],
  node "object" <|
    ranked "object" (seq ["\x7b",
      commas (opt (choice [part "pair", part "spread_element", part "method_definition",
        renamed "shorthand_property_identifier" (choice [Lexeme.identifier, part "soft keyword"])])), "\x7d"]),
  node "array" (seq ["[", commas (opt (choice [part "expression", part "spread_element"])), "]"]),
  node "pair" (seq [field "key" (part "property name"), ":", field "value" (part "expression")]),
  node "spread_element" (seq ["...", part "expression"]),
  group "property name" <|
    choice [renamed "property_identifier" (choice [Lexeme.identifier, part "soft keyword"]), Lexeme.privateName,
      part "string", Lexeme.number, part "computed_property_name"],
  node "computed_property_name" (seq ["[", part "expression", "]"]),
  inlined "plain name" (choice [word "undefined" "undefined", Lexeme.identifier]),
  inlined "soft keyword" <|
    choice ["declare", "namespace", "type", "public", "private", "protected", "override", "readonly", "module",
      "any", "number", "boolean", "string", "symbol", "export", "object", "new", "get", "set", "async",
      "static", "let"],
  node "meta_property" (seq ["new", ".", "target"])]

/-- Calls, accesses, operators and assignments. -/
def operations : List Definition := [
  node "parenthesized_expression" <|
    seq ["(",
      choice [seq [part "expression", field "type" (opt (part "type_annotation"))], part "sequence_expression"],
      ")"],
  inlined "expressions" (choice [part "expression", part "sequence_expression"]),
  group "primary_expression" <|
    choice [part "subscript_expression", part "member_expression", part "parenthesized_expression",
      part "plain name", renamed "identifier" (part "soft keyword"), word "this" "this", word "super" "super",
      Lexeme.number, part "string", part "template_string", part "regex", word "true" "true",
      word "false" "false", word "null" "null", part "object", part "array", part "function_expression",
      part "arrow_function", part "generator_function", part "class", part "meta_property",
      part "call_expression", part "non_null_expression"],
  node "yield_expression" <|
    rightward 0 (seq ["yield", choice [seq ["*", part "expression"], opt (part "expression")]]),
  node "optional_chain" "?.",
  node "call_expression" <|
    choice [
      ranked "call" (seq [field "function" (choice [part "expression", part "import"]),
        field "type_arguments" (opt (part "type_arguments")),
        field "arguments" (choice [part "arguments", part "template_string"])]),
      ranked "member" (seq [field "function" (part "primary_expression"), "?.",
        field "type_arguments" (opt (part "type_arguments")), field "arguments" (part "arguments")])],
  node "new_expression" <|
    rightward "new" (seq ["new",
      field "constructor" (choice [part "primary_expression", part "new_expression"]),
      field "type_arguments" (opt (part "type_arguments")), field "arguments" (opt (part "arguments"))]),
  node "await_expression" (ranked "unary" (seq ["await", part "expression"])),
  node "member_expression" <|
    ranked "member" (seq [field "object" (choice [part "expression", part "primary_expression", part "import"]),
      choice [".", field "optional_chain" (part "optional_chain")],
      field "property" (choice [Lexeme.privateName, renamed "property_identifier" Lexeme.identifier])]),
  node "subscript_expression" <|
    rightward "member" (seq [field "object" (choice [part "expression", part "primary_expression"]),
      opt (field "optional_chain" (part "optional_chain")), "[", field "index" (part "expressions"), "]"]),
  inlined "assignment target" <|
    choice [part "member_expression", part "subscript_expression", part "plain name",
      renamed "identifier" (part "soft keyword"), part "destructuring pattern", part "non_null_expression"],
  node "assignment_expression" <|
    rightward "assign" (seq [opt "using",
      field "left" (choice [part "parenthesized_expression", part "assignment target"]), "=",
      field "right" (part "expression")]),
  group "augmented target" <|
    choice [part "member_expression", part "subscript_expression", renamed "identifier" (part "soft keyword"),
      Lexeme.identifier, part "parenthesized_expression", part "non_null_expression"],
  node "augmented_assignment_expression" <|
    rightward "assign" (seq [field "left" (part "augmented target"),
      field "operator" (choice ["+=", "-=", "*=", "/=", "%=", "^=", "&=", "|=", ">>=", ">>>=", "<<=", "**=",
        "&&=", "||=", "??="]), field "right" (part "expression")]),
  group "initializer" (seq ["=", field "value" (part "expression")]),
  node "ternary_expression" <|
    rightward "ternary" (seq [field "condition" (part "expression"), respelled "?" Lexeme.ternaryMark,
      field "consequence" (part "expression"), ":", field "alternative" (part "expression")]),
  node "binary_expression" <|
    choice [
      leftward "and" (seq [field "left" (part "expression"), field "operator" "&&",
        field "right" (part "expression")]),
      leftward "or" (seq [field "left" (part "expression"), field "operator" "||",
        field "right" (part "expression")]),
      leftward "shift" (seq [field "left" (part "expression"), field "operator" ">>",
        field "right" (part "expression")]),
      leftward "shift" (seq [field "left" (part "expression"), field "operator" ">>>",
        field "right" (part "expression")]),
      leftward "shift" (seq [field "left" (part "expression"), field "operator" "<<",
        field "right" (part "expression")]),
      leftward "bit and" (seq [field "left" (part "expression"), field "operator" "&",
        field "right" (part "expression")]),
      leftward "bit xor" (seq [field "left" (part "expression"), field "operator" "^",
        field "right" (part "expression")]),
      leftward "bit or" (seq [field "left" (part "expression"), field "operator" "|",
        field "right" (part "expression")]),
      leftward "sum" (seq [field "left" (part "expression"), field "operator" "+",
        field "right" (part "expression")]),
      leftward "sum" (seq [field "left" (part "expression"), field "operator" "-",
        field "right" (part "expression")]),
      leftward "product" (seq [field "left" (part "expression"), field "operator" "*",
        field "right" (part "expression")]),
      leftward "product" (seq [field "left" (part "expression"), field "operator" "/",
        field "right" (part "expression")]),
      leftward "product" (seq [field "left" (part "expression"), field "operator" "%",
        field "right" (part "expression")]),
      rightward "power" (seq [field "left" (part "expression"), field "operator" "**",
        field "right" (part "expression")]),
      leftward "relation" (seq [field "left" (part "expression"), field "operator" "<",
        field "right" (part "expression")]),
      leftward "relation" (seq [field "left" (part "expression"), field "operator" "<=",
        field "right" (part "expression")]),
      leftward "equality" (seq [field "left" (part "expression"), field "operator" "==",
        field "right" (part "expression")]),
      leftward "equality" (seq [field "left" (part "expression"), field "operator" "===",
        field "right" (part "expression")]),
      leftward "equality" (seq [field "left" (part "expression"), field "operator" "!=",
        field "right" (part "expression")]),
      leftward "equality" (seq [field "left" (part "expression"), field "operator" "!==",
        field "right" (part "expression")]),
      leftward "relation" (seq [field "left" (part "expression"), field "operator" ">=",
        field "right" (part "expression")]),
      leftward "relation" (seq [field "left" (part "expression"), field "operator" ">",
        field "right" (part "expression")]),
      leftward "ternary" (seq [field "left" (part "expression"), field "operator" "??",
        field "right" (part "expression")]),
      leftward "relation" (seq [field "left" (part "expression"), field "operator" "instanceof",
        field "right" (part "expression")]),
      leftward "relation" (seq [field "left" (choice [part "expression", Lexeme.privateName]),
        field "operator" "in", field "right" (part "expression")])],
  node "unary_expression" <|
    leftward "unary" (seq [field "operator" (choice ["!", "~", "-", "+", "typeof", "void", "delete"]),
      field "argument" (part "expression")]),
  node "update_expression" <|
    leftward 0 (choice [seq [field "argument" (part "expression"), field "operator" (choice ["++", "--"])],
      seq [field "operator" (choice ["++", "--"]), field "argument" (part "expression")]]),
  node "sequence_expression" (rightward 0 (commas1 (part "expression"))),
  node "arguments" (seq ["(", commas (opt (choice [part "expression", part "spread_element"])), ")"]),
  node "non_null_expression" (leftward "assertion" (seq [part "expression", "!"])),
  node "type_assertion" (leftward "assertion" (seq [part "type_arguments", part "expression"])),
  node "as_expression" (leftward "cast" (seq [part "expression", "as", choice ["const", part "type"]])),
  node "satisfies_expression" (leftward "cast" (seq [part "expression", "satisfies", part "type"])),
  node "instantiation_expression" <|
    ranked "instantiation" (seq [part "expression", field "type_arguments" (part "type_arguments")])]

end StoreModels.Syntax.Grammar
