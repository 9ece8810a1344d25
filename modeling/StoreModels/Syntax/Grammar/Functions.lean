import StoreModels.Syntax.Grammar.Rule

/-!
Functions and classes.
-/
namespace StoreModels.Syntax.Grammar
open Rule

/-- Functions and their parameters. -/
def functions : List Definition := [
  node "function_expression" <|
    ranked "literal" (seq [opt "async", "function", field "name" (opt Lexeme.identifier), part "call signature",
      field "body" (part "statement_block")]),
  node "function_declaration" <|
    rightward "declare" (seq [opt "async", "function", field "name" Lexeme.identifier, part "call signature",
      field "body" (part "statement_block"), opt Lexeme.automaticSemicolon]),
  node "function_signature" <|
    seq [opt "async", "function", field "name" Lexeme.identifier, part "call signature",
      choice [part "semicolon", Lexeme.signatureEnd]],
  node "generator_function" <|
    ranked "literal" (seq [opt "async", "function", "*", field "name" (opt Lexeme.identifier),
      part "call signature", field "body" (part "statement_block")]),
  node "generator_function_declaration" <|
    rightward "declare" (seq [opt "async", "function", "*", field "name" Lexeme.identifier,
      part "call signature", field "body" (part "statement_block"), opt Lexeme.automaticSemicolon]),
  node "arrow_function" <|
    seq [opt "async",
      choice [field "parameter" (choice [renamed "identifier" (part "soft keyword"), Lexeme.identifier]),
        part "call signature"], "=>", field "body" (choice [part "expression", part "statement_block"])],
  group "call signature" <|
    seq [field "type_parameters" (opt (part "type_parameters")), field "parameters" (part "formal_parameters"),
      field "return_type" (opt (choice [part "type_annotation", part "asserts_annotation",
        part "type_predicate_annotation"]))],
  node "formal_parameters" (seq ["(", opt (seq [commas1 (part "formal parameter"), opt ","]), ")"]),
  group "formal parameter" (choice [part "required_parameter", part "optional_parameter"]),
  node "required_parameter" <|
    seq [part "parameter name", field "type" (opt (part "type_annotation")), opt (part "initializer")],
  node "optional_parameter" <|
    seq [part "parameter name", "?", field "type" (opt (part "type_annotation")), opt (part "initializer")],
  group "parameter name" <|
    seq [many (field "decorator" (part "decorator")), opt (part "accessibility_modifier"),
      opt (part "override_modifier"), opt "readonly",
      field "pattern" (choice [part "pattern", word "this" "this"])],
  node "accessibility_modifier" (choice ["public", "private", "protected"]),
  node "override_modifier" "override",
  node "decorator" <|
    seq ["@",
      choice [Lexeme.identifier, renamed "member_expression" (part "decorator member"),
        renamed "call_expression" (part "decorator call")]],
  group "decorator member" <|
    ranked "member" (seq [
      field "object" (choice [Lexeme.identifier, renamed "member_expression" (part "decorator member")]), ".",
      field "property" (renamed "property_identifier" Lexeme.identifier)]),
  group "decorator call" <|
    ranked "call" (seq [
      field "function" (choice [Lexeme.identifier, renamed "member_expression" (part "decorator member")]),
      opt (field "type_arguments" (part "type_arguments")), field "arguments" (part "arguments")])]

/-- Classes and their members. -/
def classes : List Definition := [
  node "class" <|
    ranked "literal" (seq [many (field "decorator" (part "decorator")), "class",
      field "name" (opt (part "type name")), field "type_parameters" (opt (part "type_parameters")),
      opt (part "class_heritage"), field "body" (part "class_body")]),
  node "class_declaration" <|
    leftward "declare" (seq [many (field "decorator" (part "decorator")), "class",
      field "name" (part "type name"), field "type_parameters" (opt (part "type_parameters")),
      opt (part "class_heritage"), field "body" (part "class_body"), opt Lexeme.automaticSemicolon]),
  node "abstract_class_declaration" <|
    ranked "declare" (seq [many (field "decorator" (part "decorator")), "abstract", "class",
      field "name" (part "type name"), field "type_parameters" (opt (part "type_parameters")),
      opt (part "class_heritage"), field "body" (part "class_body")]),
  node "class_heritage" <|
    choice [seq [part "extends_clause", opt (part "implements_clause")], part "implements_clause"],
  node "extends_clause" (seq ["extends", commas1 (part "extended class")]),
  group "extended class" <|
    ranked "extends" (seq [field "value" (part "expression"),
      field "type_arguments" (opt (part "type_arguments"))]),
  node "implements_clause" (seq ["implements", commas1 (part "type")]),
  node "class_body" <|
    seq ["\x7b",
      many (choice [
        seq [many (field "decorator" (part "decorator")), part "method_definition", opt (part "semicolon")],
        seq [part "method_signature", choice [Lexeme.signatureEnd, ","]], part "class_static_block",
        seq [
          choice [part "abstract_method_signature", part "index_signature", part "method_signature",
            part "public_field_definition"], choice [part "semicolon", ","]], ";"]), "\x7d"],
  node "class_static_block" (seq ["static", opt Lexeme.automaticSemicolon, field "body" (part "statement_block")]),
  node "method_definition" <|
    leftward 0 (seq [opt (part "accessibility_modifier"), opt "static", opt (part "override_modifier"),
      opt "readonly", opt "async", opt (choice ["get", "set", "*"]), field "name" (part "property name"),
      opt "?", part "call signature", field "body" (part "statement_block")]),
  node "method_signature" <|
    seq [opt (part "accessibility_modifier"), opt "static", opt (part "override_modifier"), opt "readonly",
      opt "async", opt (choice ["get", "set", "*"]), field "name" (part "property name"), opt "?",
      part "call signature"],
  node "abstract_method_signature" <|
    seq [opt (part "accessibility_modifier"), "abstract", opt (part "override_modifier"),
      opt (choice ["get", "set", "*"]), field "name" (part "property name"), opt "?", part "call signature"],
  node "public_field_definition" <|
    seq [many (field "decorator" (part "decorator")),
      opt (choice [seq ["declare", opt (part "accessibility_modifier")],
        seq [part "accessibility_modifier", opt "declare"]]),
      choice [seq [opt "static", opt (part "override_modifier"), opt "readonly"],
        seq [opt "abstract", opt "readonly"], seq [opt "readonly", opt "abstract"], opt "accessor"],
      field "name" (part "property name"), opt (choice ["?", "!"]), field "type" (opt (part "type_annotation")),
      opt (part "initializer")]]

end StoreModels.Syntax.Grammar
