import StoreModels.Syntax.Grammar.Rule

/-!
Statements and declarations.
-/
namespace StoreModels.Syntax.Grammar
open Rule

/-- Declarations of variables, modules and enumerations. -/
def declarations : List Definition := [
  group "declaration" <|
    choice [part "function_declaration", part "generator_function_declaration", part "class_declaration",
      part "lexical_declaration", part "variable_declaration", part "function_signature",
      part "abstract_class_declaration", part "module", ranked "declare" (part "internal_module"),
      part "type_alias_declaration", part "enum_declaration", part "interface_declaration", part "import_alias",
      part "ambient_declaration"],
  node "variable_declaration" (seq ["var", commas1 (part "variable_declarator"), part "semicolon"]),
  node "lexical_declaration" <|
    seq [field "kind" (choice ["let", "const"]), commas1 (part "variable_declarator"), part "semicolon"],
  node "variable_declarator" <|
    choice [
      seq [field "name" (choice [Lexeme.identifier, part "destructuring pattern"]),
        field "type" (opt (part "type_annotation")), opt (part "initializer")],
      ranked "declare" (seq [field "name" Lexeme.identifier, "!", field "type" (part "type_annotation")])],
  node "ambient_declaration" <|
    seq ["declare",
      choice [part "declaration", seq ["global", part "statement_block"],
        seq ["module", ".", renamed "property_identifier" Lexeme.identifier, ":", part "type",
          part "semicolon"]]],
  node "internal_module" (seq ["namespace", part "module body"]),
  node "module" (seq ["module", part "module body"]),
  group "module body" <|
    rightward 0 (seq [field "name" (choice [part "string", Lexeme.identifier, part "nested_identifier"]),
      field "body" (opt (part "statement_block"))]),
  node "enum_declaration" <|
    seq [opt "const", "enum", field "name" Lexeme.identifier, field "body" (part "enum_body")],
  node "enum_body" <|
    seq ["\x7b",
      opt (seq [commas1 (choice [field "name" (part "property name"), part "enum_assignment"]), opt ","]),
      "\x7d"],
  node "enum_assignment" (seq [field "name" (part "property name"), part "initializer"])]

/-- Statements, and how they end. -/
def statements : List Definition := [
  group "statement" <|
    choice [part "export_statement", part "import_statement", part "debugger_statement",
      part "expression_statement", part "declaration", part "statement_block", part "if_statement",
      part "switch_statement", part "for_statement", part "for_in_statement", part "while_statement",
      part "do_statement", part "try_statement", part "with_statement", part "break_statement",
      part "continue_statement", part "return_statement", part "throw_statement", part "empty_statement",
      part "labeled_statement"],
  node "expression_statement" (seq [part "expressions", part "semicolon"]),
  node "statement_block" <|
    rightward 0 (seq ["\x7b", many (part "statement"), "\x7d", opt Lexeme.automaticSemicolon]),
  node "else_clause" (seq ["else", part "statement"]),
  node "if_statement" <|
    rightward 0 (seq ["if", field "condition" (part "parenthesized_expression"),
      field "consequence" (part "statement"), opt (field "alternative" (part "else_clause"))]),
  node "switch_statement" <|
    seq ["switch", field "value" (part "parenthesized_expression"), field "body" (part "switch_body")],
  node "for_statement" <|
    seq ["for", "(",
      field "initializer" (choice [part "lexical_declaration", part "variable_declaration",
        part "expression_statement", part "empty_statement"]),
      field "condition" (choice [part "expression_statement", part "empty_statement"]),
      field "increment" (opt (part "expressions")), ")", field "body" (part "statement")],
  node "for_in_statement" (seq ["for", opt "await", part "for header", field "body" (part "statement")]),
  group "for header" <|
    seq ["(",
      choice [field "left" (choice [part "assignment target", part "parenthesized_expression"]),
        seq [field "kind" "var", field "left" (choice [Lexeme.identifier, part "destructuring pattern"]),
          opt (part "initializer")],
        seq [field "kind" (choice ["let", "const"]),
          field "left" (choice [Lexeme.identifier, part "destructuring pattern"])]],
      field "operator" (choice ["in", "of"]), field "right" (part "expressions"), ")"],
  node "while_statement" <|
    seq ["while", field "condition" (part "parenthesized_expression"), field "body" (part "statement")],
  node "do_statement" <|
    rightward 0 (seq ["do", field "body" (part "statement"), "while",
      field "condition" (part "parenthesized_expression"), opt (part "semicolon")]),
  node "try_statement" <|
    seq ["try", field "body" (part "statement_block"), opt (field "handler" (part "catch_clause")),
      opt (field "finalizer" (part "finally_clause"))],
  node "with_statement" <|
    seq ["with", field "object" (part "parenthesized_expression"), field "body" (part "statement")],
  node "break_statement" <|
    seq ["break", field "label" (opt (renamed "statement_identifier" Lexeme.identifier)), part "semicolon"],
  node "continue_statement" <|
    seq ["continue", field "label" (opt (renamed "statement_identifier" Lexeme.identifier)), part "semicolon"],
  node "debugger_statement" (seq ["debugger", part "semicolon"]),
  node "return_statement" (seq ["return", opt (part "expressions"), part "semicolon"]),
  node "throw_statement" (seq ["throw", part "expressions", part "semicolon"]),
  node "empty_statement" ";",
  node "labeled_statement" <|
    weighted (-1) (seq [
      field "label" (renamed "statement_identifier" (choice [Lexeme.identifier, part "soft keyword"])), ":",
      field "body" (part "statement")]),
  node "switch_body" (seq ["\x7b", many (choice [part "switch_case", part "switch_default"]), "\x7d"]),
  node "switch_case" <|
    seq ["case", field "value" (part "expressions"), ":", field "body" (many (part "statement"))],
  node "switch_default" (seq ["default", ":", field "body" (many (part "statement"))]),
  node "catch_clause" <|
    seq ["catch",
      opt (seq ["(", field "parameter" (choice [Lexeme.identifier, part "destructuring pattern"]),
        opt (field "type" (part "type_annotation")), ")"]), field "body" (part "statement_block")],
  node "finally_clause" (seq ["finally", field "body" (part "statement_block")]),
  inlined "semicolon" (choice [Lexeme.automaticSemicolon, ";"])]

end StoreModels.Syntax.Grammar
