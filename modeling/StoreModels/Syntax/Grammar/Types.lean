import StoreModels.Syntax.Grammar.Rule

/-!
Types.
-/
namespace StoreModels.Syntax.Grammar
open Rule

/-- Types and their annotations. -/
def types : List Definition := [
  node "nested_type_identifier" <|
    ranked "member" (seq [field "module" (choice [Lexeme.identifier, part "nested_identifier"]), ".",
      field "name" (part "type name")]),
  node "type_annotation" (seq [":", part "type"]),
  node "asserts" (seq ["asserts", choice [part "type_predicate", Lexeme.identifier, word "this" "this"]]),
  node "asserts_annotation" (seq [":", part "asserts"]),
  group "type" <|
    choice [part "primary_type", part "function_type", part "readonly_type", part "constructor_type",
      part "infer_type", ranked (-1) (renamed "member_expression" (part "import member")),
      ranked (-1) (renamed "call_expression" (part "import call"))],
  group "tuple parameter" <|
    seq [field "name" (choice [Lexeme.identifier, part "rest_pattern"]), field "type" (part "type_annotation")],
  group "optional tuple parameter" <|
    seq [field "name" Lexeme.identifier, "?", field "type" (part "type_annotation")],
  node "optional_type" (seq [part "type", "?"]),
  node "rest_type" (seq ["...", part "type"]),
  group "tuple member" <|
    choice [renamed "required_parameter" (part "tuple parameter"),
      renamed "optional_parameter" (part "optional tuple parameter"), part "optional_type", part "rest_type",
      part "type"],
  node "constructor_type" <|
    leftward 0 (seq [opt "abstract", "new", field "type_parameters" (opt (part "type_parameters")),
      field "parameters" (part "formal_parameters"), "=>", field "type" (part "type")]),
  group "primary_type" <|
    choice [part "parenthesized_type", part "predefined_type", part "type name", part "nested_type_identifier",
      part "generic_type", part "object_type", part "array_type", part "tuple_type", part "flow_maybe_type",
      part "type_query", part "index_type_query", renamed "this_type" (word "this" "this"),
      part "existential_type", part "literal_type", part "lookup_type", part "conditional_type",
      part "template_literal_type", part "intersection_type", part "union_type", "const"],
  node "template_type" (seq ["$\x7b", choice [part "primary_type", part "infer_type"], "\x7d"]),
  node "template_literal_type" <|
    seq ["`", many (choice [renamed "string_fragment" Lexeme.templateText, part "template_type"]), "`"],
  node "infer_type" (rightward 0 (seq ["infer", part "type name", opt (seq ["extends", part "type"])])),
  node "conditional_type" <|
    rightward 0 (seq [field "left" (part "type"), "extends", field "right" (part "type"), "?",
      field "consequence" (part "type"), ":", field "alternative" (part "type")]),
  node "generic_type" <|
    ranked "call" (seq [field "name" (choice [part "type name", part "nested_type_identifier"]),
      field "type_arguments" (part "type_arguments")]),
  node "type_predicate" <|
    seq [
      field "name" (choice [Lexeme.identifier, word "this" "this",
        renamed "identifier" (part "predefined_type")]), "is", field "type" (part "type")],
  node "type_predicate_annotation" (seq [":", part "type_predicate"]),
  node "index_type_query" (seq ["keyof", part "primary_type"]),
  node "lookup_type" (seq [part "primary_type", "[", part "type", "]"]),
  node "literal_type" <|
    choice [renamed "unary_expression" (part "signed number"), Lexeme.number, part "string", word "true" "true",
      word "false" "false", word "null" "null", word "undefined" "undefined"],
  group "signed number" <|
    leftward 1 (seq [field "operator" (choice ["-", "+"]), field "argument" Lexeme.number]),
  node "existential_type" "*",
  node "flow_maybe_type" (rightward 0 (seq ["?", part "primary_type"])),
  node "parenthesized_type" (seq ["(", part "type", ")"]),
  node "predefined_type" <|
    choice ["any", "number", "boolean", "string", "symbol",
      respelled "unique symbol" (seq ["unique", "symbol"]), "void", "unknown", "never", "object"],
  node "type_arguments" (seq ["<", commas1 (part "type"), opt ",", ">"]),
  node "type_parameters" (seq ["<", commas1 (part "type_parameter"), opt ",", ">"]),
  node "type_parameter" <|
    seq [opt "const", field "name" (part "type name"), field "constraint" (opt (part "constraint")),
      field "value" (opt (part "default_type"))],
  node "default_type" (seq ["=", part "type"]),
  node "constraint" (seq [choice ["extends", ":"], part "type"]),
  node "array_type" (seq [part "primary_type", "[", "]"]),
  node "tuple_type" (seq ["[", commas (part "tuple member"), opt ",", "]"]),
  node "readonly_type" (seq ["readonly", part "type"]),
  node "union_type" (leftward 0 (seq [opt (part "type"), "|", part "type"])),
  node "intersection_type" (leftward 0 (seq [opt (part "type"), "&", part "type"])),
  node "function_type" <|
    leftward 0 (seq [field "type_parameters" (opt (part "type_parameters")),
      field "parameters" (part "formal_parameters"), "=>",
      field "return_type" (choice [part "type", part "asserts", part "type_predicate"])]),
  inlined "type name" (renamed "type_identifier" Lexeme.identifier)]

/-- Types given by a value. -/
def typeQueries : List Definition := [
  group "import member" <|
    seq [
      field "object" (choice [part "import", renamed "member_expression" (part "import member"),
        renamed "call_expression" (part "import call")]), ".",
      field "property" (choice [Lexeme.privateName, renamed "property_identifier" Lexeme.identifier])],
  group "import call" <|
    seq [field "function" (choice [part "import", renamed "member_expression" (part "import member")]),
      field "arguments" (part "arguments")],
  group "queried member" <|
    seq [
      field "object" (choice [Lexeme.identifier, word "this" "this",
        renamed "subscript_expression" (part "queried subscript"),
        renamed "member_expression" (part "queried member"), renamed "call_expression" (part "queried call")]),
      choice [".", "?."],
      field "property" (choice [Lexeme.privateName, renamed "property_identifier" Lexeme.identifier])],
  group "queried subscript" <|
    seq [
      field "object" (choice [Lexeme.identifier, word "this" "this",
        renamed "subscript_expression" (part "queried subscript"),
        renamed "member_expression" (part "queried member"), renamed "call_expression" (part "queried call")]),
      opt "?.", "[", field "index" (choice [part "predefined_type", part "string", Lexeme.number]), "]"],
  group "queried call" <|
    seq [
      field "function" (choice [part "import", Lexeme.identifier,
        renamed "member_expression" (part "queried member"),
        renamed "subscript_expression" (part "queried subscript")]), field "arguments" (part "arguments")],
  group "queried instantiation" <|
    seq [
      field "function" (choice [part "import", Lexeme.identifier,
        renamed "member_expression" (part "queried member"),
        renamed "subscript_expression" (part "queried subscript")]),
      field "type_arguments" (part "type_arguments")],
  node "type_query" <|
    rightward 0 (seq ["typeof",
      choice [renamed "subscript_expression" (part "queried subscript"),
        renamed "member_expression" (part "queried member"), renamed "call_expression" (part "queried call"),
        renamed "instantiation_expression" (part "queried instantiation"), Lexeme.identifier,
        word "this" "this"]])]

/-- Types of objects, and the declarations that name types. -/
def objectTypes : List Definition := [
  node "interface_declaration" <|
    seq ["interface", field "name" (part "type name"), field "type_parameters" (opt (part "type_parameters")),
      opt (part "extends_type_clause"), field "body" (renamed "interface_body" (part "object_type"))],
  node "extends_type_clause" <|
    seq ["extends",
      commas1 (field "type" (choice [part "type name", part "nested_type_identifier", part "generic_type"]))],
  node "type_alias_declaration" <|
    seq ["type", field "name" (part "type name"), field "type_parameters" (opt (part "type_parameters")), "=",
      field "value" (part "type"), part "semicolon"],
  node "object_type" <|
    seq [choice ["\x7b", "\x7b|"],
      opt (seq [opt (choice [",", ";"]),
        separated (choice [",", part "semicolon"]) (choice [part "export_statement", part "property_signature",
          part "call_signature", part "construct_signature", part "index_signature", part "method_signature"]),
        opt (choice [",", part "semicolon"])]), choice ["\x7d", "|\x7d"]],
  node "call_signature" (part "call signature"),
  node "property_signature" <|
    seq [opt (part "accessibility_modifier"), opt "static", opt (part "override_modifier"), opt "readonly",
      field "name" (part "property name"), opt "?", field "type" (opt (part "type_annotation"))],
  node "construct_signature" <|
    seq [opt "abstract", "new", field "type_parameters" (opt (part "type_parameters")),
      field "parameters" (part "formal_parameters"), field "type" (opt (part "type_annotation"))],
  node "index_signature" <|
    seq [opt (seq [field "sign" (opt (choice ["-", "+"])), "readonly"]), "[",
      choice [
        seq [field "name" (choice [Lexeme.identifier, renamed "identifier" (part "soft keyword")]), ":",
          field "index_type" (part "type")], part "mapped_type_clause"], "]",
      field "type" (choice [part "type_annotation", part "omitting_type_annotation",
        part "adding_type_annotation", part "opting_type_annotation"])],
  node "mapped_type_clause" <|
    seq [field "name" (part "type name"), "in", field "type" (part "type"),
      opt (seq ["as", field "alias" (part "type")])],
  node "omitting_type_annotation" (seq ["-?:", part "type"]),
  node "adding_type_annotation" (seq ["+?:", part "type"]),
  node "opting_type_annotation" (seq ["?:", part "type"])]

end StoreModels.Syntax.Grammar
