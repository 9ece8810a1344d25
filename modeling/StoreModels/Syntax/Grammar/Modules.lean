import StoreModels.Syntax.Grammar.Rule

/-!
Whole files, and what they import from and export to one another.
-/
namespace StoreModels.Syntax.Grammar
open Rule

/-- Files, exports and imports. -/
def modules : List Definition := [
  node "program" (seq [opt Lexeme.interpreterLine, many (part "statement")]),
  node "export_statement" <|
    choice [
      choice [
        seq ["export",
          choice [seq ["*", part "from clause"], seq [part "namespace_export", part "from clause"],
            seq [part "export_clause", part "from clause"], part "export_clause"], part "semicolon"],
        seq [many (field "decorator" (part "decorator")), "export",
          choice [field "declaration" (part "declaration"),
            seq ["default",
              choice [field "declaration" (part "declaration"),
                seq [field "value" (part "expression"), part "semicolon"]]]]]],
      seq ["export", "type", part "export_clause", opt (part "from clause"), part "semicolon"],
      seq ["export", "import", part "import_alias"], seq ["export", "=", part "expression", part "semicolon"],
      seq ["export", "as", "namespace", Lexeme.identifier, part "semicolon"]],
  node "namespace_export" (seq ["*", "as", part "exported name"]),
  node "export_clause" (seq ["\x7b", commas (part "export_specifier"), opt ",", "\x7d"]),
  node "export_specifier" <|
    seq [opt (choice ["type", "typeof"]),
      seq [field "name" (part "exported name"), opt (seq ["as", field "alias" (part "exported name")])]],
  group "exported name" (choice [Lexeme.identifier, part "string"]),
  node "import" "import",
  node "import_statement" <|
    seq ["import", opt (choice ["type", "typeof"]),
      choice [seq [part "import_clause", part "from clause"], part "import_require_clause",
        field "source" (part "string")], opt (part "import_attribute"), part "semicolon"],
  node "import_clause" <|
    choice [part "namespace_import", part "named_imports",
      seq [part "import name", opt (seq [",", choice [part "namespace_import", part "named_imports"]])]],
  group "from clause" (seq ["from", field "source" (part "string")]),
  node "namespace_import" (seq ["*", "as", Lexeme.identifier]),
  node "named_imports" (seq ["\x7b", commas (part "import_specifier"), opt ",", "\x7d"]),
  node "import_specifier" <|
    seq [opt (choice ["type", "typeof"]),
      choice [field "name" (part "import name"),
        seq [field "name" (choice [part "exported name", renamed "identifier" "type"]), "as",
          field "alias" (part "import name")]]],
  node "import_attribute" (seq ["with", part "object"]),
  group "import name" (choice [Lexeme.identifier, renamed "identifier" "type"]),
  node "import_require_clause" <|
    seq [Lexeme.identifier, "=", "require", "(", field "source" (part "string"), ")"],
  node "import_alias" <|
    seq ["import", Lexeme.identifier, "=", choice [Lexeme.identifier, part "nested_identifier"],
      part "semicolon"]]

end StoreModels.Syntax.Grammar
