import StoreModels.Syntax.Grammar.Rule

/-!
Markup elements inside expressions, and template tags.
-/
namespace StoreModels.Syntax.Grammar
open Rule

/-- Elements with their names, attributes and children. -/
def markup : List Definition := [
  node "glimmer_template" <|
    choice [
      seq [field "open_tag" (word "glimmer_opening_tag" "<template>"), field "content" (many Lexeme.tagContent),
        field "close_tag" (word "glimmer_closing_tag" "</template>")]],
  inlined "markup element" (choice [part "jsx_element", part "jsx_self_closing_element"]),
  node "jsx_element" <|
    seq [field "open_tag" (part "jsx_opening_element"), many (part "markup child"),
      field "close_tag" (part "jsx_closing_element")],
  node "jsx_expression" <|
    seq ["\x7b", opt (choice [part "expression", part "sequence_expression", part "spread_element"]), "\x7d"],
  inlined "markup child" <|
    choice [Lexeme.markupText, Lexeme.characterReference, part "markup element", part "jsx_expression"],
  node "jsx_opening_element" (weighted (-1) (seq [part "markup opening", ">"])),
  inlined "markup identifier" (choice [renamed "identifier" Lexeme.markupName, Lexeme.identifier]),
  node "nested_identifier" <|
    ranked "member" (seq [
      field "object" (choice [Lexeme.identifier, renamed "member_expression" (part "nested_identifier")]), ".",
      field "property" (renamed "property_identifier" Lexeme.identifier)]),
  node "jsx_namespace_name" (seq [part "markup identifier", ":", part "markup identifier"]),
  inlined "markup element name" <|
    choice [part "markup identifier", renamed "member_expression" (part "nested_identifier"),
      part "jsx_namespace_name"],
  node "jsx_closing_element" (seq ["</", opt (field "name" (part "markup element name")), ">"]),
  node "jsx_self_closing_element" (weighted (-1) (seq [part "markup opening", "/>"])),
  inlined "markup attribute" (choice [part "jsx_attribute", part "jsx_expression"]),
  inlined "markup attribute name" <|
    choice [renamed "property_identifier" (part "markup identifier"), part "jsx_namespace_name"],
  node "jsx_attribute" (seq [part "markup attribute name", opt (seq ["=", part "markup attribute value"])]),
  group "markup string" <|
    choice [
      seq ["\"", many (choice [renamed "string_fragment" Lexeme.doubleQuotedMarkup, Lexeme.characterReference]),
        "\""],
      seq ["'", many (choice [renamed "string_fragment" Lexeme.singleQuotedMarkup, Lexeme.characterReference]),
        "'"]],
  inlined "markup attribute value" <|
    choice [renamed "string" (part "markup string"), part "jsx_expression", part "markup element"],
  inlined "markup opening" <|
    seq ["<",
      opt (seq [
        choice [field "name" (choice [part "markup identifier", part "jsx_namespace_name"]),
          seq [
            field "name" (choice [Lexeme.identifier, renamed "member_expression" (part "nested_identifier")]),
            field "type_arguments" (opt (part "type_arguments"))]],
        many (field "attribute" (part "markup attribute"))])]]

end StoreModels.Syntax.Grammar
