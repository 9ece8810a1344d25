import StoreModels.Syntax.Grammar.Rule

/-!
Patterns: what values are bound or assigned to.
-/
namespace StoreModels.Syntax.Grammar
open Rule

/-- Patterns of names, objects and arrays. -/
def patterns : List Definition := [
  group "destructuring pattern" (choice [part "object_pattern", part "array_pattern"]),
  node "object_pattern" <|
    ranked "object" (seq ["\x7b",
      commas (opt (choice [part "pair_pattern", part "rest_pattern", part "object_assignment_pattern",
        renamed "shorthand_property_identifier_pattern" (choice [Lexeme.identifier, part "soft keyword"])])),
      "\x7d"]),
  node "assignment_pattern" (seq [field "left" (part "pattern"), "=", field "right" (part "expression")]),
  node "object_assignment_pattern" <|
    seq [
      field "left" (choice [
        renamed "shorthand_property_identifier_pattern" (choice [part "soft keyword", Lexeme.identifier]),
        part "destructuring pattern"]), "=", field "right" (part "expression")],
  node "array_pattern" (seq ["[", commas (opt (choice [part "pattern", part "assignment_pattern"])), "]"]),
  group "pattern" (weighted (-1) (choice [part "assignment target", part "rest_pattern"])),
  node "rest_pattern" (rightward 0 (seq ["...", part "assignment target"])),
  node "pair_pattern" <|
    seq [field "key" (part "property name"), ":",
      field "value" (choice [part "pattern", part "assignment_pattern"])]]

end StoreModels.Syntax.Grammar
