import StoreModels.Syntax.Grammar.Rule

/-!
Which rules bind more tightly than others. Each order lists names of ranks, and parts, from the tightest to the
loosest; two rules that share no order are not compared.
-/
namespace StoreModels.Syntax.Grammar

/-- A place in an order: a rank by its name, or every rule of a part. -/
inductive Place
  | rank (name : String)
  | part (name : String)
  deriving DecidableEq, Repr

open Place

/-- The orders, the first that decides first. -/
def orders : List (List Place) := [
  [rank "member", rank "call", part "update_expression", rank "unary", rank "power", rank "product", rank "sum",
    rank "shift", rank "comparison", rank "relation", rank "equality", rank "bit and", rank "bit xor",
    rank "bit or", rank "and", rank "or", rank "ternary", part "sequence_expression", part "arrow_function"],
  [rank "assign", part "primary_expression"],
  [rank "member", rank "new", rank "call", part "expression"],
  [rank "declare", rank "literal"],
  [part "primary_expression", part "statement_block", rank "object"],
  [part "meta_property", part "import"],
  [part "import_statement", part "import"],
  [part "export_statement", part "primary_expression"],
  [part "lexical_declaration", part "primary_expression"],
  [rank "call", rank "instantiation", rank "assertion", rank "cast", part "await_expression",
    part "arrow_function"],
  [rank "extends", rank "instantiation"],
  [part "intersection_type", part "union_type", part "conditional_type", part "function_type", rank "cast",
    part "type_predicate", part "readonly_type"],
  [part "mapped_type_clause", part "primary_expression"],
  [part "accessibility_modifier", part "primary_expression"],
  [rank "unary", part "expression"],
  [part "extends_clause", part "primary_expression"],
  [rank "assertion", rank "assign"],
  [rank "declare", part "expression"],
  [part "predefined_type", part "unary_expression"],
  [part "type", part "flow_maybe_type"],
  [part "tuple_type", part "array_type", part "pattern", part "type"],
  [part "readonly_type", part "pattern"],
  [part "readonly_type", part "primary_expression"],
  [part "type_query", part "subscript_expression", part "expression"],
  [part "type_query", part "queried subscript"],
  [part "nested_type_identifier", part "generic_type", part "primary_type", part "lookup_type",
    part "index_type_query", part "type"],
  [part "as_expression", part "satisfies_expression", part "primary_type"],
  [part "queried member", part "member_expression"],
  [part "member_expression", part "import member"],
  [part "queried member", part "primary_expression"],
  [part "queried subscript", part "subscript_expression"],
  [part "queried subscript", part "primary_expression"],
  [part "queried call", part "primary_expression"],
  [part "queried instantiation", part "primary_expression"],
  [part "type_query", part "primary_expression"],
  [part "override_modifier", part "primary_expression"],
  [part "decorator call", part "decorator"],
  [part "literal_type", part "pattern"],
  [part "predefined_type", part "pattern"],
  [part "call_expression", part "queried call"],
  [part "call_expression", part "import call"],
  [part "new_expression", part "primary_expression"],
  [part "meta_property", part "primary_expression"],
  [part "construct_signature", part "property name"]]

end StoreModels.Syntax.Grammar
