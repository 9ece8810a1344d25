import StoreModels.Syntax.Tree
import StoreModels.Syntax.Dialect

/-!
Readers: how the texts of files become trees. All that lies above the syntax works with any reader. A snippet is read
as a file of its own that holds one expression in parentheses.
-/
namespace StoreModels.Syntax

/-- A way to read whole files of a dialect; none for a text that does not follow the grammar. -/
class Reader where
  program? : Dialect → List Char → Option Tree

/-- Why a snippet is no expression. -/
inductive SnippetError
  | syntaxError
  | notSingle
  | commaSequence
  deriving DecidableEq, Repr

/-- The text that a snippet is read from: parentheses make braces an object literal, and the line feed ends a line
    comment. -/
def snippetText (snippet : List Char) : List Char := '(' :: snippet ++ ['\n', ')']

/-- The tree of an expression given as a snippet, within its `snippetText`. -/
def parseSnippet [Reader] (dialect : Dialect) (snippet : List Char) : Except SnippetError Tree :=
  let text := snippetText snippet
  match Reader.program? dialect text with
  | none => .error .syntaxError
  | some program =>
    match program.parts with
    | [statement] =>
      match statement.parts with
      | [whole] =>
        if statement.kind = "expression_statement" ∧ whole.kind = "parenthesized_expression" ∧
            whole.span = ⟨0, text.length⟩ then
          match whole.parts with
          | [expression] =>
            if expression.kind = "sequence_expression" then .error .commaSequence else .ok expression
          | _ => .error .notSingle
        else .error .notSingle
      | _ => .error .notSingle
    | _ => .error .notSingle

end StoreModels.Syntax
