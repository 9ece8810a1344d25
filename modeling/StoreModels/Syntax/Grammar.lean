import StoreModels.Syntax.Grammar.Modules
import StoreModels.Syntax.Grammar.Statements
import StoreModels.Syntax.Grammar.Expressions
import StoreModels.Syntax.Grammar.Markup
import StoreModels.Syntax.Grammar.Functions
import StoreModels.Syntax.Grammar.Patterns
import StoreModels.Syntax.Grammar.Types
import StoreModels.Syntax.Grammar.Orders

/-!
The grammar of the script language as a whole.
-/
namespace StoreModels.Syntax.Grammar

/-- Every part of the language. Where two readings of a text are equally good, the part that comes first wins. -/
def definitions (d : Dialect) : List Definition :=
  modules ++ declarations ++ statements ++ expression d :: operations ++ literals ++ markup ++ functions ++ classes ++
    patterns ++ types ++ typeQueries ++ objectTypes

/-- The part that makes up a file. -/
def root : String := "program"

/-- The lexemes that may stand between any two tokens. -/
def extras : List Lexeme := [.comment, .markupComment]

end StoreModels.Syntax.Grammar
