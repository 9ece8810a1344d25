import StoreModels.Path

/-!
The two dialects of the script language, chosen by the extension of a file's name.
-/
namespace StoreModels.Syntax

/-- Plain typed scripts, with type assertions in angle brackets; or scripts with markup elements instead. -/
inductive Dialect
  | typed
  | markup
  deriving DecidableEq, Repr

namespace Dialect

/-- The name of a dialect. -/
def name : Dialect → String
  | .typed => "typescript"
  | .markup => "tsx"

/-- The extensions that belong to a dialect. -/
def extensions : Dialect → List String
  | .typed => ["ts", "mts", "cts"]
  | .markup => ["js", "jsx", "mjs", "cjs", "tsx"]

/-- Whether an extension belongs to a dialect. -/
def supports (d : Dialect) (extension : String) : Bool := d.extensions.contains extension

/-- The dialect with a name. -/
def ofName? (name : String) : Option Dialect := [typed, markup].find? (·.name == name)

/-- The dialect of a file: typed for its own extensions, with markup for any other name. -/
def ofPath (path : Path) : Dialect :=
  match path.extension? with
  | some extension => if typed.supports extension then typed else markup
  | none => markup

end Dialect

end StoreModels.Syntax
