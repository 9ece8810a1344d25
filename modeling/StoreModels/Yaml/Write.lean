import StoreModels.Yaml.Format
import StoreModels.Yaml.Read

/-!
Documents written as blocks: each member of a mapping on a line of its own, the members of a mapping in it two columns to
the right, and the items of a sequence below its key.
-/
namespace StoreModels.Yaml

/-- How a truth value is written. -/
def boolText (b : Bool) : List Char := if b then "true".toList else "false".toList

/-- The line of an item in a column. -/
def itemText (column : Nat) (item : List Char) : List Char :=
  List.replicate column ' ' ++ '-' :: ' ' :: scalarText item ++ ['\n']

mutual

/-- What follows the colon of a key in a column. -/
def Data.text (column : Nat) : Data → List Char
  | .bool b => ' ' :: boolText b ++ ['\n']
  | .number n => ' ' :: (toString n).toList ++ ['\n']
  | .texts [] => " []\n".toList
  | .texts items => '\n' :: items.flatMap (itemText column)
  | .mapping [] => " \x7b\x7d\n".toList
  | .mapping members => '\n' :: Data.lines (column + 2) members

/-- The lines of members in a column. -/
def Data.lines (column : Nat) : List (List Char × Data) → List Char
  | [] => []
  | (key, data) :: members => List.replicate column ' ' ++ key ++ ':' :: data.text column ++ Data.lines column members

end

/-- Documents in blocks. -/
instance : Format where
  Node := View
  read? text := (read? text).map View.root
  isNull? := View.isNull?
  bool? := View.bool?
  number? := View.number?
  text? := View.text?
  items? := View.items?
  members? := View.members?
  write := Data.lines 0

end StoreModels.Yaml
