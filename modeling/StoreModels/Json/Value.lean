import StoreModels.Literal.Number

/-!
Values, which are what literal expressions stand for and what data exchange texts hold, and how they are written: without
any blanks, and with no other characters escaped than quotes, backslashes and control characters.
-/
namespace StoreModels

/-- A value. The members of an object stand in the order of their names, and no two have the same name. -/
inductive Value
  | null
  | bool (b : Bool)
  | number (n : Literal.Number)
  | string (text : List Char)
  | array (items : List Value)
  | object (members : List (List Char × Value))

namespace Value

/-- Members with one more: it goes to its place in the order, and a name that is there already gets the new value. -/
def insertMember (name : List Char) (value : Value) : List (List Char × Value) → List (List Char × Value)
  | [] => [(name, value)]
  | (other, old) :: rest =>
    if other = name then (name, value) :: rest
    else if name < other then (name, value) :: (other, old) :: rest
    else (other, old) :: insertMember name value rest

end Value

end StoreModels

namespace StoreModels.Json

/-- How a character is written inside a string. -/
def charText (c : Char) : List Char :=
  match c with
  | '"' => ['\\', '"']
  | '\\' => ['\\', '\\']
  | '\x08' => ['\\', 'b']
  | '\x0c' => ['\\', 'f']
  | '\n' => ['\\', 'n']
  | '\r' => ['\\', 'r']
  | '\t' => ['\\', 't']
  | c =>
    if c.toNat < 0x20 then
      ['\\', 'u', '0', '0', Nat.digitChar (c.toNat / 16), Nat.digitChar (c.toNat % 16)]
    else [c]

/-- A string. -/
def stringText (text : List Char) : List Char := '"' :: text.flatMap charText ++ ['"']

/-- Texts with commas between. -/
def joined : List (List Char) → List Char
  | [] => []
  | [text] => text
  | text :: rest => text ++ ',' :: joined rest

/-- An array of values that are written already. -/
def arrayText (items : List (List Char)) : List Char := '[' :: joined items ++ [']']

/-- An object of values that are written already. -/
def objectText (members : List (List Char × List Char)) : List Char :=
  '{' :: joined (members.map fun (name, value) => stringText name ++ ':' :: value) ++ ['}']

/-- A truth value. -/
def boolText (b : Bool) : List Char := if b then "true".toList else "false".toList

end StoreModels.Json

namespace StoreModels.Value

mutual

/-- The text of a value. -/
def json : Value → List Char
  | .null => "null".toList
  | .bool b => Json.boolText b
  | .number n => n.text
  | .string text => Json.stringText text
  | .array items => Json.arrayText (itemsJson items)
  | .object members => Json.objectText (membersJson members)

/-- The texts of values. -/
def itemsJson : List Value → List (List Char)
  | [] => []
  | item :: rest => item.json :: itemsJson rest

/-- Members with the texts of their values. -/
def membersJson : List (List Char × Value) → List (List Char × List Char)
  | [] => []
  | (name, value) :: rest => (name, value.json) :: membersJson rest

end

end StoreModels.Value
