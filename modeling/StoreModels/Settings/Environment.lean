import StoreModels.Literal.Number
import StoreModels.Settings.Basic
import StoreModels.Text.Lines

/-!
Settings from environment variables, which take precedence over those of a file.
-/
namespace StoreModels.Settings

/-- What an environment says: the values of the variables that are set. -/
abbrev Environment := String → Option (List Char)

/-- The names of the variables. -/
def calleesVariable : String := "MODELSYNC_DISPATCH_CALLEES"

@[inherit_doc calleesVariable]
def overwriteVariable : String := "MODELSYNC_ALLOW_OVERWRITE"

@[inherit_doc calleesVariable]
def indentVariable : String := "MODELSYNC_INDENT"

/-- The names between the commas of a list, without the blanks around them; empty ones do not count. -/
def namesOf (text : List Char) : List (List Char) :=
  ((text.splitOn ',').map Text.trim).filter fun name => !name.isEmpty

/-- The truth value of a switch, in any case of letters. -/
def switch? (text : List Char) : Option Bool :=
  let word := String.ofList ((Text.trim text).map Char.toLower)
  if ["1", "true", "yes"].contains word then some true
  else if ["0", "false", "no"].contains word then some false
  else none

/-- The settings with the callees that a variable lists. -/
def overrideCallees (value : Option (List Char)) (s : Settings) : Settings :=
  match value with
  | some raw => { s with callees := namesOf raw }
  | none => s

/-- The settings with the switch of a variable. -/
def overrideOverwrite (value : Option (List Char)) (s : Settings) : Except SettingsError Settings :=
  match value with
  | none => .ok s
  | some raw => match switch? raw with
    | some allowOverwrite => .ok { s with allowOverwrite }
    | none => .error (.invalidVariable overwriteVariable raw "Use true/false")

/-- The settings with the indentation of a variable: tabs, or a number of spaces. -/
def overrideIndent (value : Option (List Char)) (s : Settings) : Except SettingsError Settings :=
  match value with
  | none => .ok s
  | some raw =>
    let text := Text.trim raw
    if text.map Char.toLower = "tab".toList then .ok { s with useTabs := true }
    else match Literal.unsigned? 10 (Nat.pow 2 64) text with
      | some indentWidth => .ok { s with useTabs := false, indentWidth }
      | none => .error (.invalidVariable indentVariable raw "Use 'tab' or a number of spaces")

/-- The settings with what an environment says, checked. -/
def override (s : Settings) (env : Environment) : Except SettingsError Settings := do
  let s := s.overrideCallees (env calleesVariable)
  let s ← s.overrideOverwrite (env overwriteVariable)
  let s ← s.overrideIndent (env indentVariable)
  s.check

end StoreModels.Settings
