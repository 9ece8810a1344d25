import StoreModels.Literal.Quoted

/-!
Settings: how new text is indented in files that do not show it, whose calls count as dispatches, and whether a file may
be overwritten by a new one.
-/
namespace StoreModels

/-- The settings of the program. -/
structure Settings where
  indentWidth : Nat := 2
  useTabs : Bool := false
  callees : List (List Char) := ["dispatch".toList]
  allowOverwrite : Bool := false
  deriving DecidableEq, Repr

/-- What is wrong with settings or where they come from. -/
inductive SettingsError
  | indentRange (width : Nat)
  | missingVersion
  | unsupportedVersion (version : Nat)
  | invalidVariable (name : String) (value : List Char) (hint : String)
  | noCallee
  | badCallee (name : List Char)
  | malformed
  | unreadable
  deriving DecidableEq, Repr

namespace SettingsError

/-- The message of an error. Of malformed and unreadable files only the fact is told. -/
def message : SettingsError → String
  | indentRange width =>
    "Invalid range for field 'printer.indent_width': " ++ toString width ++
      " not in 1..=8. Set use_tabs: true for tab indentation"
  | missingVersion =>
    "Missing 'version' field in configuration file. Add 'version: 1' to the top of your YAML file."
  | unsupportedVersion version =>
    "Unsupported configuration version " ++ toString version ++ ". Supported versions: 1"
  | invalidVariable name value hint =>
    "Invalid value '" ++ String.ofList value ++ "' for environment variable " ++ name ++ ". " ++ hint
  | noCallee => "Validation error: analysis.dispatch_callees must name at least one callee"
  | badCallee name =>
    "Validation error: analysis.dispatch_callees: '" ++ String.ofList name ++ "' is not an identifier"
  | malformed => "YAML parsing error"
  | unreadable => "IO error"

end SettingsError

namespace Settings

/-- The indentation unit for files that show none. -/
def fallbackIndent (s : Settings) : List Char := if s.useTabs then ['\t'] else List.replicate s.indentWidth ' '

/-- The settings if they make sense: an indentation of one to eight spaces unless tabs are used, and one or more bare
    names of callees. -/
def check (s : Settings) : Except SettingsError Settings :=
  if !s.useTabs && !(1 ≤ s.indentWidth && s.indentWidth ≤ 8) then .error (.indentRange s.indentWidth)
  else if s.callees.isEmpty then .error .noCallee
  else match s.callees.find? fun name => !Literal.isBareName name with
    | some name => .error (.badCallee name)
    | none => .ok s

end Settings

end StoreModels
