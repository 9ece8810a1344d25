import StoreModels.Settings.Basic
import StoreModels.Yaml.Format

/-!
The text form of settings: a document with a version and three sections, each of which may be left out, as may every
setting in it. Other keys, and keys that occur twice, are refused.
-/
namespace StoreModels.Settings
open Yaml (Format)

variable [Format]

/-- The members of a mapping if they have known names, each at most once. -/
def fields? (known : List String) (node : Format.Node) : Option (List (List Char × Format.Node)) := do
  let members ← Format.members? node
  if members.all (fun (name, _) => known.contains (String.ofList name)) ∧ (members.map (·.1)).Nodup then some members
  else none

/-- The value of a member, or a default where there is none. -/
def field? (members : List (List Char × Format.Node)) (name : String) (fallback : α) (read : Format.Node → Option α) :
    Option α :=
  match members.lookup name.toList with
  | some node => read node
  | none => some fallback

/-- A node that may be null. -/
def orNull (read : Format.Node → Option α) (node : Format.Node) : Option (Option α) :=
  (Format.isNull? node).bind fun isNull => if isNull then some none else (read node).map some

/-- The settings with those of the section on printing. -/
def readPrinter (s : Settings) (node : Format.Node) : Option Settings := do
  let members ← fields? ["indent_width", "use_tabs"] node
  let indentWidth ← field? members "indent_width" s.indentWidth (Format.number? (Nat.pow 2 64))
  let useTabs ← field? members "use_tabs" s.useTabs Format.bool?
  some { s with indentWidth, useTabs }

/-- The settings with those of the section on analysis. -/
def readAnalysis (s : Settings) (node : Format.Node) : Option Settings := do
  let members ← fields? ["dispatch_callees"] node
  let callees ← field? members "dispatch_callees" s.callees fun node => do (← Format.items? node).mapM Format.text?
  some { s with callees }

/-- The settings with those of the section on files. -/
def readFacade (s : Settings) (node : Format.Node) : Option Settings := do
  let members ← fields? ["allow_overwrite"] node
  let allowOverwrite ← field? members "allow_overwrite" s.allowOverwrite Format.bool?
  some { s with allowOverwrite }

/-- The settings with those of a section that may be missing or null. -/
def readSection (members : List (List Char × Format.Node)) (name : String) (read : Settings → Format.Node → Option Settings)
    (s : Settings) : Option Settings := do
  return (← field? members name none (orNull (read s))).getD s

/-- The version and the settings of a document. -/
def ofNode? (node : Format.Node) : Option (Option Nat × Settings) := do
  let members ← fields? ["version", "printer", "analysis", "facade"] node
  let version ← field? members "version" none (orNull (Format.number? (Nat.pow 2 32)))
  let s ← readSection members "printer" readPrinter {}
  let s ← readSection members "analysis" readAnalysis s
  let s ← readSection members "facade" readFacade s
  some (version, s)

/-- The settings of a text, checked. The version has to be there and has to be the first one. -/
def ofText (text : List Char) : Except SettingsError Settings :=
  match (Format.read? text).bind ofNode? with
  | none => .error .malformed
  | some (none, _) => .error .missingVersion
  | some (some version, s) => if version = 1 then s.check else .error (.unsupportedVersion version)

/-- What the text of settings is written from. -/
def data (s : Settings) : List (List Char × Yaml.Data) :=
  [("version".toList, .number 1),
   ("printer".toList, .mapping [("indent_width".toList, .number s.indentWidth), ("use_tabs".toList, .bool s.useTabs)]),
   ("analysis".toList, .mapping [("dispatch_callees".toList, .texts s.callees)]),
   ("facade".toList, .mapping [("allow_overwrite".toList, .bool s.allowOverwrite)])]

/-- The text of settings. -/
def text (s : Settings) : List Char := Format.write s.data

end StoreModels.Settings
