import StoreModels.Service.Run
import StoreModels.Settings.Environment
import StoreModels.Settings.Text
import StoreModels.Syntax.Reading
import StoreModels.Yaml.Write

/-!
The command line: one operation with a payload, given as an argument or in a file, and an optional file of settings.
-/
namespace StoreModels.Command

/-! ## Arguments -/

/-- The options. Each takes a value. -/
inductive Opt
  | config
  | payload
  | payloadFile
  deriving DecidableEq, Repr

/-- The name of an option. -/
def Opt.name : Opt → String
  | config => "config"
  | payload => "payload"
  | payloadFile => "payload-file"

/-- Whether the value of an option is a path, which is never empty. -/
def Opt.isPath : Opt → Bool
  | payload => false
  | _ => true

/-- The option with a name. -/
def Opt.ofName? (name : List Char) : Option Opt := [config, payload, payloadFile].find? fun o => o.name.toList == name

/-- What the arguments read so far say: the values of options, and the operation. -/
structure Given where
  values : List (Opt × List Char) := []
  operation : Option (List Char) := none

/-- Why arguments do not make a command: help is asked for, or they are wrong. -/
inductive Usage
  | help
  | wrong
  deriving DecidableEq, Repr

/-- The next argument taken on its own. -/
inductive Argument
  | help
  | separator
  | value (text : List Char)
  | option (o : Opt) (value : Option (List Char))
  | unknown
  deriving DecidableEq, Repr

/-- What an argument is by its form: an option has a name after two dashes, and may have its value after an equals sign;
    one option and the request for help have a letter after one dash as well. -/
def Argument.ofText : List Char → Argument
  | ['-', '-'] => separator
  | '-' :: '-' :: long =>
    let name := long.takeWhile (· ≠ '=')
    let rest := if name.length < long.length then some (long.drop (name.length + 1)) else none
    match Opt.ofName? name with
    | some o => option o rest
    | none => if name = "help".toList ∧ rest = none then help else unknown
  | ['-', 'c'] => option .config none
  | '-' :: 'c' :: '=' :: rest => option .config (some rest)
  | '-' :: 'c' :: rest => option .config (some rest)
  | '-' :: 'h' :: _ => help
  | '-' :: _ :: _ => unknown
  | text => value text

/-- What is given with one more option. No option is given twice. -/
def Given.addOption (given : Given) (o : Opt) (value : List Char) : Except Usage Given :=
  if (given.values.lookup o).isSome || (o.isPath && value.isEmpty) then .error .wrong
  else .ok { given with values := given.values ++ [(o, value)] }

/-- What is given with the operation. There is one. -/
def Given.addOperation (given : Given) (text : List Char) : Except Usage Given :=
  if given.operation.isSome then .error .wrong else .ok { given with operation := some text }

/-- What is given after some more arguments. After two dashes alone no options follow. -/
def Given.add : Given → List (List Char) → Except Usage Given
  | given, [] => .ok given
  | given, text :: rest =>
    match Argument.ofText text with
    | .help => .error .help
    | .separator => rest.foldlM Given.addOperation given
    | .value text => (given.addOperation text).bind fun given => given.add rest
    | .option o (some value) => (given.addOption o value).bind fun given => given.add rest
    | .option o none => match rest with
      | [] => .error .wrong
      | next :: rest => match Argument.ofText next with
        | .value value => (given.addOption o value).bind fun given => given.add rest
        | _ => .error .wrong
    | .unknown => .error .wrong

/-- Where the payload is. -/
inductive Source
  | inline (text : List Char)
  | file (path : Path)
  deriving DecidableEq, Repr

/-- A command. -/
structure Invocation where
  config : Option Path
  operation : List Char
  payload : Source
  deriving DecidableEq, Repr

/-- The command that arguments make. The payload is given in one of the two ways. -/
def Invocation.ofArguments (arguments : List (List Char)) : Except Usage Invocation := do
  let given ← Given.add {} arguments
  let config := (given.values.lookup .config).map fun text => (⟨String.ofList text⟩ : Path)
  match given.operation, given.values.lookup .payload, given.values.lookup .payloadFile with
  | some operation, some text, none => .ok ⟨config, operation, .inline text⟩
  | some operation, none, some path => .ok ⟨config, operation, .file ⟨String.ofList path⟩⟩
  | _, _, _ => .error .wrong

/-! ## Running -/

variable {m : Type → Type} [Monad m] [Files m]

/-- Settings that may be wrong. -/
def checked : Except SettingsError Settings → Job m Settings
  | .ok settings => pure settings
  | .error e => throw (.settings e)

/-- The settings of a file. -/
def readSettings (path : Path) : Job m Settings := do
  match ← (Files.read path : m _) with
  | .ok text => checked (Settings.ofText text)
  | .error _ => throw (.settings .unreadable)

/-- The payload of a command. -/
def readPayload (operation : List Char) (source : Source) : Job m Payload := do
  let text ← match source with
    | .inline text => pure text
    | .file path => Job.call (Files.read path)
  match Payload.read? text with
  | some payload => pure payload
  | none => throw (.invalidPayload operation)

/-- Carries out a command: first the settings, then the payload, then the operation. -/
def Invocation.run [Syntax.Reader] (invocation : Invocation) (env : Settings.Environment) : Job m Outcome := do
  let settings ← match invocation.config with
    | some path => readSettings path
    | none => pure {}
  let settings ← checked (settings.override env)
  let payload ← readPayload invocation.operation invocation.payload
  Service.run settings invocation.operation payload

/-- How a run of the program ends. -/
structure Exit where
  code : Nat
  out : List Char := []
  err : List Char := []
  deriving DecidableEq, Repr

/-- How the program is called. -/
def usageText : String := "Usage: modelsync [OPTIONS] <OPERATION>\n"

/-- What the program says when it is asked for help. -/
def helpText : String :=
  "Query, edit and extract store models in JavaScript/TypeScript sources\n\n" ++ usageText ++
    "\nArguments:\n  <OPERATION>  Operation name, with or without the `models.` prefix\n" ++
    "\nOptions:\n" ++
    "  -c, --config <CONFIG>              YAML configuration file\n" ++
    "      --payload <PAYLOAD>            Payload as inline JSON\n" ++
    "      --payload-file <PAYLOAD_FILE>  Payload read from a JSON file\n" ++
    "  -h, --help                         Print help\n"

/-- Runs the program on arguments: the outcome is one line of text, a fault one line on the error channel. -/
def run [Syntax.Reader] (arguments : List (List Char)) (env : Settings.Environment) : m Exit := do
  match Invocation.ofArguments arguments with
  | .error .help => pure { code := 0, out := helpText.toList }
  | .error .wrong => pure { code := 2, err := ("error: invalid arguments\n\n" ++ usageText).toList }
  | .ok invocation =>
    match ← (invocation.run env).run with
    | .ok outcome => pure { code := 0, out := outcome.json ++ ['\n'] }
    | .error fault => pure { code := 1, err := ("error: " ++ fault.message ++ "\n").toList }

end StoreModels.Command
