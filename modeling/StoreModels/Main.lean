import StoreModels.Command

/-!
The program: the command line on the files of the machine.
-/
namespace StoreModels

/-- What the machine says about a file that could not be used. -/
def StorageError.ofMachine : IO.Error → StorageError
  | .noFileOrDirectory .. => .notFound
  | .alreadyExists .. => .alreadyExists
  | .inappropriateType .. => .notDirectory
  | _ => .other

/-- An effect that may fail. -/
def attempt (effect : IO α) : IO (Except StorageError α) := do
  try pure (.ok (← effect)) catch e => pure (.error (.ofMachine e))

instance : Files IO where
  read path := do
    match ← attempt (IO.FS.readBinFile path.text) with
    | .error e => pure (.error e)
    | .ok bytes => match String.fromUTF8? bytes with
      | some text => pure (.ok text.toList)
      | none => pure (.error .invalidData)
  has path := do
    match ← attempt (IO.FS.Handle.mk path.text .read) with
    | .ok _ => pure true
    | .error _ => pure false
  write path text := attempt do
    let parent := String.intercalate "/" (path.names.dropLast)
    let start := if path.isAbsolute then "/" else "./"
    IO.FS.createDirAll (start ++ parent)
    let new := path.text ++ ".new"
    IO.FS.writeFile new (String.ofList text)
    IO.FS.rename new path.text
  remove path := attempt (IO.FS.removeFile path.text)

end StoreModels

open StoreModels in
/-- Runs the program. -/
def main (arguments : List String) : IO UInt32 := do
  let names := [Settings.calleesVariable, Settings.overwriteVariable, Settings.indentVariable]
  let values ← names.mapM fun name => do pure (name, ← IO.getEnv name)
  let env : Settings.Environment := fun name => ((values.lookup name).join).map String.toList
  let exit ← (Command.run (arguments.map String.toList) env : IO Command.Exit)
  (← IO.getStdout).putStr (String.ofList exit.out)
  (← IO.getStderr).putStr (String.ofList exit.err)
  return exit.code.toUInt32
