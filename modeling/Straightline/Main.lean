import Straightline.Command.Run

/-!
# The executable

Reads the environment and the files that the arguments may name, and runs the command.
-/

set_option autoImplicit false

/-- Why a path cannot be opened. -/
def Straightline.openFailureOf : IO.Error → Straightline.OpenFailure
  | .inappropriateType _ _ _ => .notDirectory
  | .invalidArgument _ _ _ => .nameTooLong
  | _ => .missing

/-- What a path leads to. A directory can be opened but not read. -/
def Straightline.originOf (path : String) : IO Straightline.Origin := do
  try
    let content ← IO.FS.readBinFile path
    pure (.file content.toList)
  catch _ =>
    try
      let _ ← IO.FS.Handle.mk path .read
      pure .directory
    catch e => pure (.unopened (Straightline.openFailureOf e))

/-- The command on the real environment, files and streams. -/
def main (arguments : List String) : IO UInt32 := do
  let rounds ← IO.getEnv Straightline.Environment.roundsVariable
  let slots ← IO.getEnv Straightline.Environment.slotsVariable
  let env (name : String) : String :=
    if name = Straightline.Environment.roundsVariable then rounds.getD ""
    else if name = Straightline.Environment.slotsVariable then slots.getD ""
    else ""
  let paths := match Straightline.Command.parseArguments {} arguments with
    | .run flags positional => [flags.config] ++ positional
    | _ => []
  let origins ← paths.mapM fun path => do pure (path, ← Straightline.originOf path)
  let origin (path : String) : Straightline.Origin :=
    (origins.lookup path).getD (.unopened .missing)
  let result := Straightline.Command.run env origin arguments
  IO.print result.stdout
  IO.eprint result.stderr
  pure result.exit
