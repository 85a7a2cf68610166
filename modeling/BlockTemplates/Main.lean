/-
The program: the command line with the files and the environment of the system it runs on.
-/
import BlockTemplates.CommandLine

open BlockTemplates.CommandLine

/-- why a file cannot be read, as the system says it -/
def readFailure : IO.Error → String
  | .noFileOrDirectory .. => "No such file or directory (os error 2)"
  | e => toString e

/-- the contents of the files among the arguments -/
def readFiles (args : List String) : IO (List (String × Except String ByteArray)) :=
  args.mapM fun (file : String) => do
    try return (file, .ok (← IO.FS.readBinFile file))
    catch e => return (file, .error (readFailure e))

def main (args : List String) : IO UInt32 := do
  let files ← match request args with
    | .run a => readFiles a.files
    | _ => pure []
  let system : System := {
    contents := fun file => (files.lookup file).getD (.error "No such file or directory (os error 2)")
    traceVariable := (← IO.getEnv BlockTemplates.Setting.traceVariable).map String.toUTF8 }
  let outcome := run system args
  IO.eprint outcome.errors
  IO.print outcome.output
  return outcome.exitCode.toUInt32
