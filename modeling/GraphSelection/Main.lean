import GraphSelection.Command

/-!
The executable: reads the files and variables that the arguments call for and prints the outcome.
-/
namespace GraphSelection.Command

/-- The content of a file, or why it could not be read. -/
def readFile (path : String) : IO (Except String String) := do
  try
    let text ← IO.FS.readFile path
    return .ok text
  catch
    | .noFileOrDirectory _ _ _ => return .error noSuchFile
    | e => return .error (toString e)

def readFiles (paths : List String) : IO Files :=
  paths.mapM fun path => do
    let found ← readFile path
    return (path, found)

def readVariables : IO (Entries String) := do
  let found ← variableNames.mapM fun name => do
    let value ← IO.getEnv name
    return value.map fun v => (name, v)
  return found.filterMap id

end GraphSelection.Command

open GraphSelection Command in
def main (args : List String) : IO UInt32 := do
  let paths := ((options? args).map Options.paths).getD []
  let files ← readFiles paths
  let env ← readVariables
  let outcome := run files env args
  IO.print outcome.stdout
  IO.eprint outcome.stderr
  return outcome.exit.toUInt32
