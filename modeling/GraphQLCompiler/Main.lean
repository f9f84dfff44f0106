import GraphQLCompiler.CommandLine

/-!
# The command

The command takes the paths of a schema and of a document, and prints the compiled document.
-/

namespace GraphQLCompiler

/-- Reads a file, or tells which file cannot be read. -/
def readSource (path : String) : IO String := do
  try IO.FS.readFile path
  catch error => throw (IO.userError ("failed to read " ++ path ++ ": " ++ toString error))

/-- Runs the command on its arguments and gives its exit code. -/
def runCommand (args : List String) : IO UInt32 := do
  match args with
  | schemaPath :: documentPath :: _ =>
    let schemaText ← readSource schemaPath
    let documentText ← readSource documentPath
    match compileSources schemaText documentText documentPath with
    | .ok text =>
      IO.println text
      return 0
    | .error error =>
      IO.eprintln error.message
      return 1
  | _ =>
    IO.eprintln "Error: the paths of a schema and of a document are needed"
    return 1

end GraphQLCompiler

/-- Prints the compiled document of the files with two paths. -/
def main (args : List String) : IO UInt32 := GraphQLCompiler.runCommand args
