import GraphQLCompiler.Compiled.Serialization
import GraphQLCompiler.Compiler
import GraphQLCompiler.Json.Printer
import GraphQLCompiler.Schema.Validation

/-!
# Compiling source texts

The command compiles a document against a valid schema with the default options, and writes the
compiled document as JSON over lines.

## Main definitions

* `compileSources`: the output of the command for two texts.
-/

namespace GraphQLCompiler

/-- Why the command has no output. -/
inductive CommandError where
  | invalidSchema
  | invalidDocument
  | compile (error : CompileError)

/-- The text that the command ends with. -/
def CommandError.message : CommandError → String
  | invalidSchema => "Error: the schema is not valid"
  | invalidDocument => "Error: the document is not valid"
  | compile error => "Error: " ++ error.message

/-- The compiled document of the text of a document, against the text of a schema. -/
def compileSources (schemaText documentText documentPath : String) :
    Except CommandError String :=
  match Schema.parseValid? schemaText, Document.parse? 0 documentPath documentText with
  | none, _ => .error .invalidSchema
  | some _, none => .error .invalidDocument
  | some schema, some document =>
    match compileDocument schema document {} with
    | .ok compiled => .ok compiled.toJson.pretty
    | .error error => .error (.compile error)

end GraphQLCompiler
