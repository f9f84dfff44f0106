import GraphQLCompiler.Syntax.Parser.Executable
import GraphQLCompiler.Syntax.Parser.TypeSystem

/-!
# Reading documents

A document has at least one definition. A description may stand in front of a type system
definition, but not in front of an extension, an operation or a fragment.

## Main definitions

* `definitions?`: the definitions of a text.
* `Document.parse?`: the document of a text in a file with a path.
-/

namespace GraphQLCompiler

namespace Parser

/-- Reads a definition. -/
def definition : Parser Definition := do
  match ← peek with
  | some (.string _) =>
    let _ ← next
    return .typeSystem (← typeSystemDefinition (← name))
  | some (.name "fragment") => return .fragment (← fragment)
  | some (.name "extend") =>
    let _ ← next
    return .typeSystem (← typeSystemExtension)
  | some (.name word) =>
    match OperationType.ofKeyword? word with
    | some operationType => return .operation (← operation operationType)
    | none =>
      let _ ← next
      return .typeSystem (← typeSystemDefinition word)
  | _ => return .operation (← shorthandOperation)

/-- Reads definitions to the end, at most a given number of them. -/
def definitionsAtMost : Nat → Parser (List Definition)
  | 0 => return []
  | n + 1 => do
    match ← peek with
    | none => return []
    | some _ =>
      let first ← definition
      return first :: (← definitionsAtMost n)

/-- Reads one definition or more to the end. -/
def definitions : Parser (List Definition) := do
  let all ← definitionsAtMost (← remaining)
  guard (!all.isEmpty)
  return all

end Parser

/-- The definitions of the text of a file, `none` if the text is invalid. -/
def definitions? (file : FileId) (text : String) : Option (List Definition) :=
  Parser.run? file text Parser.definitions

/-- The document of the text of a file, which is tracked to its path. -/
def Document.parse? (file : FileId) (path text : String) : Option Document := do
  return { sources := [(file, path)], definitions := ← definitions? file text }

end GraphQLCompiler
