import GraphQLCompiler.Fragment.Library
import GraphQLCompiler.Resolution
import GraphQLCompiler.Syntax.Printer
import GraphQLCompiler.Typename

/-!
# Compiling documents

A compiler holds a schema and a document, and compiles definitions against them: those of the
document, or others that spread the fragments of the document. A document with a cycle of spreads
does not compile at all, whichever definition is asked for.

## Main definitions

* `Compiler`: a schema, options and the executable definitions of a document.
* `Compiler.compileOperation`, `Compiler.compileFragment`: one definition.
* `Compiler.compile`: all definitions of the document.
-/

namespace GraphQLCompiler

/-- What definitions are compiled against. -/
structure Compiler where
  schema : Schema
  options : Options
  sources : SourceMap
  operations : List OperationDefinition
  table : FragmentTable
  repetition : Repetition := .skipped

namespace Compiler

/-- The compiler for a document. -/
def ofDocument (schema : Schema) (document : Document) (options : Options) : Compiler where
  schema
  options
  sources := document.sources
  operations := document.operations
  table := FragmentTable.ofList document.fragments

/-- The fragments of the document, the last of each name. -/
def fragments (compiler : Compiler) : List FragmentDefinition := compiler.table.values

/-- The settings for collection. -/
def settings (compiler : Compiler) : Settings where
  schema := compiler.schema
  options := compiler.options
  repetition := compiler.repetition

/-! ### Printing -/

/-- The text of an operation, with type names selected if that is wanted. -/
def printOperation (compiler : Compiler) (definition : OperationDefinition) : String :=
  if compiler.options.addTypename then (definition.withTypename compiler.schema).print
  else definition.print

/-- The text of a fragment, with type names selected if that is wanted. -/
def printFragment (compiler : Compiler) (definition : FragmentDefinition) : String :=
  if compiler.options.addTypename then (definition.withTypename compiler.schema).print
  else definition.print

/-- The text of the fragment of a name. -/
def printNamedFragment (compiler : Compiler) (name : Name) : Except CompileError String :=
  match compiler.table.find? name with
  | some definition => .ok (compiler.printFragment definition)
  | none => .error (.unknownFragment name none)

/-- A text followed by those of the named fragments, with blank lines between them. -/
def printWithFragments (compiler : Compiler) (source : String) (names : List Name) :
    Except CompileError String := do
  let texts ← names.mapM compiler.printNamedFragment
  return "\n\n".intercalate (source :: texts)

/-! ### Definitions -/

/-- The linked fragments of the document. Cycles are looked for until there are known to be none. -/
def library (compiler : Compiler) : CompileM FragmentLibrary := do
  CompileM.checkOnce compiler.table.library
  return compiler.table.linked

/-- A compiled variable, whose type is used. -/
def compileVariable (compiler : Compiler) (definition : VariableDefinition) :
    CompileM Compiled.Variable := do
  let type := definition.type.bare
  match compiler.schema.typeKind? type with
  | none => throw (.unknownType type definition.location)
  | some _ =>
    CompileM.useType compiler.schema type
    return { name := definition.name, type := definition.type }

/-- The name of an operation that is to be compiled. -/
def requireName (definition : OperationDefinition) : CompileM Name :=
  match definition.name with
  | some name => pure name
  | none => throw (.anonymousOperation definition.location)

/-- The root type of an operation. -/
def requireRoot (compiler : Compiler) (definition : OperationDefinition) : CompileM Name :=
  match compiler.schema.rootType? definition.operationType with
  | some root => pure root
  | none => throw (.missingRootOperationType definition.operationType definition.location)

/-- The compiled selection set of linked selections at a type. -/
def resolveSelections (compiler : Compiler) (parent : Name) (selections : List LinkedSelection) :
    CompileM Resolved :=
  match collect compiler.settings parent selections {} with
  | .error failure => CompileM.fail failure
  | .ok collection => do
    CompileM.tell collection.events
    resolve compiler.settings parent collection

/-- A compiled operation. -/
def compileOperation (compiler : Compiler) (definition : OperationDefinition) :
    CompileM Compiled.Operation := do
  let library ← compiler.library
  let name ← requireName definition
  CompileM.tell [.compilingOperation name]
  let variableDefinitions ←
    definition.variableDefinitions.mapM compiler.compileVariable
  let rootType ← compiler.requireRoot definition
  let resolved ← compiler.resolveSelections rootType (link library.find? definition.selections)
  let source := compiler.printOperation definition
  let sourceWithFragments ←
    CompileM.ofExcept (compiler.printWithFragments source resolved.references)
  CompileM.tell [.compiledOperation name resolved.selectionSet.fields.length
    resolved.references.length]
  return {
    filePath := compiler.sources.path? definition.location
    name
    operationType := definition.operationType
    rootType
    variableDefinitions
    source
    sourceWithFragments
    fields := resolved.selectionSet.fields
    fragmentsReferenced := resolved.references }

/-- A compiled fragment. -/
def compileFragment (compiler : Compiler) (definition : FragmentDefinition) :
    CompileM Compiled.Fragment := do
  let library ← compiler.library
  CompileM.tell [.compilingFragment definition.name]
  let resolved ← resolveFragment compiler.settings (definition.link library.find?)
  return {
    filePath := compiler.sources.path? definition.location
    name := definition.name
    source := compiler.printFragment definition
    typeCondition := definition.typeCondition
    possibleTypes := compiler.schema.concreteTypes definition.typeCondition
    selectionSet := resolved.selectionSet
    fragmentsReferenced := resolved.references }

/-! ### Documents -/

/-- The compiled document: its operations, then its fragments. -/
def compile (compiler : Compiler) : CompileM Compiled.Document := do
  let operations ← compiler.operations.mapM compiler.compileOperation
  let fragments ← compiler.fragments.mapM compiler.compileFragment
  return {
    operations := NameMap.ofList (operations.map fun operation => (operation.name, operation))
    fragments := NameMap.ofList (fragments.map fun fragment => (fragment.name, fragment))
    typesUsed := (← get).typesUsed }

end Compiler

/-- The compiled document of a document, from a fresh state. -/
def compileDocument (schema : Schema) (document : Document) (options : Options) :
    Except CompileError Compiled.Document :=
  ((Compiler.ofDocument schema document options).compile.run {}).1

end GraphQLCompiler
