import GraphQLCompiler.Syntax.Document

/-!
# Errors of compilation

Compilation of a definition stops at the first mismatch between the document and the schema. An
error knows what is wrong and, if a syntax node is to blame, where.

## Main definitions

* `CompileError`: the causes.
* `CompileError.message`, `CompileError.label?`, `CompileError.help?`: the texts of a report.
-/

namespace GraphQLCompiler

/-- Why a definition does not compile. -/
inductive CompileError where
  | unknownField (typeName fieldName : Name) (location : Option Span)
  | unknownFragment (fragmentName : Name) (location : Option Span)
  | unknownType (typeName : Name) (location : Option Span)
  | notCompositeType (typeName : Name) (location : Option Span)
  | missingRootOperationType (operationType : OperationType) (location : Option Span)
  | anonymousOperation (location : Option Span)
  | fragmentCycle (fragmentName : Name) (location : Option Span)
  deriving DecidableEq, Repr

namespace CompileError

/-- The syntax node to blame. -/
def location : CompileError → Option Span
  | unknownField _ _ location | unknownFragment _ location | unknownType _ location
  | notCompositeType _ location | missingRootOperationType _ location
  | anonymousOperation location | fragmentCycle _ location => location

/-- What is wrong. -/
def message : CompileError → String
  | unknownField typeName fieldName _ =>
    s!"cannot query field `{fieldName}` on type `{typeName}`"
  | unknownFragment fragmentName _ => s!"cannot find fragment `{fragmentName}`"
  | unknownType typeName _ => s!"type `{typeName}` is not defined in the schema"
  | notCompositeType typeName _ =>
    s!"selections require a composite type, but `{typeName}` is not an object, interface, " ++
      "or union type"
  | missingRootOperationType operationType _ =>
    s!"`{operationType.keyword}` root operation type is not defined"
  | anonymousOperation _ => "anonymous operations cannot be compiled"
  | fragmentCycle fragmentName _ => s!"fragment `{fragmentName}` spreads itself"

/-- What is wrong with the syntax node to blame. -/
def nodeLabel : CompileError → String
  | unknownField typeName _ _ => s!"not a field of `{typeName}`"
  | unknownFragment _ _ => "fragment not defined in this document"
  | unknownType _ _ => "type not defined in the schema"
  | notCompositeType typeName _ => s!"`{typeName}` cannot have a selection set"
  | missingRootOperationType operationType _ =>
    s!"the schema does not support `{operationType.keyword}` operations"
  | anonymousOperation _ => "this operation has no name"
  | fragmentCycle fragmentName _ =>
    s!"`{fragmentName}` is reachable from its own selection set"

/-- The label of the syntax node in a report, if there is a node to label. -/
def label? (error : CompileError) : Option String := error.location.map fun _ => error.nodeLabel

/-- What to do about an error, where that is clear. -/
def help? : CompileError → Option String
  | anonymousOperation _ => some "give the operation a name"
  | _ => none

end CompileError

end GraphQLCompiler
