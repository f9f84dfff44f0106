import GraphQLCompiler.Syntax.Selection
import GraphQLCompiler.Syntax.TypeRef

/-!
# Documents

A document is a list of definitions: operations and fragments, which can be executed, and the
definitions and extensions of a type system. Type system definitions keep what a schema is made
of; their directives and the descriptions of anything but fields and input values are not kept.

## Main definitions

* `OperationDefinition`, `FragmentDefinition`: executable definitions.
* `TypeDefinition`, `TypeSystemDefinition`: definitions of a type system.
* `Document`: definitions with the source map of their files.
-/

namespace GraphQLCompiler

/-! ### Executable definitions -/

/-- What an operation does. -/
inductive OperationType where
  | query
  | mutation
  | subscription
  deriving DecidableEq, Repr, Inhabited

namespace OperationType

/-- All operation types. -/
def all : List OperationType := [query, mutation, subscription]

/-- The keyword of an operation type. -/
def keyword : OperationType → String
  | query => "query"
  | mutation => "mutation"
  | subscription => "subscription"

/-- The operation type with a given keyword. -/
def ofKeyword? (word : String) : Option OperationType := all.find? (·.keyword = word)

end OperationType

/-- A variable that an operation takes. -/
structure VariableDefinition where
  name : Name
  type : TypeRef
  defaultValue : Option Value
  directives : List Directive
  location : Option Span
  deriving Inhabited

/-- An operation, with a name or anonymous. -/
structure OperationDefinition where
  operationType : OperationType
  name : Option Name
  variableDefinitions : List VariableDefinition
  directives : List Directive
  location : Option Span
  selections : WrittenSelections
  deriving Inhabited

/-- A named fragment. -/
structure FragmentDefinition where
  name : Name
  typeCondition : Name
  directives : List Directive
  location : Option Span
  selections : WrittenSelections
  deriving Inhabited

/-! ### Definitions of a type system -/

/-- An argument of a field or directive, or a field of an input object. -/
structure InputValueDefinition where
  description : Option String
  name : Name
  type : TypeRef
  defaultValue : Option Value
  deriving Inhabited

/-- A field of an object or interface type. -/
structure FieldDefinition where
  description : Option String
  name : Name
  arguments : List InputValueDefinition
  type : TypeRef
  deriving Inhabited

/-- What a named type consists of, or what an extension adds to it. -/
inductive TypeDefinition where
  | scalar
  | object (interfaces : List Name) (fields : List FieldDefinition)
  | interface (interfaces : List Name) (fields : List FieldDefinition)
  | union (members : List Name)
  | enum (values : List Name)
  | inputObject (fields : List InputValueDefinition)
  deriving Inhabited

/-- A root operation type as a schema names it. -/
structure RootDefinition where
  operationType : OperationType
  name : Name
  deriving Inhabited

/-- One definition or extension of a type system. -/
inductive TypeSystemDefinition where
  | schema (roots : List RootDefinition)
  | type (name : Name) (definition : TypeDefinition)
  | directive (name : Name) (arguments : List InputValueDefinition)
  | schemaExtension (roots : List RootDefinition)
  | typeExtension (name : Name) (extension : TypeDefinition)
  deriving Inhabited

/-! ### Documents -/

/-- One definition of a document. -/
inductive Definition where
  | operation (definition : OperationDefinition)
  | fragment (definition : FragmentDefinition)
  | typeSystem (definition : TypeSystemDefinition)
  deriving Inhabited

/-- Definitions in order, with the paths of the files that they are tracked to. -/
structure Document where
  sources : SourceMap
  definitions : List Definition
  deriving Inhabited

namespace Document

/-- The operations in order. -/
def operations (document : Document) : List OperationDefinition :=
  document.definitions.filterMap fun
    | .operation definition => some definition
    | _ => none

/-- The fragments in order, also those of one name. -/
def fragments (document : Document) : List FragmentDefinition :=
  document.definitions.filterMap fun
    | .fragment definition => some definition
    | _ => none

/-- The definitions of several documents, one after the other. -/
def concat (documents : List Document) : Document where
  sources := documents.flatMap Document.sources
  definitions := documents.flatMap Document.definitions

end Document

end GraphQLCompiler
