import GraphQLCompiler.Json.Basic
import GraphQLCompiler.Syntax.Document

/-!
# Compiled documents

A compiled document is what code generators work on: for each operation and fragment the fields
that a response has, with everything resolved against the schema.

The selection set of a composite field has the fields that every value of its type has. Where more
is selected on some of the object types of an interface or union, each of those types has an
**inline fragment**, a branch with all the fields that its values have.

## Main definitions

* `Compiled.Field`, `Compiled.SelectionSet`, `Compiled.InlineFragment`: the tree of fields.
* `Compiled.Operation`, `Compiled.Fragment`, `Compiled.Document`: compiled definitions.
* `Compiled.Document.operation?` and the like: parts by their names.
-/

namespace GraphQLCompiler

namespace Compiled

/-! ### The tree of fields -/

/-- An argument with its value in JSON. -/
structure Argument where
  name : Name
  value : Json
  deriving Inhabited

/-- A branch for one object type, over the type of fields. -/
structure Branch (φ : Type) where
  typeCondition : Name
  possibleTypes : List Name
  fields : List φ
  fragmentSpreads : List Name
  deriving Inhabited

/-- What a composite type selects, over the type of fields. -/
structure Selected (φ : Type) where
  fields : List φ
  fragmentSpreads : List Name
  inlineFragments : List (Branch φ)
  deriving Inhabited

/-- One key of a response. Fields of composite types have a selection set. -/
structure Field where
  responseName : Name
  fieldName : Name
  type : TypeRef
  arguments : List Argument
  isConditional : Bool
  description : Option String
  selectionSet : Option (Selected Field)
  deriving Inhabited

/-- What a composite type selects. -/
abbrev SelectionSet := Selected Field

/-- A branch for one object type. -/
abbrev InlineFragment := Branch Field

/-! ### Definitions -/

/-- A variable that an operation takes. -/
structure Variable where
  name : Name
  type : TypeRef
  deriving Inhabited

/-- A compiled operation. -/
structure Operation where
  filePath : Option String
  name : Name
  operationType : OperationType
  rootType : Name
  variableDefinitions : List Variable
  /-- The text of the operation. -/
  source : String
  /-- The text of the operation and of all fragments that it references. -/
  sourceWithFragments : String
  fields : List Field
  /-- All fragments that can be reached by spreads. -/
  fragmentsReferenced : List Name
  deriving Inhabited

/-- A compiled fragment. -/
structure Fragment where
  filePath : Option String
  name : Name
  source : String
  typeCondition : Name
  possibleTypes : List Name
  selectionSet : SelectionSet
  fragmentsReferenced : List Name
  deriving Inhabited

/-- A compiled document. -/
structure Document where
  operations : NameMap Operation
  fragments : NameMap Fragment
  typesUsed : List Name
  deriving Inhabited

/-! ### Parts by name -/

/-- The field with a response name. -/
def findField? (fields : List Field) (name : Name) : Option Field :=
  fields.find? (·.responseName = name)

/-- The branch for an object type. -/
def findInlineFragment? (inlineFragments : List InlineFragment) (typeCondition : Name) :
    Option InlineFragment :=
  inlineFragments.find? (·.typeCondition = typeCondition)

/-- The operation with a name. -/
def Document.operation? (document : Document) (name : Name) : Option Operation :=
  document.operations.find? name

/-- The fragment with a name. -/
def Document.fragment? (document : Document) (name : Name) : Option Fragment :=
  document.fragments.find? name

/-- The field of an operation with a response name. -/
def Operation.field? (operation : Operation) (name : Name) : Option Field :=
  findField? operation.fields name

/-- The field of a fragment with a response name. -/
def Fragment.field? (fragment : Fragment) (name : Name) : Option Field :=
  findField? fragment.selectionSet.fields name

/-- The branch of a fragment for an object type. -/
def Fragment.inlineFragment? (fragment : Fragment) (typeCondition : Name) :
    Option InlineFragment :=
  findInlineFragment? fragment.selectionSet.inlineFragments typeCondition

namespace Field

/-- The fields of a composite field, none for others. -/
def fields (field : Field) : List Field := field.selectionSet.elim [] Selected.fields

/-- The fragments spread in a composite field, none for others. -/
def fragmentSpreads (field : Field) : List Name :=
  field.selectionSet.elim [] Selected.fragmentSpreads

/-- The branches of a composite field, none for others. -/
def inlineFragments (field : Field) : List InlineFragment :=
  field.selectionSet.elim [] Selected.inlineFragments

/-- The field of a composite field with a response name. -/
def field? (field : Field) (name : Name) : Option Field := findField? field.fields name

/-- The branch of a composite field for an object type. -/
def inlineFragment? (field : Field) (typeCondition : Name) : Option InlineFragment :=
  findInlineFragment? field.inlineFragments typeCondition

end Field

/-- The field of a branch with a response name. -/
def Branch.field? (branch : InlineFragment) (name : Name) : Option Field :=
  findField? branch.fields name

end Compiled

end GraphQLCompiler
