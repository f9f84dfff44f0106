import GraphQLCompiler.Schema.Construction

/-!
# Valid schemas

A schema is valid if it has a root type for queries, if every name that it mentions stands for a
type of the kind that belongs there, if types have the fields of the interfaces that they
implement, and if no name of its own is one of those that the introspection system keeps.

A schema that has been validated no longer has the built-in scalars that nothing in it uses.

## Main definitions

* `Schema.isValid`: whether a schema is valid.
* `Schema.validated?`: a valid schema without unused scalars.
-/

namespace GraphQLCompiler

namespace Schema

/-! ### Names that stand for types -/

/-- Whether a name stands for a type of a kind with some property. -/
def refersTo (schema : Schema) (property : TypeKind → Bool) (name : Name) : Bool :=
  (schema.typeKind? name).any property

/-- Whether input values have unreserved names and types that input values may have. -/
def validInputs (schema : Schema) (values : List InputValueDefinition) : Bool :=
  values.all fun value =>
    !isReservedName value.name && schema.refersTo TypeKind.isInput value.type.bare

/-- Whether fields have unreserved names, types that fields may have and valid arguments. -/
def validFields (schema : Schema) (fields : List FieldDefinition) : Bool :=
  fields.all fun field =>
    !isReservedName field.name && schema.refersTo TypeKind.isOutput field.type.bare &&
      schema.validInputs field.arguments

/-- Whether fields include one of every name among the fields of an interface. -/
def implements (schema : Schema) (fields : List FieldDefinition) (interfaceName : Name) : Bool :=
  match schema.find? interfaceName with
  | some (.interface _ expected) =>
    expected.all fun field => fields.any fun own => own.name = field.name
  | _ => false

/-! ### Valid schemas -/

/-- Whether a type refers to types as it may. -/
def validType (schema : Schema) : TypeDefinition → Bool
  | .scalar => true
  | .object interfaces fields | .interface interfaces fields =>
    !fields.isEmpty && schema.validFields fields && interfaces.all (schema.implements fields)
  | .union members => !members.isEmpty && members.all (schema.refersTo (· = .object))
  | .enum values => !values.isEmpty && !values.any isReservedName
  | .inputObject fields => !fields.isEmpty && schema.validInputs fields

/-- Whether the root types are object types, with one for queries. -/
def validRoots (schema : Schema) : Bool :=
  schema.roots.query.isSome && OperationType.all.all fun operationType =>
    (schema.rootType? operationType).all schema.isObject

/-- Whether a directive has an unreserved name and valid arguments. -/
def validDirective (schema : Schema) (directive : Name × List InputValueDefinition) : Bool :=
  !isReservedName directive.1 && schema.validInputs directive.2

/-- Whether a schema is valid. -/
def isValid (schema : Schema) : Bool :=
  schema.validRoots &&
  (schema.types.all fun (name, definition) =>
    (builtInTypes.contains name || !isReservedName name) && schema.validType definition) &&
  schema.directives.all schema.validDirective

/-! ### Unused scalars -/

/-- The bare types of input values. -/
def inputTypes (values : List InputValueDefinition) : List Name := values.map (·.type.bare)

/-- The types of the fields of a type and of their arguments. -/
def mentionedTypes (definition : TypeDefinition) : List Name :=
  definition.fields.flatMap (fun field => field.type.bare :: inputTypes field.arguments) ++
    inputTypes definition.inputFields

/-- The types of all fields, arguments and input fields of a schema. -/
def usedTypes (schema : Schema) : List Name :=
  schema.types.values.flatMap mentionedTypes ++ schema.directives.values.flatMap inputTypes

/-- The schema without the built-in scalars that nothing in it uses. -/
def dropUnusedScalars (schema : Schema) : Schema :=
  let used := schema.usedTypes
  { schema with
    types := schema.types.filter fun (name, _) => !isBuiltInScalar name || used.contains name }

/-- A valid schema, without unused scalars. -/
def validated? (schema : Schema) : Option Schema :=
  if schema.isValid then some schema.dropUnusedScalars else none

/-- The valid schema that a text describes. -/
def parseValid? (text : String) : Option Schema := do (← parse? text).validated?

end Schema

end GraphQLCompiler
