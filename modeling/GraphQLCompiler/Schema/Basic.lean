import GraphQLCompiler.Syntax.Document

/-!
# Schemas

A schema maps names to types, names the root types of its operations and lists its directives.
Types are in order of definition. The names that a schema mentions need not be defined in it.

## Main definitions

* `TypeKind`: the six kinds of types.
* `Schema`: types, roots and directives.
* `Schema.fieldDefinition?`: the fields of a type, with the meta-fields that types have besides.
-/

namespace GraphQLCompiler

/-! ### Kinds of types -/

/-- The kind of a type. -/
inductive TypeKind where
  | scalar
  | object
  | interface
  | union
  | enum
  | inputObject
  deriving DecidableEq, Repr, Inhabited

namespace TypeKind

/-- Kinds of types that take a selection set. -/
def isComposite : TypeKind → Bool
  | object | interface | union => true
  | scalar | enum | inputObject => false

/-- Kinds of types that stand for several object types. -/
def isAbstract : TypeKind → Bool
  | interface | union => true
  | scalar | object | enum | inputObject => false

/-- Kinds of types whose values have no parts. -/
def isLeaf : TypeKind → Bool
  | scalar | enum => true
  | object | interface | union | inputObject => false

/-- Kinds of types that fields may have. -/
def isOutput : TypeKind → Bool
  | inputObject => false
  | scalar | object | interface | union | enum => true

/-- Kinds of types that arguments may have. -/
def isInput : TypeKind → Bool
  | scalar | enum | inputObject => true
  | object | interface | union => false

end TypeKind

namespace TypeDefinition

/-- The kind of a type. -/
def kind : TypeDefinition → TypeKind
  | scalar => .scalar
  | object _ _ => .object
  | interface _ _ => .interface
  | union _ => .union
  | enum _ => .enum
  | inputObject _ => .inputObject

/-- The fields of an object or interface type. -/
def fields : TypeDefinition → List FieldDefinition
  | object _ fields | interface _ fields => fields
  | _ => []

/-- The interfaces that an object or interface type lists. -/
def interfaces : TypeDefinition → List Name
  | object interfaces _ | interface interfaces _ => interfaces
  | _ => []

/-- The fields of an input object type. -/
def inputFields : TypeDefinition → List InputValueDefinition
  | inputObject fields => fields
  | _ => []

end TypeDefinition

/-! ### Schemas -/

/-- The root types of operations. -/
structure Roots where
  query : Option Name := none
  mutation : Option Name := none
  subscription : Option Name := none
  deriving DecidableEq, Repr, Inhabited

/-- The root type of the operations of a type. -/
def Roots.get (roots : Roots) : OperationType → Option Name
  | .query => roots.query
  | .mutation => roots.mutation
  | .subscription => roots.subscription

/-- Names the root type of the operations of a type. -/
def Roots.set (roots : Roots) (name : Name) : OperationType → Roots
  | .query => { roots with query := some name }
  | .mutation => { roots with mutation := some name }
  | .subscription => { roots with subscription := some name }

/-- A type system. -/
structure Schema where
  types : NameMap TypeDefinition
  roots : Roots
  directives : NameMap (List InputValueDefinition)
  deriving Inhabited

/-- What an answer tells about a field. -/
structure FieldInfo where
  type : TypeRef
  description : Option String
  deriving DecidableEq, Repr

namespace Schema

/-- The definition of a type. -/
def find? (schema : Schema) (name : Name) : Option TypeDefinition := schema.types.find? name

/-- The kind of a type. -/
def typeKind? (schema : Schema) (name : Name) : Option TypeKind :=
  (schema.find? name).map TypeDefinition.kind

/-- Whether a name stands for a type that takes a selection set. -/
def isComposite (schema : Schema) (name : Name) : Bool :=
  (schema.typeKind? name).any TypeKind.isComposite

/-- Whether a name stands for an interface or union type. -/
def isAbstract (schema : Schema) (name : Name) : Bool :=
  (schema.typeKind? name).any TypeKind.isAbstract

/-- Whether a name stands for an object type. -/
def isObject (schema : Schema) (name : Name) : Bool :=
  schema.typeKind? name = some .object

/-! ### Roots -/

/-- The root type of the operations of a type. -/
def rootType? (schema : Schema) (operationType : OperationType) : Option Name :=
  schema.roots.get operationType

/-- Whether a name is the root type of some operations. -/
def isRootType (schema : Schema) (name : Name) : Bool :=
  OperationType.all.any fun operationType => schema.rootType? operationType = some name

/-! ### Fields -/

/-- The meta-field of a type: its name on composite types, and the schema and its types on the
root type of queries. -/
def metaField? (schema : Schema) (typeName : Name) (kind : TypeKind) (fieldName : Name) :
    Option FieldInfo :=
  if fieldName = "__typename" ∧ kind.isComposite then
    some { type := .named "String" true, description := none }
  else if schema.roots.query ≠ some typeName then none
  else if fieldName = "__schema" then
    some { type := .named "__Schema" true, description := none }
  else if fieldName = "__type" then
    some { type := .named "__Type" false, description := none }
  else none

/-- The field of a type: one that it defines, or else a meta-field. -/
def fieldDefinition? (schema : Schema) (typeName fieldName : Name) : Option FieldInfo := do
  let definition ← schema.find? typeName
  match definition.fields.find? (·.name = fieldName) with
  | some field => return { type := field.type, description := field.description }
  | none => schema.metaField? typeName definition.kind fieldName

/-- The bare types of the fields of an input object type, nothing for other types. -/
def inputFieldTypes (schema : Schema) (name : Name) : List Name :=
  match schema.find? name with
  | some definition => definition.inputFields.map (·.type.bare)
  | none => []

/-! ### Built-in scalars -/

/-- The scalars of every type system. -/
def builtInScalars : List Name := ["Int", "Float", "String", "Boolean", "ID"]

/-- Whether a name is that of a scalar of every type system. -/
def isBuiltInScalar (name : Name) : Bool := builtInScalars.contains name

end Schema

end GraphQLCompiler
