import GraphQLCompiler.Schema.Basic

/-!
# The types of every schema

Every schema starts with the types of the introspection system, which describe schemas, and with
the five built-in scalars.
-/

namespace GraphQLCompiler

namespace Introspection

/-! ### References -/

/-- A named type that may be null. -/
def optional (name : Name) : TypeRef := .named name false

/-- A named type that is never null. -/
def required (name : Name) : TypeRef := .named name true

/-- A list that may be null, of items that are not. -/
def optionalList (name : Name) : TypeRef := .list (required name) false

/-- A list that is never null, of items that are not. -/
def requiredList (name : Name) : TypeRef := .list (required name) true

/-- A field without arguments and description. -/
def plainField (name : Name) (type : TypeRef) : FieldDefinition :=
  { description := none, name, arguments := [], type }

/-- A field without arguments. -/
def describedField (description : String) (name : Name) (type : TypeRef) : FieldDefinition :=
  { plainField name type with description := some description }

/-- A field that may leave out what is deprecated. -/
def filteredField (name : Name) (type : TypeRef) : FieldDefinition :=
  let includeDeprecated := {
    description := none, name := "includeDeprecated", type := optional "Boolean"
    defaultValue := some (.boolean false) }
  { plainField name type with arguments := [includeDeprecated] }

/-! ### Types -/

/-- The type of a schema. -/
def schemaType : TypeDefinition := .object [] [
  plainField "description" (optional "String"),
  describedField "A list of all types supported by this server." "types" (requiredList "__Type"),
  describedField "The type that query operations will be rooted at." "queryType"
    (required "__Type"),
  describedField
    "If this server supports mutation, the type that mutation operations will be rooted at."
    "mutationType" (optional "__Type"),
  describedField
    "If this server support subscription, the type that subscription operations will be rooted at."
    "subscriptionType" (optional "__Type"),
  describedField "A list of all directives supported by this server." "directives"
    (requiredList "__Directive")]

/-- The type of a type. -/
def typeType : TypeDefinition := .object [] [
  plainField "kind" (required "__TypeKind"),
  plainField "name" (optional "String"),
  plainField "description" (optional "String"),
  filteredField "fields" (optionalList "__Field"),
  plainField "interfaces" (optionalList "__Type"),
  plainField "possibleTypes" (optionalList "__Type"),
  filteredField "enumValues" (optionalList "__EnumValue"),
  filteredField "inputFields" (optionalList "__InputValue"),
  plainField "ofType" (optional "__Type"),
  plainField "specifiedByURL" (optional "String")]

/-- The kinds of types. -/
def typeKindType : TypeDefinition :=
  .enum ["SCALAR", "OBJECT", "INTERFACE", "UNION", "ENUM", "INPUT_OBJECT", "LIST", "NON_NULL"]

/-- The type of a field. -/
def fieldType : TypeDefinition := .object [] [
  plainField "name" (required "String"),
  plainField "description" (optional "String"),
  filteredField "args" (requiredList "__InputValue"),
  plainField "type" (required "__Type"),
  plainField "isDeprecated" (required "Boolean"),
  plainField "deprecationReason" (optional "String")]

/-- The type of an argument or input field. -/
def inputValueType : TypeDefinition := .object [] [
  plainField "name" (required "String"),
  plainField "description" (optional "String"),
  plainField "type" (required "__Type"),
  describedField "A GraphQL-formatted string representing the default value for this input value."
    "defaultValue" (optional "String"),
  plainField "isDeprecated" (required "Boolean"),
  plainField "deprecationReason" (optional "String")]

/-- The type of a value of an enum. -/
def enumValueType : TypeDefinition := .object [] [
  plainField "name" (required "String"),
  plainField "description" (optional "String"),
  plainField "isDeprecated" (required "Boolean"),
  plainField "deprecationReason" (optional "String")]

/-- The type of a directive. -/
def directiveType : TypeDefinition := .object [] [
  plainField "name" (required "String"),
  plainField "description" (optional "String"),
  plainField "locations" (requiredList "__DirectiveLocation"),
  filteredField "args" (requiredList "__InputValue"),
  plainField "isRepeatable" (required "Boolean")]

/-- The places that a directive may be allowed in. -/
def directiveLocationType : TypeDefinition := .enum [
  "QUERY", "MUTATION", "SUBSCRIPTION", "FIELD", "FRAGMENT_DEFINITION", "FRAGMENT_SPREAD",
  "INLINE_FRAGMENT", "VARIABLE_DEFINITION", "SCHEMA", "SCALAR", "OBJECT", "FIELD_DEFINITION",
  "ARGUMENT_DEFINITION", "INTERFACE", "UNION", "ENUM", "ENUM_VALUE", "INPUT_OBJECT",
  "INPUT_FIELD_DEFINITION"]

/-- The types that describe schemas. -/
def types : NameMap TypeDefinition := [
  ("__Schema", schemaType), ("__Type", typeType), ("__TypeKind", typeKindType),
  ("__Field", fieldType), ("__InputValue", inputValueType), ("__EnumValue", enumValueType),
  ("__Directive", directiveType), ("__DirectiveLocation", directiveLocationType)]

end Introspection

/-- The types of every schema. -/
def builtInTypes : NameMap TypeDefinition :=
  Introspection.types ++ Schema.builtInScalars.map fun name => (name, .scalar)

end GraphQLCompiler
