import GraphQLCompiler.Schema.Introspection
import GraphQLCompiler.Syntax.Parser.Document

/-!
# Making a schema from definitions

The types of a schema are the built-in types and then the defined ones. What the extensions of a
type add comes after what its definition has, in the order of the text, whichever comes first in
the text. A schema has the root types that it names, or else the object types with the names of
the operation types; extensions of the schema add to either.

Construction fails if two things that have to differ have one name, or if an extension has nothing
to extend.

## Main definitions

* `Schema.ofDefinitions?`: the schema of type system definitions.
-/

namespace GraphQLCompiler

namespace TypeDefinition

/-- A type with what an extension of its kind adds. -/
def extend? : TypeDefinition → TypeDefinition → Option TypeDefinition
  | scalar, scalar => some scalar
  | object interfaces fields, object moreInterfaces moreFields =>
    some (object (interfaces ++ moreInterfaces) (fields ++ moreFields))
  | interface interfaces fields, interface moreInterfaces moreFields =>
    some (interface (interfaces ++ moreInterfaces) (fields ++ moreFields))
  | union members, union moreMembers => some (union (members ++ moreMembers))
  | enum values, enum moreValues => some (enum (values ++ moreValues))
  | inputObject fields, inputObject moreFields => some (inputObject (fields ++ moreFields))
  | _, _ => none

/-- Whether the parts of a type have different names. -/
def hasDistinctParts : TypeDefinition → Bool
  | scalar => true
  | object interfaces fields | interface interfaces fields =>
    decide interfaces.Nodup && decide (fields.map FieldDefinition.name).Nodup
  | union members => decide members.Nodup
  | enum values => decide values.Nodup
  | inputObject fields => decide (fields.map InputValueDefinition.name).Nodup

end TypeDefinition

namespace Schema

/-! ### Types -/

/-- The types that some definitions define. -/
def definedTypes (definitions : List TypeSystemDefinition) : NameMap TypeDefinition :=
  definitions.filterMap fun
    | .type name definition => some (name, definition)
    | _ => none

/-- The extensions of a type in some definitions. -/
def extensionsOf (definitions : List TypeSystemDefinition) (name : Name) : List TypeDefinition :=
  definitions.filterMap fun
    | .typeExtension target extension => if target = name then some extension else none
    | _ => none

/-- Whether every extension of a type has a type of some map to extend. -/
def hasTargets (types : NameMap TypeDefinition) (definitions : List TypeSystemDefinition) : Bool :=
  definitions.all fun
    | .typeExtension target _ => types.contains target
    | _ => true

/-- A type with everything that its extensions add. -/
def extendedType? (definitions : List TypeSystemDefinition) (named : Name × TypeDefinition) :
    Option (Name × TypeDefinition) := do
  let extended ← (extensionsOf definitions named.1).foldlM TypeDefinition.extend? named.2
  guard extended.hasDistinctParts
  return (named.1, extended)

/-- All types of the schema of some definitions. -/
def constructTypes? (definitions : List TypeSystemDefinition) :
    Option (NameMap TypeDefinition) := do
  let types := builtInTypes ++ definedTypes definitions
  guard (decide types.keys.Nodup && hasTargets types definitions)
  types.mapM (extendedType? definitions)

/-! ### Roots -/

/-- The root types that definitions of a schema name, one list for each definition. -/
def definedRoots (definitions : List TypeSystemDefinition) : List (List RootDefinition) :=
  definitions.filterMap fun
    | .schema roots => some roots
    | _ => none

/-- The root types that extensions of the schema name, one list for each extension. -/
def extensionRoots (definitions : List TypeSystemDefinition) : List (List RootDefinition) :=
  definitions.filterMap fun
    | .schemaExtension roots => some roots
    | _ => none

/-- The root type that operations have unless a schema names one. -/
def defaultRootName : OperationType → Name
  | .query => "Query"
  | .mutation => "Mutation"
  | .subscription => "Subscription"

/-- The root types of a schema that does not name them. -/
def defaultRoots (types : NameMap TypeDefinition) : List RootDefinition :=
  OperationType.all.filterMap fun operationType =>
    let name := defaultRootName operationType
    if (types.find? name).map TypeDefinition.kind = some .object then
      some { operationType, name }
    else none

/-- Adds a root type to those of the other operation types. -/
def addRoot? (roots : Roots) (root : RootDefinition) : Option Roots :=
  if (roots.get root.operationType).isSome then none
  else some (roots.set root.name root.operationType)

/-- The root types of the schema of some definitions with some types. Extensions of a schema that
is not defined need a default root type to extend. -/
def constructRoots? (types : NameMap TypeDefinition) (definitions : List TypeSystemDefinition) :
    Option Roots := do
  let extensions := extensionRoots definitions
  let own ← match definedRoots definitions with
    | [] =>
      let roots := defaultRoots types
      if roots.isEmpty && !extensions.isEmpty then none else some roots
    | [roots] => some roots
    | _ => none
  (own ++ extensions.flatten).foldlM addRoot? {}

/-! ### Schemas -/

/-- The directives that some definitions define. -/
def definedDirectives (definitions : List TypeSystemDefinition) :
    NameMap (List InputValueDefinition) :=
  definitions.filterMap fun
    | .directive name arguments => some (name, arguments)
    | _ => none

/-- The schema of some definitions. -/
def ofDefinitions? (definitions : List TypeSystemDefinition) : Option Schema := do
  let types ← constructTypes? definitions
  let roots ← constructRoots? types definitions
  let directives := definedDirectives definitions
  guard directives.keys.Nodup
  return { types, roots, directives }

/-- The type system definition that a definition of a document is. -/
def typeSystemDefinition? : Definition → Option TypeSystemDefinition
  | .typeSystem definition => some definition
  | _ => none

/-- The schema that a text of nothing but type system definitions describes. -/
def parse? (text : String) : Option Schema := do
  let definitions ← definitions? 0 text
  ofDefinitions? (← definitions.mapM typeSystemDefinition?)

end Schema

end GraphQLCompiler
