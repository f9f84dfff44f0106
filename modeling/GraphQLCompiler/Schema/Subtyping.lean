import GraphQLCompiler.Schema.Basic

/-!
# Subtypes and possible types

An interface has the object and interface types as subtypes that list it, and a union its members.
The **possible types** of an interface or union are the object types that a value of it may have.

## Main definitions

* `Schema.isSubtype`: whether an abstract type has a subtype.
* `Schema.possibleTypes`: the object types of an abstract type in order.
* `Schema.isSubtypeOf`, `Schema.isProperSupertype`: the same questions, where every type is its own
  subtype and its own supertype.
-/

namespace GraphQLCompiler

namespace Schema

/-- Whether a type lists another among its interfaces. -/
def lists (schema : Schema) (name interfaceName : Name) : Bool :=
  (schema.find? name).any fun definition => definition.interfaces.contains interfaceName

/-- Whether an abstract type has a subtype. The members of a union count even if they are not
defined. -/
def isSubtype (schema : Schema) (abstractType name : Name) : Bool :=
  match schema.find? abstractType with
  | some (.interface _ _) => schema.lists name abstractType
  | some (.union members) => members.contains name
  | _ => false

/-- The possible types of an abstract type: the members of a union in order, or the object types
that list an interface in the order of the schema. Nothing for other types. -/
def possibleTypes (schema : Schema) (abstractType : Name) : List Name :=
  match schema.find? abstractType with
  | some (.union members) => members
  | some (.interface _ _) =>
    NameMap.keys <| schema.types.filter fun (_, definition) =>
      definition.kind = .object && definition.interfaces.contains abstractType
  | _ => []

/-- Whether an object type is a possible type of an abstract type. -/
def isPossibleType (schema : Schema) (abstractType name : Name) : Bool :=
  schema.isObject name && schema.isSubtype abstractType name

/-- Whether a type is another or a subtype of it. -/
def isSubtypeOf (schema : Schema) (name super : Name) : Bool :=
  name = super || schema.isSubtype super name

/-- Whether a type is another or an abstract type with the other among its possible types. -/
def isProperSupertype (schema : Schema) (super name : Name) : Bool :=
  super = name || (schema.isAbstract super && schema.isPossibleType super name)

/-- The possible types of an abstract type, or the type itself. -/
def concreteTypes (schema : Schema) (name : Name) : List Name :=
  if schema.isAbstract name then schema.possibleTypes name else [name]

/-- Every type is a subtype of itself. -/
@[simp] theorem isSubtypeOf_self (schema : Schema) (name : Name) :
    schema.isSubtypeOf name name = true := by
  simp [isSubtypeOf]

/-- Every type is a supertype of itself. -/
@[simp] theorem isProperSupertype_self (schema : Schema) (name : Name) :
    schema.isProperSupertype name name = true := by
  simp [isProperSupertype]

end Schema

end GraphQLCompiler
