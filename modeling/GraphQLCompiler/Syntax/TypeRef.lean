import GraphQLCompiler.Syntax.Name

/-!
# References to types

A type reference is a named type or a list of references, and either may exclude null.

## Main definitions

* `TypeRef.bare`: the named type under all lists.
* `TypeRef.print`: the reference as written, such as `[String!]!`.
-/

namespace GraphQLCompiler

/-- A reference to a type. The flag tells whether null is excluded. -/
inductive TypeRef where
  | named (name : Name) (nonNull : Bool)
  | list (item : TypeRef) (nonNull : Bool)
  deriving DecidableEq, Repr, Inhabited

namespace TypeRef

/-- The named type under all lists. -/
def bare : TypeRef → Name
  | named name _ => name
  | list item _ => item.bare

/-- The mark of a reference that excludes null. -/
def mark (nonNull : Bool) : String := if nonNull then "!" else ""

/-- The reference as it is written. -/
def print : TypeRef → String
  | named name nonNull => name ++ mark nonNull
  | list item nonNull => "[" ++ item.print ++ "]" ++ mark nonNull

end TypeRef

end GraphQLCompiler
