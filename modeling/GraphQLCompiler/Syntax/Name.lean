/-!
# Names

A GraphQL name is a nonempty word of ASCII letters, digits and underscores that does not start
with a digit. Names are kept as text; `IsName` says which texts are names.
-/

namespace GraphQLCompiler

/-- The text of a name. -/
abbrev Name := String

/-- Characters that a name may start with. -/
def isNameStart (c : Char) : Bool := c.isAlpha || c = '_'

/-- Characters that a name may go on with. -/
def isNameContinue (c : Char) : Bool := c.isAlphanum || c = '_'

/-- Texts that are GraphQL names. -/
def IsName (text : String) : Bool :=
  match text.toList with
  | [] => false
  | c :: rest => isNameStart c && rest.all isNameContinue

/-- Names that the introspection system keeps for itself. -/
def isReservedName (name : Name) : Bool := name.startsWith "__"

end GraphQLCompiler
