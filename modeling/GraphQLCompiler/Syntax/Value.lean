import GraphQLCompiler.Syntax.Name

/-!
# Input values, arguments and directives

Values are kept as written: a number is the text of its literal, and the fields of an object stay
in order and may repeat.
-/

namespace GraphQLCompiler

/-- A literal value or a variable. -/
inductive Value where
  | var (name : Name)
  | int (literal : String)
  | float (literal : String)
  | string (text : String)
  | boolean (value : Bool)
  | null
  | enum (name : Name)
  | list (items : List Value)
  | object (fields : List (Name × Value))
  deriving Repr, Inhabited

/-- A named value given to a field or directive. -/
structure Argument where
  name : Name
  value : Value
  deriving Repr, Inhabited

/-- A directive with its arguments. -/
structure Directive where
  name : Name
  arguments : List Argument
  deriving Repr, Inhabited

/-- Whether one of the directives makes a selection depend on a condition. -/
def isConditional (directives : List Directive) : Bool :=
  directives.any fun d => d.name = "skip" || d.name = "include"

end GraphQLCompiler
