import GraphQLCompiler.NameMap
import GraphQLCompiler.Number.Binary64

/-!
# JSON values

The members of an object keep their order. Integers of 64 bits are apart from floating point
numbers, as `1` is written apart from `1.0`.
-/

namespace GraphQLCompiler

/-- A JSON value. -/
inductive Json where
  | null
  | bool (value : Bool)
  | int (value : Int)
  | float (value : Binary64)
  | string (text : String)
  | array (items : List Json)
  | object (members : List (String × Json))
  deriving Repr, Inhabited

namespace Json

/-- The array of some strings. -/
def strings (texts : List String) : Json := array (texts.map string)

/-- A member that is there if its value is. -/
def optionalMember (key : String) (value : Option Json) : List (String × Json) :=
  match value with
  | some v => [(key, v)]
  | none => []

end Json

end GraphQLCompiler
