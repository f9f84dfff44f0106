import GraphQLCompiler.Compiled.Basic

/-!
# Argument values

The values of arguments are given in JSON as they are written, not as the types of the arguments
would have them. An enum value becomes a string and a variable an object that names it. An integer
of 64 bits stays an integer. Other numbers become floating point numbers, and those that are too
large become null.

## Main definitions

* `Value.toJson`: the JSON of a value.
-/

namespace GraphQLCompiler

/-- The JSON of a number as a floating point number. -/
def floatToJson (literal : String) : Json :=
  match Decimal.read? literal |>.bind Binary64.ofDecimal? with
  | some value => .float value
  | none => .null

/-- Whether an integer has 64 bits. -/
def isInt64 (n : Int) : Bool := -9223372036854775808 ≤ n && n ≤ 9223372036854775807

/-- The JSON of an integer literal. -/
def intToJson (literal : String) : Json :=
  match readInt? literal with
  | some n => if isInt64 n then .int n else floatToJson literal
  | none => floatToJson literal

/-- The JSON of a variable. -/
def variableToJson (name : Name) : Json :=
  .object [("kind", .string "Variable"), ("variableName", .string name)]

mutual

/-- The JSON of a value. The last of several fields of one name counts. -/
def Value.toJson : Value → Json
  | .var name => variableToJson name
  | .int literal => intToJson literal
  | .float literal => floatToJson literal
  | .string text => .string text
  | .boolean value => .bool value
  | .null => .null
  | .enum name => .string name
  | .list items => .array (itemsToJson items)
  | .object fields => .object (NameMap.ofList (objectFieldsToJson fields))

/-- The JSON of the items of a list. -/
def itemsToJson : List Value → List Json
  | [] => []
  | item :: rest => item.toJson :: itemsToJson rest

/-- The JSON of the fields of an object. -/
def objectFieldsToJson : List (Name × Value) → List (String × Json)
  | [] => []
  | (name, value) :: rest => (name, value.toJson) :: objectFieldsToJson rest

end

/-- A compiled argument. -/
def Argument.compile (a : Argument) : Compiled.Argument :=
  { name := a.name, value := a.value.toJson }

end GraphQLCompiler
