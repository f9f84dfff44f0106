import GraphQLCompiler.Compiled.Basic
import GraphQLCompiler.Proofs.TypeNotation

/-!
# Reading compiled documents

A decoder for compiled documents in JSON. Members are looked up by their keys, so their order does
not matter but in maps. A member that may be left out has the value for which it is left out, and a
field has a selection set if it has fields.

The tree of fields is read by recursion on the JSON. Everything else about a field, a branch or a
definition is read from its members by a function of its own, with the fields and branches inside
it given as they were read.

## Main definitions

* `Compiled.Field.ofJson?`: the field that a JSON value is of.
* `Compiled.Document.ofJson?`: the document that a JSON value is of.
-/

namespace GraphQLCompiler

/-! ### Values -/

namespace Json

/-- The text of a string. -/
def toString? : Json → Option String
  | string text => some text
  | _ => none

/-- The truth value of a Boolean. -/
def toBool? : Json → Option Bool
  | bool value => some value
  | _ => none

variable {α : Type}

/-- The items of an array, each read. -/
def toList? (read : Json → Option α) : Json → Option (List α)
  | array items => items.mapM read
  | _ => none

/-- The texts of an array of strings. -/
def toStrings? : Json → Option (List String) := toList? toString?

/-- The members of an object, each read. -/
def toMap? (read : Json → Option α) : Json → Option (NameMap α)
  | object members => members.mapM fun p => (read p.2).map fun value => (p.1, value)
  | _ => none

/-- What a member is read to. -/
def member? (read : Json → Option α) (members : NameMap Json) (key : String) : Option α :=
  (members.find? key).bind read

/-- What a member that may be left out is read to. -/
def memberIfAny? (read : Json → Option α) (members : NameMap Json) (key : String) :
    Option (Option α) :=
  match members.find? key with
  | none => some none
  | some json => (read json).map some

end Json

open Json

namespace Compiled

/-! ### Fields -/

/-- The argument that a JSON value is of. -/
def Argument.ofJson? : Json → Option Argument
  | .object members => do
    return { name := ← member? toString? members "name", value := ← member? some members "value" }
  | _ => none

/-- The selection set among the members of a field, if there is one, with its fields and branches
as they were read. -/
def selectionSetOfMembers? (members : NameMap Json) (fields : Option (List Field))
    (inlineFragments : Option (List InlineFragment)) : Option (Option SelectionSet) :=
  if members.contains "fields" then do
    return some {
      fields := ← fields
      fragmentSpreads := ← member? toStrings? members "fragmentSpreads"
      inlineFragments := ← inlineFragments }
  else some none

/-- The field that some members are of, with its selection set as it was read. -/
def Field.ofMembers? (members : NameMap Json) (selectionSet : Option SelectionSet) :
    Option Field := do
  return {
    responseName := ← member? toString? members "responseName"
    fieldName := ← member? toString? members "fieldName"
    type := TypeRef.read (← member? toString? members "type")
    arguments := (← memberIfAny? (toList? Argument.ofJson?) members "args").getD []
    isConditional := (← memberIfAny? toBool? members "isConditional").getD false
    description := ← memberIfAny? toString? members "description"
    selectionSet }

/-- The branch that some members are of, with its fields as they were read. -/
def InlineFragment.ofMembers? (members : NameMap Json) (fields : Option (List Field)) :
    Option InlineFragment := do
  return {
    typeCondition := ← member? toString? members "typeCondition"
    possibleTypes := ← member? toStrings? members "possibleTypes"
    fields := ← fields
    fragmentSpreads := ← member? toStrings? members "fragmentSpreads" }

mutual

/-- The field that a JSON value is of. -/
def Field.ofJson? : Json → Option Field
  | .object members => do
    let selectionSet ← selectionSetOfMembers? members (fieldsIn? members) (branchesIn? members)
    Field.ofMembers? members selectionSet
  | _ => none

/-- The fields among some members. -/
def fieldsIn? : List (String × Json) → Option (List Field)
  | [] => none
  | (key, json) :: rest => if key = "fields" then fieldsOfJson? json else fieldsIn? rest

/-- The fields that a JSON value is of. -/
def fieldsOfJson? : Json → Option (List Field)
  | .array items => fieldsOfItems? items
  | _ => none

/-- The fields that some JSON values are of. -/
def fieldsOfItems? : List Json → Option (List Field)
  | [] => some []
  | json :: rest => do
    return (← Field.ofJson? json) :: (← fieldsOfItems? rest)

/-- The branch that a JSON value is of. -/
def InlineFragment.ofJson? : Json → Option InlineFragment
  | .object members => InlineFragment.ofMembers? members (fieldsIn? members)
  | _ => none

/-- The branches among some members. -/
def branchesIn? : List (String × Json) → Option (List InlineFragment)
  | [] => none
  | (key, json) :: rest =>
    if key = "inlineFragments" then branchesOfJson? json else branchesIn? rest

/-- The branches that a JSON value is of. -/
def branchesOfJson? : Json → Option (List InlineFragment)
  | .array items => branchesOfItems? items
  | _ => none

/-- The branches that some JSON values are of. -/
def branchesOfItems? : List Json → Option (List InlineFragment)
  | [] => some []
  | json :: rest => do
    return (← InlineFragment.ofJson? json) :: (← branchesOfItems? rest)

end

/-! ### Definitions -/

/-- The variable that a JSON value is of. -/
def Variable.ofJson? : Json → Option Variable
  | .object members => do
    return {
      name := ← member? toString? members "name"
      type := TypeRef.read (← member? toString? members "type") }
  | _ => none

/-- The operation type that a JSON value is of. -/
def operationTypeOfJson? (json : Json) : Option OperationType :=
  json.toString?.bind OperationType.ofKeyword?

/-- The operation that a JSON value is of. -/
def Operation.ofJson? : Json → Option Operation
  | .object members => do
    return {
      filePath := ← memberIfAny? toString? members "filePath"
      name := ← member? toString? members "operationName"
      operationType := ← member? operationTypeOfJson? members "operationType"
      rootType := ← member? toString? members "rootType"
      variableDefinitions := ← member? (toList? Variable.ofJson?) members "variables"
      source := ← member? toString? members "source"
      sourceWithFragments := ← member? toString? members "sourceWithFragments"
      fields := ← fieldsIn? members
      fragmentsReferenced := ← member? toStrings? members "fragmentsReferenced" }
  | _ => none

/-- The fragment that a JSON value is of. -/
def Fragment.ofJson? : Json → Option Fragment
  | .object members => do
    return {
      filePath := ← memberIfAny? toString? members "filePath"
      name := ← member? toString? members "fragmentName"
      source := ← member? toString? members "source"
      typeCondition := ← member? toString? members "typeCondition"
      possibleTypes := ← member? toStrings? members "possibleTypes"
      selectionSet :=
        ← (selectionSetOfMembers? members (fieldsIn? members) (branchesIn? members)).join
      fragmentsReferenced := ← member? toStrings? members "fragmentsReferenced" }
  | _ => none

/-- The document that a JSON value is of. -/
def Document.ofJson? : Json → Option Document
  | .object members => do
    return {
      operations := ← member? (toMap? Operation.ofJson?) members "operations"
      fragments := ← member? (toMap? Fragment.ofJson?) members "fragments"
      typesUsed := ← member? toStrings? members "typesUsed" }
  | _ => none

/-! ### Lists of fields and branches -/

theorem fieldsOfItems?_eq_mapM (items : List Json) :
    fieldsOfItems? items = items.mapM Field.ofJson? := by
  induction items with
  | nil => rfl
  | cons item rest ih => rw [fieldsOfItems?, ih, List.mapM_cons]

theorem branchesOfItems?_eq_mapM (items : List Json) :
    branchesOfItems? items = items.mapM InlineFragment.ofJson? := by
  induction items with
  | nil => rfl
  | cons item rest ih => rw [branchesOfItems?, ih, List.mapM_cons]

/-- The fields among some members are those of the member `fields`. -/
theorem fieldsIn?_eq_member? (members : NameMap Json) :
    fieldsIn? members = member? (toList? Field.ofJson?) members "fields" := by
  induction members with
  | nil => rfl
  | cons p rest ih =>
    have here : fieldsOfJson? p.2 = toList? Field.ofJson? p.2 := by
      cases p.2 <;> simp [fieldsOfJson?, toList?, fieldsOfItems?_eq_mapM]
    rw [fieldsIn?, member?, NameMap.find?, here, ih]
    split <;> rfl

/-- The branches among some members are those of the member `inlineFragments`. -/
theorem branchesIn?_eq_member? (members : NameMap Json) :
    branchesIn? members = member? (toList? InlineFragment.ofJson?) members "inlineFragments" := by
  induction members with
  | nil => rfl
  | cons p rest ih =>
    have here : branchesOfJson? p.2 = toList? InlineFragment.ofJson? p.2 := by
      cases p.2 <;> simp [branchesOfJson?, toList?, branchesOfItems?_eq_mapM]
    rw [branchesIn?, member?, NameMap.find?, here, ih]
    split <;> rfl

end Compiled

end GraphQLCompiler
