import GraphQLCompiler.Syntax.Document
import GraphQLCompiler.Syntax.Parser.Value

/-!
# Reading operations and fragments
-/

namespace GraphQLCompiler

namespace Parser

/-! ### Selections -/

/-- Reads what follows the dots of an inline fragment or a spread, given a reader for the
selections of a level below. -/
def afterEllipsis (start : Nat) (selections : Parser WrittenSelections) :
    Parser (Selection Unit) := do
  match ← peek with
  | some (.name "on") =>
    let _ ← next
    let condition ← name
    let ds ← directives .nonconstant
    let sub ← selections
    return .inlineFragment (some condition) ds (← spanFrom start) sub
  | some (.name fragment) =>
    let _ ← next
    let ds ← directives .nonconstant
    return .spread fragment ds (← spanFrom start) ()
  | _ =>
    let ds ← directives .nonconstant
    let sub ← selections
    return .inlineFragment none ds (← spanFrom start) sub

/-- Reads a field, given a reader for the selections of a level below. -/
def field (start : Nat) (selections : Parser WrittenSelections) : Parser (Selection Unit) := do
  let first ← name
  let second ← if ← acceptPunctuator ':' then some <$> name else pure none
  let args ← arguments .nonconstant
  let ds ← directives .nonconstant
  let sub ← if ← isNext '\x7b' then selections else pure []
  let location ← spanFrom start
  match second with
  | some fieldName => return .field (some first) fieldName args ds location sub
  | none => return .field none first args ds location sub

/-- Reads a selection of at most a given nesting. -/
def selectionWithin : Nat → Parser (Selection Unit)
  | 0 => failure
  | depth + 1 => do
    let start ← offset
    let selections := enclosed '\x7b' (selectionWithin depth) '\x7d'
    if ← accept .ellipsis then afterEllipsis start selections else field start selections

/-- Reads a selection set. -/
def selectionSet : Parser WrittenSelections := do
  enclosed '\x7b' (selectionWithin (← remaining)) '\x7d'

/-! ### Definitions -/

/-- Reads the definition of a variable. -/
def variableDefinition : Parser VariableDefinition := do
  let start ← offset
  punctuator '$'
  let variableName ← name
  punctuator ':'
  let type ← typeRef
  let default ← defaultValue
  let ds ← directives .constant
  return {
    name := variableName, type, defaultValue := default, directives := ds
    location := ← spanFrom start }

/-- Reads an operation that is a selection set alone. -/
def shorthandOperation : Parser OperationDefinition := do
  let start ← offset
  let selections ← selectionSet
  return {
    operationType := .query, name := none, variableDefinitions := [], directives := []
    location := ← spanFrom start, selections }

/-- Reads the name of an operation, if it has one. -/
def operationName : Parser (Option Name) := do
  match ← peek with
  | some (.name text) =>
    let _ ← next
    return some text
  | _ => return none

/-- Reads an operation from its keyword on. -/
def operation (operationType : OperationType) : Parser OperationDefinition := do
  let start ← offset
  let _ ← next
  let opName ← operationName
  let variableDefinitions ← optionalEnclosed '(' variableDefinition ')'
  let ds ← directives .nonconstant
  let selections ← selectionSet
  return {
    operationType, name := opName, variableDefinitions, directives := ds
    location := ← spanFrom start, selections }

/-- Reads a fragment from its keyword on. No fragment has the name that starts a type condition. -/
def fragment : Parser FragmentDefinition := do
  let start ← offset
  let _ ← next
  let fragmentName ← name
  guard (fragmentName ≠ "on")
  expect (.name "on")
  let typeCondition ← name
  let ds ← directives .nonconstant
  let selections ← selectionSet
  return {
    name := fragmentName, typeCondition, directives := ds
    location := ← spanFrom start, selections }

end Parser

end GraphQLCompiler
