import GraphQLCompiler.Syntax.Document
import GraphQLCompiler.Syntax.Parser.Value

/-!
# Reading type system definitions

An extension has to add something: a directive, an interface, a field, a member or a value. A
definition may consist of its name alone, but braces and parentheses are never empty.
-/

namespace GraphQLCompiler

namespace Parser

/-! ### Parts of definitions -/

/-- Reads an argument definition or a field of an input object. -/
def inputValueDefinition : Parser InputValueDefinition := do
  let description ← optionalString
  let valueName ← name
  punctuator ':'
  let type ← typeRef
  let default ← defaultValue
  let _ ← directives .constant
  return { description, name := valueName, type, defaultValue := default }

/-- Reads the argument definitions in parentheses, if there are any. -/
def argumentDefinitions : Parser (List InputValueDefinition) :=
  optionalEnclosed '(' inputValueDefinition ')'

/-- Reads a field of an object or interface type. -/
def fieldDefinition : Parser FieldDefinition := do
  let description ← optionalString
  let fieldName ← name
  let args ← argumentDefinitions
  punctuator ':'
  let type ← typeRef
  let _ ← directives .constant
  return { description, name := fieldName, arguments := args, type }

/-- Reads a value of an enum, which is none of the words for other values. -/
def enumValueDefinition : Parser Name := do
  let _ ← optionalString
  let valueName ← name
  guard (valueName ∉ ["true", "false", "null"])
  let _ ← directives .constant
  return valueName

/-- Reads the interfaces that a type implements, if there are any. -/
def implementedInterfaces : Parser (List Name) := do
  if ← acceptKeyword "implements" then separated '&' name else return []

/-- Reads the members of a union after their mark, if there are any. -/
def unionMembers : Parser (List Name) := do
  if ← acceptPunctuator '=' then separated '|' name else return []

/-- Reads the fields of an object or interface type in braces, if there are any. -/
def fieldDefinitions : Parser (List FieldDefinition) :=
  optionalEnclosed '\x7b' fieldDefinition '\x7d'

/-- Reads a root operation type. -/
def rootDefinition : Parser RootDefinition := do
  match OperationType.ofKeyword? (← name) with
  | none => failure
  | some operationType =>
    punctuator ':'
    return { operationType, name := ← name }

/-! ### Types -/

/-- Reads a named type from after its keyword, with the count of its directives. -/
def typeDefinition (word : Name) : Parser (Name × TypeDefinition × Nat) := do
  let typeName ← name
  match word with
  | "scalar" => return (typeName, .scalar, (← directives .constant).length)
  | "type" =>
    let interfaces ← implementedInterfaces
    let ds ← directives .constant
    return (typeName, .object interfaces (← fieldDefinitions), ds.length)
  | "interface" =>
    let interfaces ← implementedInterfaces
    let ds ← directives .constant
    return (typeName, .interface interfaces (← fieldDefinitions), ds.length)
  | "union" =>
    let ds ← directives .constant
    return (typeName, .union (← unionMembers), ds.length)
  | "enum" =>
    let ds ← directives .constant
    return (typeName, .enum (← optionalEnclosed '\x7b' enumValueDefinition '\x7d'), ds.length)
  | "input" =>
    let ds ← directives .constant
    return (typeName, .inputObject (← optionalEnclosed '\x7b' inputValueDefinition '\x7d'),
      ds.length)
  | _ => failure

/-- Whether an extension adds nothing but directives. -/
def addsNothing : TypeDefinition → Bool
  | .scalar => true
  | .object interfaces fields => interfaces.isEmpty && fields.isEmpty
  | .interface interfaces fields => interfaces.isEmpty && fields.isEmpty
  | .union members => members.isEmpty
  | .enum values => values.isEmpty
  | .inputObject fields => fields.isEmpty

/-! ### Definitions -/

/-- The places that a directive may be allowed in. -/
def directiveLocations : List Name :=
  ["QUERY", "MUTATION", "SUBSCRIPTION", "FIELD", "FRAGMENT_DEFINITION", "FRAGMENT_SPREAD",
    "INLINE_FRAGMENT", "VARIABLE_DEFINITION", "SCHEMA", "SCALAR", "OBJECT", "FIELD_DEFINITION",
    "ARGUMENT_DEFINITION", "INTERFACE", "UNION", "ENUM", "ENUM_VALUE", "INPUT_OBJECT",
    "INPUT_FIELD_DEFINITION"]

/-- Reads a place that a directive is allowed in. -/
def directiveLocation : Parser Name := do
  let place ← name
  guard (directiveLocations.contains place)
  return place

/-- Reads a directive definition from after its keyword. -/
def directiveDefinition : Parser TypeSystemDefinition := do
  punctuator '@'
  let directiveName ← name
  let args ← argumentDefinitions
  let _ ← acceptKeyword "repeatable"
  expect (.name "on")
  let _ ← separated '|' directiveLocation
  return .directive directiveName args

/-- Reads a definition from after its keyword. -/
def typeSystemDefinition (word : Name) : Parser TypeSystemDefinition := do
  match word with
  | "schema" =>
    let _ ← directives .constant
    return .schema (← enclosed '\x7b' rootDefinition '\x7d')
  | "directive" => directiveDefinition
  | _ =>
    let (typeName, definition, _) ← typeDefinition word
    return .type typeName definition

/-- Reads an extension from after the word that marks it. -/
def typeSystemExtension : Parser TypeSystemDefinition := do
  match ← name with
  | "schema" =>
    let ds ← directives .constant
    let roots ← optionalEnclosed '\x7b' rootDefinition '\x7d'
    guard (!(ds.isEmpty && roots.isEmpty))
    return .schemaExtension roots
  | word =>
    let (typeName, extension, directiveCount) ← typeDefinition word
    guard (directiveCount > 0 || !addsNothing extension)
    return .typeExtension typeName extension

end Parser

end GraphQLCompiler
