import GraphQLCompiler.Syntax.Document
import GraphQLCompiler.Syntax.StringLiteral

/-!
# Printing executable definitions

Definitions are written with one selection a line and two spaces of indentation a level, and
values, arguments and directives on the line of what they belong to. There is no line end after
the last brace.

## Main definitions

* `Value.print`: a value on one line.
* `OperationDefinition.print`, `FragmentDefinition.print`: a definition over several lines.
-/

namespace GraphQLCompiler

/-! ### Values, arguments and directives -/

mutual

/-- The text of a value. Numbers are written as they were. -/
def Value.print : Value → String
  | .var name => "$" ++ name
  | .int literal => literal
  | .float literal => literal
  | .string text => StringLiteral.quote text
  | .boolean value => if value then "true" else "false"
  | .null => "null"
  | .enum name => name
  | .list items => "[" ++ ", ".intercalate (printItems items) ++ "]"
  | .object fields => "\x7b" ++ ", ".intercalate (printObjectFields fields) ++ "\x7d"

/-- The texts of the items of a list. -/
def printItems : List Value → List String
  | [] => []
  | item :: rest => item.print :: printItems rest

/-- The texts of the fields of an object. -/
def printObjectFields : List (Name × Value) → List String
  | [] => []
  | (name, value) :: rest => (name ++ ": " ++ value.print) :: printObjectFields rest

end

/-- An argument as a name and a value. -/
def Argument.print (a : Argument) : String := a.name ++ ": " ++ a.value.print

/-- Arguments in parentheses, nothing if there are none. -/
def printArguments (arguments : List Argument) : String :=
  if arguments.isEmpty then ""
  else "(" ++ ", ".intercalate (arguments.map Argument.print) ++ ")"

/-- A directive with its arguments. -/
def Directive.print (d : Directive) : String := "@" ++ d.name ++ printArguments d.arguments

/-- Directives, each after a space. -/
def printDirectives (directives : List Directive) : String :=
  String.join (directives.map fun d => " " ++ d.print)

/-! ### Selections -/

/-- The indentation of one more level. -/
def deeper (indent : String) : String := indent ++ "  "

variable {τ : Type}

/-- Lines in braces that stand at an indentation. -/
def printBlock (indent : String) (lines : List String) : String :=
  if lines.isEmpty then "\x7b\x7d"
  else "\x7b\n" ++ "\n".intercalate lines ++ "\n" ++ indent ++ "\x7d"

mutual

/-- The lines of a selection, the first at the given indentation. -/
def Selection.print (indent : String) : Selection τ → String
  | .field aliasName name arguments directives _ selections =>
    indent ++ (match aliasName with | some a => a ++ ": " | none => "") ++ name ++
      printArguments arguments ++ printDirectives directives ++
      (if selections.isEmpty then ""
        else " " ++ printBlock indent (printSelections (deeper indent) selections))
  | .inlineFragment typeCondition directives _ selections =>
    indent ++ "..." ++ (match typeCondition with | some t => " on " ++ t | none => "") ++
      printDirectives directives ++ " " ++
      printBlock indent (printSelections (deeper indent) selections)
  | .spread name directives _ _ => indent ++ "..." ++ name ++ printDirectives directives

/-- The texts of some selections at an indentation. -/
def printSelections (indent : String) : List (Selection τ) → List String
  | [] => []
  | selection :: rest => selection.print indent :: printSelections indent rest

end

/-- The selection set of a definition. -/
def printSelectionSet (selections : List (Selection τ)) : String :=
  printBlock "" (printSelections (deeper "") selections)

/-! ### Definitions -/

/-- A variable with its type, default value and directives. -/
def VariableDefinition.print (v : VariableDefinition) : String :=
  "$" ++ v.name ++ ": " ++ v.type.print ++
    (match v.defaultValue with | some value => " = " ++ value.print | none => "") ++
    printDirectives v.directives

/-- The variables of an operation in parentheses, nothing if there are none. -/
def printVariables (definitions : List VariableDefinition) : String :=
  if definitions.isEmpty then ""
  else "(" ++ ", ".intercalate (definitions.map VariableDefinition.print) ++ ")"

/-- Whether an operation is written as a selection set alone. -/
def OperationDefinition.isShorthand (d : OperationDefinition) : Bool :=
  d.operationType = .query && d.name.isNone && d.variableDefinitions.isEmpty && d.directives.isEmpty

/-- The text of an operation. -/
def OperationDefinition.print (d : OperationDefinition) : String :=
  if d.isShorthand then printSelectionSet d.selections
  else
    d.operationType.keyword ++ (match d.name with | some name => " " ++ name | none => "") ++
      printVariables d.variableDefinitions ++ printDirectives d.directives ++ " " ++
      printSelectionSet d.selections

/-- The text of a fragment definition. -/
def FragmentDefinition.print (d : FragmentDefinition) : String :=
  "fragment " ++ d.name ++ " on " ++ d.typeCondition ++ printDirectives d.directives ++ " " ++
    printSelectionSet d.selections

end GraphQLCompiler
