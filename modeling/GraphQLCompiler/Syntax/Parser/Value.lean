import GraphQLCompiler.Syntax.Parser.Basic
import GraphQLCompiler.Syntax.TypeRef
import GraphQLCompiler.Syntax.Value

/-!
# Reading values, types and directives

Constant values, which default values and the directives of definitions are made of, hold no
variables.
-/

namespace GraphQLCompiler

namespace Parser

/-- Whether variables may stand in a value. -/
inductive Constness where
  | constant
  | nonconstant
  deriving DecidableEq

/-- The value that a word stands for. -/
def wordValue (word : Name) : Value :=
  if word = "true" then .boolean true
  else if word = "false" then .boolean false
  else if word = "null" then .null
  else .enum word

/-- Reads a value of at most a given nesting. -/
def valueWithin (constness : Constness) : Nat → Parser Value
  | 0 => failure
  | depth + 1 => do
    match ← next with
    | .punctuator c =>
      if c = '$' ∧ constness = .nonconstant then return .var (← name)
      else if c = '[' then return .list (← repeatUntil ']' (valueWithin constness depth))
      else if c = '\x7b' then
        return .object (← repeatUntil '\x7d' do
          let field ← name
          punctuator ':'
          return (field, ← valueWithin constness depth))
      else failure
    | .name word => return wordValue word
    | .int literal => return .int literal
    | .float literal => return .float literal
    | .string text => return .string text
    | .ellipsis => failure

/-- Reads a value. -/
def value (constness : Constness) : Parser Value := do valueWithin constness (← remaining)

/-- Reads an argument. -/
def argument (constness : Constness) : Parser Argument := do
  let argumentName ← name
  punctuator ':'
  return { name := argumentName, value := ← value constness }

/-- Reads the arguments in parentheses, if there are any. -/
def arguments (constness : Constness) : Parser (List Argument) :=
  optionalEnclosed '(' (argument constness) ')'

/-- Reads a directive after its mark. -/
def directive (constness : Constness) : Parser Directive := do
  return { name := ← name, arguments := ← arguments constness }

/-- Reads directives as long as there are any. -/
def directives (constness : Constness) : Parser (List Directive) := do
  separatedAtMost '@' (directive constness) (← remaining)

/-- Reads a type of at most a given nesting. -/
def typeWithin : Nat → Parser TypeRef
  | 0 => failure
  | depth + 1 => do
    if ← acceptPunctuator '[' then
      let item ← typeWithin depth
      punctuator ']'
      return .list item (← acceptPunctuator '!')
    else
      let typeName ← name
      return .named typeName (← acceptPunctuator '!')

/-- Reads a type. -/
def typeRef : Parser TypeRef := do typeWithin (← remaining)

/-- Reads a default value after its mark, if there is one. -/
def defaultValue : Parser (Option Value) := do
  if ← acceptPunctuator '=' then return some (← value .constant) else return none

end Parser

end GraphQLCompiler
