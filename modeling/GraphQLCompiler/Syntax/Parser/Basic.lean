import GraphQLCompiler.Source
import GraphQLCompiler.Syntax.Token

/-!
# Parsers over tokens

A parser reads tokens from a cursor and gives a result or fails. No parser looks back, and a
failure anywhere means that the text is invalid, so failures carry nothing.

Nested syntax is read by recursion on a budget. The number of the tokens that are left is always
enough of a budget, because every level of nesting takes a token.

## Main definitions

* `Parser`: functions from cursors to results and cursors.
* `Parser.repeatUntil`, `Parser.separated`: repetition.
* `Parser.spanFrom`: the span of what was read since a place.
-/

namespace GraphQLCompiler

/-- A place in the tokens of a file. -/
structure Cursor where
  file : FileId
  rest : List Token
  /-- The byte offset after the last token that was read. -/
  consumed : Nat

/-- A reader of tokens. -/
abbrev Parser := StateT Cursor Option

namespace Parser

/-! ### Single tokens -/

/-- The token that comes next, without reading it. -/
def peek : Parser (Option Lexeme) := do return (← get).rest.head?.map Token.lexeme

/-- Reads the token that comes next. -/
def next : Parser Lexeme := do
  let cursor ← get
  match cursor.rest with
  | [] => failure
  | token :: rest =>
    set { cursor with rest, consumed := token.stop }
    return token.lexeme

/-- Reads a token if it is the given one, and tells whether it was. -/
def accept (lexeme : Lexeme) : Parser Bool := do
  if (← peek) = some lexeme then
    let _ ← next
    return true
  else return false

/-- Reads a given token. -/
def expect (lexeme : Lexeme) : Parser Unit := do
  if ← accept lexeme then return () else failure

/-- Reads a given punctuator. -/
def punctuator (c : Char) : Parser Unit := expect (.punctuator c)

/-- Reads a punctuator if it comes next, and tells whether it does. -/
def acceptPunctuator (c : Char) : Parser Bool := accept (.punctuator c)

/-- Reads a word if it comes next, and tells whether it does. -/
def acceptKeyword (word : String) : Parser Bool := accept (.name word)

/-- Whether a punctuator comes next. -/
def isNext (c : Char) : Parser Bool := do return (← peek) = some (.punctuator c)

/-- Reads a name. -/
def name : Parser Name := do
  match ← next with
  | .name text => return text
  | _ => failure

/-- Reads a string if one comes next. -/
def optionalString : Parser (Option String) := do
  match ← peek with
  | some (.string text) =>
    let _ ← next
    return some text
  | _ => return none

/-! ### Repetition -/

/-- The count of the tokens that are left. -/
def remaining : Parser Nat := do return (← get).rest.length

variable {α : Type}

/-- Reads items until a closing punctuator, at most a given number of them. -/
def repeatAtMost (close : Char) (item : Parser α) : Nat → Parser (List α)
  | 0 => failure
  | n + 1 => do
    if ← acceptPunctuator close then return []
    else
      let x ← item
      return x :: (← repeatAtMost close item n)

/-- Reads items until a closing punctuator, which is read too. -/
def repeatUntil (close : Char) (item : Parser α) : Parser (List α) := do
  repeatAtMost close item (← remaining)

/-- Reads one item or more between two punctuators. -/
def enclosed (opening : Char) (item : Parser α) (close : Char) : Parser (List α) := do
  punctuator opening
  let items ← repeatUntil close item
  guard (!items.isEmpty)
  return items

/-- Reads one item or more between two punctuators if the first comes next. -/
def optionalEnclosed (opening : Char) (item : Parser α) (close : Char) : Parser (List α) := do
  if ← isNext opening then enclosed opening item close else return []

/-- Reads items as long as each has a separator in front, at most a given number of them. -/
def separatedAtMost (separator : Char) (item : Parser α) : Nat → Parser (List α)
  | 0 => return []
  | n + 1 => do
    if ← acceptPunctuator separator then
      let x ← item
      return x :: (← separatedAtMost separator item n)
    else return []

/-- Reads one item or more with separators between them. There may be one in front as well. -/
def separated (separator : Char) (item : Parser α) : Parser (List α) := do
  let _ ← acceptPunctuator separator
  let first ← item
  return first :: (← separatedAtMost separator item (← remaining))

/-! ### Places -/

/-- The byte offset of the token that comes next. -/
def offset : Parser Nat := do
  match (← get).rest with
  | [] => failure
  | token :: _ => return token.start

/-- The span from an offset to the end of the last token that was read. -/
def spanFrom (start : Nat) : Parser (Option Span) := do
  let cursor ← get
  return some { file := cursor.file, start, stop := cursor.consumed }

/-- The result of reading all tokens of a text. -/
def run? (file : FileId) (text : String) (parser : Parser α) : Option α := do
  let (result, cursor) ← parser.run { file, rest := ← tokens? text, consumed := 0 }
  guard cursor.rest.isEmpty
  return result

end Parser

end GraphQLCompiler
