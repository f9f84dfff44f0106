import GraphQLCompiler.Json.Basic
import GraphQLCompiler.Number.Shortest

/-!
# JSON text

A value is written on one line without blanks, or over lines with two spaces of indentation a
level. In strings only the quote, the backslash and control characters are escaped.

## Main definitions

* `Json.compress`: the text on one line.
* `Json.pretty`: the text over lines.
-/

namespace GraphQLCompiler

namespace Json

/-! ### Strings -/

/-- The digit of a number below sixteen, in lower case. -/
def lowerHexDigit (n : Nat) : Char := if n < 10 then Char.ofNat (48 + n) else Char.ofNat (87 + n)

/-- A character between the quotes of a string. -/
def escape (c : Char) : List Char :=
  if c = '"' then ['\\', '"']
  else if c = '\\' then ['\\', '\\']
  else if c = '\n' then ['\\', 'n']
  else if c = '\r' then ['\\', 'r']
  else if c = '\t' then ['\\', 't']
  else if c.toNat = 8 then ['\\', 'b']
  else if c.toNat = 12 then ['\\', 'f']
  else if c.toNat < 32 then
    ['\\', 'u', '0', '0', lowerHexDigit (c.toNat / 16), lowerHexDigit (c.toNat % 16)]
  else [c]

/-- The text of a string. -/
def quote (text : String) : String :=
  "\"" ++ String.ofList (text.toList.flatMap escape) ++ "\""

/-- The text of a value that has no parts. -/
def printLeaf : Json → String
  | .bool value => if value then "true" else "false"
  | .int value => toString value
  | .float value => value.print
  | .string text => quote text
  | _ => "null"

/-! ### On one line -/

mutual

/-- The text of a value on one line. -/
def compress : Json → String
  | .array items => "[" ++ ",".intercalate (compressItems items) ++ "]"
  | .object members => "\x7b" ++ ",".intercalate (compressMembers members) ++ "\x7d"
  | leaf => leaf.printLeaf

/-- The texts of the items of an array. -/
def compressItems : List Json → List String
  | [] => []
  | item :: rest => item.compress :: compressItems rest

/-- The texts of the members of an object. -/
def compressMembers : List (String × Json) → List String
  | [] => []
  | (key, value) :: rest => (quote key ++ ":" ++ value.compress) :: compressMembers rest

end

/-! ### Over lines -/

/-- Items between brackets on lines of their own. Without items the brackets stand together. -/
def printLines (opening closing indent : String) (items : List String) : String :=
  if items.isEmpty then opening ++ closing
  else
    let lineStart := "\n" ++ indent ++ "  "
    opening ++ lineStart ++ ("," ++ lineStart).intercalate items ++ "\n" ++ indent ++ closing

mutual

/-- The text of a value over lines, those after the first at an indentation. -/
def prettyAt (indent : String) : Json → String
  | .array items => printLines "[" "]" indent (prettyItems (indent ++ "  ") items)
  | .object members =>
    printLines "\x7b" "\x7d" indent (prettyMembers (indent ++ "  ") members)
  | leaf => leaf.printLeaf

/-- The texts of the items of an array. -/
def prettyItems (indent : String) : List Json → List String
  | [] => []
  | item :: rest => item.prettyAt indent :: prettyItems indent rest

/-- The texts of the members of an object. -/
def prettyMembers (indent : String) : List (String × Json) → List String
  | [] => []
  | (key, value) :: rest =>
    (quote key ++ ": " ++ value.prettyAt indent) :: prettyMembers indent rest

end

/-- The text of a value over lines. -/
def pretty (value : Json) : String := value.prettyAt ""

end Json

end GraphQLCompiler
