import GraphQLCompiler.Syntax.Name
import GraphQLCompiler.Syntax.StringLiteral

/-!
# Tokens

The tokens of a text are its punctuators, names, numbers and strings, each with its place. What
stands between them does not count: blanks, line ends, commas, byte order marks and comments.

## Main definitions

* `Token.scan?`: the token that a text starts with.
* `tokens?`: all tokens of a text.
-/

namespace GraphQLCompiler

/-- What a token is. -/
inductive Lexeme where
  | punctuator (c : Char)
  | ellipsis
  | name (text : Name)
  | int (literal : String)
  | float (literal : String)
  | string (text : String)
  deriving DecidableEq, Repr

/-- A token with the bytes that it takes. -/
structure Token where
  lexeme : Lexeme
  start : Nat
  stop : Nat
  deriving Repr

namespace Token

/-! ### Kinds of characters -/

/-- Characters between tokens that mean nothing. -/
def isIgnored (c : Char) : Bool :=
  c = ' ' || c = '\t' || c = '\n' || c = '\r' || c = ',' || c = '\uFEFF'

/-- Characters that end a line. -/
def isLineEnd (c : Char) : Bool := c = '\n' || c = '\r'

/-- Punctuators of one character. -/
def isPunctuator (c : Char) : Bool := "!$&():=@[]\x7b|\x7d".toList.contains c

/-! ### Numbers -/

/-- The digits that a text starts with. -/
def digits (cs : List Char) : List Char := cs.takeWhile Char.isDigit

/-- The integer that a text starts with: a sign and digits, without needless zeros in front. -/
def integerPart? (cs : List Char) : Option (List Char) :=
  let (sign, rest) := match cs with
    | '-' :: rest => (['-'], rest)
    | _ => ([], cs)
  match digits rest with
  | [] => none
  | '0' :: _ :: _ => none
  | ds => some (sign ++ ds)

/-- The fraction that a text starts with: empty unless there is a point, which needs digits. -/
def fractionPart? : List Char → Option (List Char)
  | '.' :: rest => if (digits rest).isEmpty then none else some ('.' :: digits rest)
  | _ => some []

/-- The exponent that a text starts with: empty unless there is its letter, which needs digits. -/
def exponentPart? : List Char → Option (List Char)
  | c :: rest =>
    if c = 'e' ∨ c = 'E' then
      let sign := rest.take 1 |>.filter fun s => s = '+' || s = '-'
      let ds := digits (rest.drop sign.length)
      if ds.isEmpty then none else some (c :: (sign ++ ds))
    else some []
  | [] => some []

/-- Whether a text can follow a number: neither a name nor a digit nor a point may. -/
def endsNumber : List Char → Bool
  | c :: _ => !(isNameContinue c || c = '.')
  | [] => true

/-- The number that a text starts with, and the count of its characters. -/
def number? (cs : List Char) : Option (Lexeme × Nat) := do
  let whole ← integerPart? cs
  let afterWhole := cs.drop whole.length
  let fraction ← fractionPart? afterWhole
  let afterFraction := afterWhole.drop fraction.length
  let exponent ← exponentPart? afterFraction
  guard (endsNumber (afterFraction.drop exponent.length))
  let literal := whole ++ fraction ++ exponent
  let lexeme := if fraction.isEmpty && exponent.isEmpty then Lexeme.int (String.ofList literal)
    else Lexeme.float (String.ofList literal)
  return (lexeme, literal.length)

/-! ### Strings -/

/-- What stands before the closing quote of a string, escapes as written, and the count of the
characters up to and with the quote. A string ends on its line. -/
def quoted? : List Char → Option (List Char × Nat)
  | [] => none
  | '\\' :: c :: rest => do
    let (body, count) ← quoted? rest
    if isLineEnd c then none else return ('\\' :: c :: body, count + 2)
  | c :: rest =>
    if c = '"' then some ([], 1)
    else if isLineEnd c then none
    else do
      let (body, count) ← quoted? rest
      return (c :: body, count + 1)

/-- What stands before the closing triple quote of a block string, with escaped triple quotes
resolved, and the count of the characters up to and with the triple quote. -/
def blockQuoted? : List Char → Option (List Char × Nat)
  | [] => none
  | '"' :: '"' :: '"' :: _ => some ([], 3)
  | '\\' :: '"' :: '"' :: '"' :: rest => do
    let (body, count) ← blockQuoted? rest
    return ('"' :: '"' :: '"' :: body, count + 4)
  | c :: rest => do
    let (body, count) ← blockQuoted? rest
    return (c :: body, count + 1)

/-! ### Scanning -/

/-- The token that starts with a character, and the count of the characters that follow the first
in it. -/
def scan? (c : Char) (rest : List Char) : Option (Lexeme × Nat) :=
  if isNameStart c then
    let more := rest.takeWhile isNameContinue
    some (.name (String.ofList (c :: more)), more.length)
  else if isPunctuator c then some (.punctuator c, 0)
  else if c = '.' then
    match rest with
    | '.' :: '.' :: _ => some (.ellipsis, 2)
    | _ => none
  else if c = '"' then
    match rest with
    | '"' :: '"' :: after => do
      let (raw, count) ← blockQuoted? after
      return (.string (String.ofList (StringLiteral.blockText raw)), count + 2)
    | _ => do
      let (body, count) ← quoted? rest
      return (.string (String.ofList (← StringLiteral.unescape? body)), count)
  else do
    let (lexeme, count) ← number? (c :: rest)
    return (lexeme, count - 1)

/-- The count of the bytes of a text. -/
def byteLength (cs : List Char) : Nat := (String.ofList cs).utf8ByteSize

end Token

/-- The tokens of a text that starts at a byte offset. -/
def tokensFrom? (cs : List Char) (offset : Nat) : Option (List Token) :=
  match cs with
  | [] => some []
  | c :: rest =>
    if Token.isIgnored c then tokensFrom? rest (offset + c.utf8Size)
    else if c = '#' then
      let comment := rest.takeWhile (!Token.isLineEnd ·)
      tokensFrom? (rest.drop comment.length) (offset + c.utf8Size + Token.byteLength comment)
    else
      match Token.scan? c rest with
      | none => none
      | some (lexeme, count) => do
        let stop := offset + c.utf8Size + Token.byteLength (rest.take count)
        return { lexeme, start := offset, stop } :: (← tokensFrom? (rest.drop count) stop)
termination_by cs.length
decreasing_by all_goals simp only [List.length_cons, List.length_drop]; omega

/-- The tokens of a text, `none` if some part of it is no token. -/
def tokens? (text : String) : Option (List Token) := tokensFrom? text.toList 0

end GraphQLCompiler
