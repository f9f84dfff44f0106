/-!
# String literals

A string is written between double quotes. Some characters of the text are escaped by a backslash:
the quote, the backslash and control characters. A **block string** stands between triple quotes,
spans lines and drops the indentation that its lines have in common.

## Main definitions

* `quote`: the text of a string as a literal.
* `unescape?`: the text of what stands between the quotes of a literal.
* `blockText`: the text of what stands between the triple quotes of a block string.
-/

namespace GraphQLCompiler

namespace StringLiteral

/-! ### Writing -/

/-- The digit of a number below sixteen, in upper case. -/
def upperHexDigit (n : Nat) : Char := if n < 10 then Char.ofNat (48 + n) else Char.ofNat (55 + n)

/-- A character between the quotes of a literal. Tabs stay as they are. -/
def escape (c : Char) : List Char :=
  if c = '"' then ['\\', '"']
  else if c = '\\' then ['\\', '\\']
  else if c = '\n' then ['\\', 'n']
  else if c = '\r' then ['\\', 'r']
  else if c.toNat = 8 then ['\\', 'b']
  else if c.toNat = 12 then ['\\', 'f']
  else if c = '\t' then [c]
  else if c.toNat < 32 then
    ['\\', 'u', '0', '0', upperHexDigit (c.toNat / 16), upperHexDigit (c.toNat % 16)]
  else [c]

/-- The literal of a text. -/
def quote (text : String) : String :=
  "\"" ++ String.ofList (text.toList.flatMap escape) ++ "\""

/-! ### Reading -/

/-- The value of a hexadecimal digit of either case. -/
def hexDigit? (c : Char) : Option Nat :=
  if '0' ≤ c ∧ c ≤ '9' then some (c.toNat - 48)
  else if 'a' ≤ c ∧ c ≤ 'f' then some (c.toNat - 87)
  else if 'A' ≤ c ∧ c ≤ 'F' then some (c.toNat - 55)
  else none

/-- The number that a nonempty list of hexadecimal digits writes. -/
def hexNumber? : List Char → Option Nat
  | [] => none
  | digits => digits.foldlM (fun n c => (hexDigit? c).map (16 * n + ·)) 0

/-- The character of a number that is a Unicode scalar value. -/
def scalar? (n : Nat) : Option Char := if n.isValidChar then some (Char.ofNat n) else none

/-- The character of a simple escape. -/
def simpleEscape? : Char → Option Char
  | '"' => some '"'
  | '\\' => some '\\'
  | '/' => some '/'
  | 'b' => some (Char.ofNat 8)
  | 'f' => some (Char.ofNat 12)
  | 'n' => some '\n'
  | 'r' => some '\r'
  | 't' => some '\t'
  | _ => none

/-- A character written by four hexadecimal digits, and what follows. A high surrogate takes the
low surrogate that has to follow it. -/
def fourDigits? (a b c d : Char) (rest : List Char) : Option (Char × List Char) := do
  let high ← hexNumber? [a, b, c, d]
  if 0xD800 ≤ high ∧ high < 0xDC00 then
    match rest with
    | '\\' :: 'u' :: e :: f :: g :: h :: after =>
      let low ← hexNumber? [e, f, g, h]
      if 0xDC00 ≤ low ∧ low < 0xE000 then
        return (← scalar? (0x10000 + (high - 0xD800) * 0x400 + (low - 0xDC00)), after)
      else none
    | _ => none
  else return (← scalar? high, rest)

theorem length_fourDigits? {a b c d : Char} {rest after : List Char} {x : Char}
    (h : fourDigits? a b c d rest = some (x, after)) : after.length ≤ rest.length := by
  simp only [fourDigits?, Option.bind_eq_bind, Option.bind_eq_some_iff] at h
  obtain ⟨high, _, h⟩ := h
  split at h
  · split at h
    · simp only [Option.bind_eq_some_iff] at h
      obtain ⟨low, _, h⟩ := h
      split at h
      · obtain ⟨_, _, h⟩ := Option.bind_eq_some_iff.1 h
        cases h
        simp only [List.length_cons]
        omega
      · simp at h
    · simp at h
  · obtain ⟨_, _, h⟩ := Option.bind_eq_some_iff.1 h
    cases h
    exact Nat.le_refl _

/-- The text of the characters between the quotes of a literal. It fails on an unknown escape and
on a surrogate that is not part of a pair. -/
def unescape? : List Char → Option (List Char)
  | '\\' :: 'u' :: '\x7b' :: rest =>
    match _h : rest.dropWhile (· ≠ '\x7d') with
    | _ :: after => do
      let c ← scalar? (← hexNumber? (rest.takeWhile (· ≠ '\x7d')))
      return c :: (← unescape? after)
    | [] => none
  | '\\' :: 'u' :: a :: b :: c :: d :: rest =>
    match _h : fourDigits? a b c d rest with
    | some (x, after) => do return x :: (← unescape? after)
    | none => none
  | '\\' :: c :: rest => do return (← simpleEscape? c) :: (← unescape? rest)
  | c :: rest => do if c = '\\' then none else return c :: (← unescape? rest)
  | [] => some []
termination_by cs => cs.length
decreasing_by
  · have suffix := (List.dropWhile_suffix (l := rest) (· ≠ '\x7d')).length_le
    rw [‹List.dropWhile _ rest = _›, List.length_cons] at suffix
    simp only [List.length_cons]
    omega
  · have shorter := length_fourDigits? ‹_›
    simp only [List.length_cons]
    omega
  · simp only [List.length_cons]
    omega
  · simp

/-! ### Block strings -/

/-- Whether a character indents. -/
def isBlank (c : Char) : Bool := c = ' ' || c = '\t'

/-- The lines of a text, which end at a line feed, a carriage return or the two together. -/
def lines : List Char → List (List Char)
  | [] => [[]]
  | '\r' :: '\n' :: rest => [] :: lines rest
  | c :: rest =>
    if c = '\n' ∨ c = '\r' then [] :: lines rest
    else
      match lines rest with
      | [] => [[c]]
      | line :: more => (c :: line) :: more

/-- The smallest indentation of a line that has more than indentation. -/
def commonIndent (ls : List (List Char)) : Option Nat :=
  ((ls.filter fun line => !line.all isBlank).map fun line => (line.takeWhile isBlank).length).min?

/-- The text of a block string: without the common indentation of the lines after the first, and
without the blank lines at both ends. -/
def blockText (raw : List Char) : List Char :=
  match lines raw with
  | [] => []
  | first :: others =>
    let others := match commonIndent others with
      | some n => others.map (·.drop n)
      | none => others
    let kept := ((first :: others).dropWhile (·.all isBlank)).reverse.dropWhile (·.all isBlank)
    ['\n'].intercalate kept.reverse

end StringLiteral

end GraphQLCompiler
