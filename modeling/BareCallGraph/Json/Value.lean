/-!
# JSON values and their texts

A `JsonValue` is what a JSON text says. Numbers are exact decimals and the members of an object keep
their order. `JsonValue.write` gives the text of a value in one of two styles: without any blanks
(`JsonStyle.compact`), or with each item on a line of its own (`JsonStyle.indented`).
-/

namespace BareCallGraph

/-- A number in decimal notation: its digits, taken as a whole number, times a power of ten. -/
structure Decimal where
  /-- Whether a minus sign stands in front. -/
  negative : Bool
  /-- The digits without sign and point. -/
  digits : Nat
  /-- The power of ten. -/
  exponent : Int
deriving DecidableEq, Repr, Inhabited

/-- What a JSON text says. -/
inductive JsonValue where
  | null
  | bool (value : Bool)
  | number (value : Decimal)
  | string (value : String)
  | array (items : List JsonValue)
  | object (members : List (String × JsonValue))
deriving Repr, Inhabited

/-- Where blanks go in the text of a value. -/
structure JsonStyle where
  /-- What stands between two items, or next to a bracket, at a depth of nesting. -/
  newline : Nat → List Char
  /-- What stands between a name and its value. -/
  colon : List Char

namespace JsonStyle

/-- No blanks at all. -/
def compact : JsonStyle := ⟨fun _ => [], [':']⟩

/-- Each item on its own line, two blanks deeper than what holds it. -/
def indented : JsonStyle := ⟨fun depth => '\n' :: List.replicate (2 * depth) ' ', [':', ' ']⟩

end JsonStyle

namespace JsonValue

/-- A natural number. -/
def nat (n : Nat) : JsonValue := .number ⟨false, n, 0⟩

/-- A digit of base sixteen, in lower case. -/
def hexDigit (n : Nat) : Char := Nat.digitChar (n % 16)

/-- How a character is written inside quotes: quotes, backslashes and control characters are escaped,
with a letter where there is one. -/
def escape (c : Char) : List Char :=
  if c = '\x22' then ['\\', '\x22']
  else if c = '\\' then ['\\', '\\']
  else if c = '\x08' then ['\\', 'b']
  else if c = '\x0c' then ['\\', 'f']
  else if c = '\n' then ['\\', 'n']
  else if c = '\r' then ['\\', 'r']
  else if c = '\t' then ['\\', 't']
  else if c.toNat < 0x20 then ['\\', 'u', '0', '0', hexDigit (c.toNat / 16), hexDigit c.toNat]
  else [c]

/-- A text in quotes. -/
def quote (text : String) : List Char := '\x22' :: text.toList.flatMap escape ++ ['\x22']

/-- The text of a number. -/
def writeNumber (d : Decimal) : List Char :=
  (if d.negative then ['-'] else []) ++ Nat.toDigits 10 d.digits ++
    match d.exponent with
    | .ofNat 0 => []
    | .ofNat n => 'e' :: Nat.toDigits 10 n
    | .negSucc n => 'e' :: '-' :: Nat.toDigits 10 (n + 1)

mutual
/-- The text of a value that stands at a depth of nesting. -/
def write (style : JsonStyle) (depth : Nat) : JsonValue → List Char
  | .null => ['n', 'u', 'l', 'l']
  | .bool true => ['t', 'r', 'u', 'e']
  | .bool false => ['f', 'a', 'l', 's', 'e']
  | .number d => writeNumber d
  | .string text => quote text
  | .array [] => ['[', ']']
  | .array (item :: items) =>
    '[' :: style.newline (depth + 1) ++ write style (depth + 1) item ++
      writeItems style (depth + 1) items ++ style.newline depth ++ [']']
  | .object [] => ['\x7b', '\x7d']
  | .object ((name, value) :: members) =>
    '\x7b' :: style.newline (depth + 1) ++ quote name ++ style.colon ++
      write style (depth + 1) value ++ writeMembers style (depth + 1) members ++
      style.newline depth ++ ['\x7d']

/-- The texts of the items of an array behind the first one. -/
def writeItems (style : JsonStyle) (depth : Nat) : List JsonValue → List Char
  | [] => []
  | item :: items =>
    ',' :: style.newline depth ++ write style depth item ++ writeItems style depth items

/-- The texts of the members of an object behind the first one. -/
def writeMembers (style : JsonStyle) (depth : Nat) : List (String × JsonValue) → List Char
  | [] => []
  | (name, value) :: members =>
    ',' :: style.newline depth ++ quote name ++ style.colon ++ write style depth value ++
      writeMembers style depth members
end

/-- The text of a value. -/
def render (style : JsonStyle) (v : JsonValue) : String := String.ofList (v.write style 0)

end JsonValue

end BareCallGraph
