/-!
# Numbers

How many of the next characters form a number. Digits may be grouped by single underscores, a decimal
group may even end in one, and the suffixes `L` of long and `j` of imaginary numbers are read. Each
length is that of the longest number at the place, and zero if there is none.
-/

namespace BareCallGraph.Python

/-- The length of a run of decimal digits, each of which one underscore may follow. -/
def decimalLength : List Char → Nat
  | [] => 0
  | [c] => if c.isDigit then 1 else 0
  | c :: '_' :: cs => if c.isDigit then 2 + decimalLength cs else 0
  | c :: cs => if c.isDigit then 1 + decimalLength cs else 0

/-- The length of a run of digits of the given kind, each of which one underscore may precede. -/
def groupedLength (isDigit : Char → Bool) : List Char → Nat
  | '_' :: c :: cs => if isDigit c then 2 + groupedLength isDigit cs else 0
  | c :: cs => if isDigit c then 1 + groupedLength isDigit cs else 0
  | [] => 0

/-- One if the next character is among the given ones, and zero otherwise. -/
def suffixLength (suffixes : List Char) (cs : List Char) : Nat :=
  match cs with
  | c :: _ => if suffixes.contains c then 1 else 0
  | [] => 0

/-- Whether a character is a hexadecimal digit. -/
def isHexDigit (c : Char) : Bool :=
  c.isDigit || ('a' ≤ c && c ≤ 'f') || ('A' ≤ c && c ≤ 'F')

/-- Which characters are digits behind `0x`, `0o` and `0b`. -/
def radixDigit? (c : Char) : Option (Char → Bool) :=
  match c with
  | 'x' | 'X' => some isHexDigit
  | 'o' | 'O' => some fun d => '0' ≤ d && d ≤ '7'
  | 'b' | 'B' => some fun d => d == '0' || d == '1'
  | _ => none

/-- The length of a whole number with a radix. -/
def radixLength : List Char → Nat
  | '0' :: c :: cs =>
    match radixDigit? c with
    | none => 0
    | some isDigit =>
      let n := groupedLength isDigit cs
      if n = 0 then 0 else 2 + n + suffixLength ['l', 'L'] (cs.drop n)
  | _ => 0

/-- The length of a whole number. -/
def integerLength (cs : List Char) : Nat :=
  let n := decimalLength cs
  let decimal := if n = 0 then 0 else n + suffixLength ['l', 'L', 'j', 'J'] (cs.drop n)
  max decimal (radixLength cs)

/-- The length of an exponent. -/
def exponentLength : List Char → Nat
  | c :: cs =>
    if c == 'e' || c == 'E' then
      let sign := suffixLength ['+', '-'] cs
      let n := decimalLength (cs.drop sign)
      if n = 0 then 0 else 1 + sign + n
    else 0
  | [] => 0

/-- The length of a number with a point or an exponent. -/
def floatLength (cs : List Char) : Nat :=
  let whole := decimalLength cs
  let rest := cs.drop whole
  let n :=
    match rest with
    | '.' :: after =>
      let fraction := decimalLength after
      if whole = 0 && fraction = 0 then 0
      else whole + 1 + fraction + exponentLength (after.drop fraction)
    | _ =>
      let exponent := exponentLength rest
      if whole = 0 || exponent = 0 then 0 else whole + exponent
  if n = 0 then 0 else n + suffixLength ['j', 'J'] (cs.drop n)

end BareCallGraph.Python
