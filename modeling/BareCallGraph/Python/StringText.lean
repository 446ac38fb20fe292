import BareCallGraph.Python.Number

/-!
# Text of strings

What may stand between the quotes of a string. A `Delimiter` says how the string was opened, and
`Delimiter.piece` cuts the next piece off its text: plain content, or the closing quotes. Escapes and
interpolations are pieces of their own and end the content before them.
-/

namespace BareCallGraph.Python

/-- How a string was opened. -/
structure Delimiter where
  /-- The quote. -/
  quote : Char
  /-- Whether it is written three times. -/
  triple : Bool
  /-- Whether backslashes stand for themselves. -/
  raw : Bool
  /-- Whether the string is one of bytes. -/
  bytes : Bool
  /-- Whether braces hold interpolations. -/
  formatted : Bool
deriving DecidableEq, Repr, Inhabited

/-- The next piece of a string's text. -/
inductive StringPiece where
  /-- So many characters of content. -/
  | content (length : Nat)
  /-- So many characters up to and including the closing quotes. -/
  | closing (length : Nat)
  /-- Neither; what stands here is not for this string to say. -/
  | other
  /-- The text ends after so many characters without a closing quote. -/
  | unclosed (length : Nat)
deriving DecidableEq, Repr, Inhabited

namespace Delimiter

/-- How many characters a backslash of a raw string takes with it: a quote or backslash, and then a
line end. -/
def rawEscape (d : Delimiter) (cs : List Char) : Nat :=
  let quoted := suffixLength [d.quote, '\\'] cs
  let lineEnd := match cs.drop quoted with
    | '\r' :: '\n' :: _ => 2
    | '\r' :: _ => 1
    | '\n' :: _ => 1
    | _ => 0
  quoted + lineEnd

/-- The next piece, when `length` characters of it are already known, `filled` says whether content
is among them, and `skip` more belong to it whatever they are. -/
def pieceFrom (d : Delimiter) (filled : Bool) (length : Nat) : (skip : Nat) → List Char → StringPiece
  | _, [] => .unclosed length
  | skip + 1, _ :: cs => d.pieceFrom filled (length + 1) skip cs
  | 0, c :: cs =>
    let stop : StringPiece := if filled then .content length else .other
    if c = '\x00' then .unclosed length
    else if d.formatted && (c = '\x7b' || c = '\x7d') then stop
    else if c = '\\' then
      if d.raw then d.pieceFrom filled (length + 1) (d.rawEscape cs) cs
      else if d.bytes && suffixLength ['N', 'u', 'U'] cs = 1 then d.pieceFrom true (length + 1) 2 cs
      else stop
    else if c = d.quote then
      if !d.triple then if filled then .content length else .closing (length + 1)
      else match cs with
        | c₁ :: c₂ :: _ =>
          if c₁ ≠ d.quote then .content (length + 1)
          else if c₂ ≠ d.quote then .content (length + 2)
          else if filled then .content length else .closing (length + 3)
        | [c₁] => .content (if c₁ = d.quote then length + 2 else length + 1)
        | [] => .content (length + 1)
    else if c = '\n' && filled && !d.triple then .other
    else d.pieceFrom true (length + 1) 0 cs

/-- The next piece of a string's text. -/
def piece (d : Delimiter) (cs : List Char) : StringPiece := d.pieceFrom false 0 0 cs

/-- The delimiter with what a letter before the quotes says, if it is one of these letters. -/
def withLetter? (d : Delimiter) (c : Char) : Option Delimiter :=
  match c with
  | 'f' | 'F' => some { d with formatted := true }
  | 'r' | 'R' => some { d with raw := true }
  | 'b' | 'B' => some { d with bytes := true }
  | 'u' | 'U' => some d
  | _ => none

/-- The opening of a string and its length, when `length` letters of it are already read. -/
def openingFrom (d : Delimiter) (length : Nat) : List Char → Option (Delimiter × Nat)
  | [] => none
  | c :: cs =>
    match d.withLetter? c with
    | some d => d.openingFrom (length + 1) cs
    | none =>
      if c = '\x60' then some ({ d with quote := c }, length + 1)
      else if c = '\x27' || c = '\x22' then
        if cs.take 2 = [c, c] then some ({ d with quote := c, triple := true }, length + 3)
        else some ({ d with quote := c }, length + 1)
      else none

/-- The opening of a string and its length, if one stands here. -/
def opening? (cs : List Char) : Option (Delimiter × Nat) :=
  openingFrom ⟨'\x22', false, false, false, false⟩ 0 cs

end Delimiter

/-- The length of a backslash and what it stands for; zero if it stands for itself. -/
def escapeLength : List Char → Nat
  | '\\' :: c :: cs =>
    let hex (n : Nat) : Nat :=
      if n ≤ cs.length && (cs.take n).all isHexDigit then 2 + n else 0
    match c with
    | 'u' => hex 4
    | 'U' => hex 8
    | 'x' => hex 2
    | 'N' =>
      match cs with
      | '\x7b' :: name =>
        let n := (name.takeWhile fun x => x != '\x7d' && x != '\x00').length
        if 0 < n && (name.drop n).head? == some '\x7d' then 4 + n else 0
      | _ => 0
    | '\r' => if cs.head? == some '\n' then 3 else 0
    | c =>
      if ['\n', '\x27', '\x22', 'a', 'b', 'f', 'r', 'n', 't', 'v', '\\'].contains c then 2
      else if c.isDigit && 2 ≤ cs.length && (cs.take 2).all Char.isDigit then 4
      else 0
  | _ => 0

end BareCallGraph.Python
