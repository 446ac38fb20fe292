import BareCallGraph.Python.StringText
import BareCallGraph.Python.Terminal

/-!
# Layout

Line ends and indentation are tokens without text. Which of them stands at a place depends on what
the grammar accepts there: a line end inside brackets is none, and a step to the left closes a block
only where one is open. A `Mode` remembers the widths of the open blocks and the strings that are open.
-/

namespace BareCallGraph.Python

/-- What the tokens before a place leave open. -/
structure Mode where
  /-- The widths of the open blocks, the innermost first; the width of the module is last. -/
  indents : List Nat
  /-- The strings that are open, the innermost first. -/
  delimiters : List Delimiter
  /-- Whether the string opened last, if it is still open, is a formatted one. -/
  inFormatted : Bool
deriving DecidableEq, Repr, Inhabited

/-- At the start of a text only the module is open. -/
def Mode.start : Mode := ⟨[0], [], false⟩

/-- The width of the innermost block. -/
def Mode.width (m : Mode) : Nat := m.indents.headD 0

/-- The blank space before a token. -/
structure Margin where
  /-- How many characters it has. -/
  length : Nat
  /-- Whether a line, or the text, ends in it. -/
  endsLine : Bool
  /-- The width of the blanks before the token on its line. A tab counts eight. -/
  width : Nat
  /-- The width before the first comment in it, if there is one. -/
  comment : Option Nat
  /-- The text behind it. -/
  rest : List Char
deriving Repr, Inhabited

/-- Reads a margin on from what is already known of it; inside a comment everything up to the line
end belongs to it. Comments are skipped only if `comments` says so, and only on lines of their own:
one behind a token is for the lexer to read, and so is a stray backslash. -/
def Margin.readOn (comments : Bool) (inComment : Bool) (m : Margin) : List Char → Option Margin
  | [] => some { m with endsLine := true, width := 0, rest := [] }
  | c :: cs =>
    let next (inComment : Bool) (m : Margin) : Option Margin :=
      readOn comments inComment { m with length := m.length + 1 } cs
    if inComment then
      if c = '\n' || c = '\x00' then next false { m with width := 0 } else next true m
    else match c with
      | '\n' => next false { m with endsLine := true, width := 0 }
      | ' ' => next false { m with width := m.width + 1 }
      | '\t' => next false { m with width := m.width + 8 }
      | '\r' => next false { m with width := 0 }
      | '\x0c' => next false { m with width := 0 }
      | '#' =>
        if !comments then some { m with rest := c :: cs }
        else if m.endsLine then next true { m with comment := m.comment <|> some m.width }
        else none
      | '\\' =>
        match cs with
        | [] => next false m
        | '\n' :: cs => readOn comments false { m with length := m.length + 2 } cs
        | '\r' :: [] => readOn comments false { m with length := m.length + 2 } []
        | '\r' :: '\n' :: cs => readOn comments false { m with length := m.length + 3 } cs
        | _ => none
      | _ => some { m with rest := c :: cs }

/-- The margin before the next token. There is none before a comment behind a token and before a
stray backslash. -/
def Margin.read? (comments : Bool) (cs : List Char) : Option Margin :=
  readOn comments false ⟨0, false, 0, none, cs⟩ cs

/-- A token found at some distance from a cursor. -/
structure Found where
  /-- What kind of token it is. -/
  terminal : Terminal
  /-- How many characters come before it. -/
  skipped : Nat
  /-- How many characters it has. -/
  length : Nat
  /-- The mode behind it. -/
  mode : Mode
deriving Repr, Inhabited

section

variable (accepts : Terminal → Bool) (mode : Mode)

/-- Whether a closing bracket can come next. -/
def inBrackets : Bool :=
  accepts (.literal "]") || accepts (.literal ")") || accepts (.literal "\x7d")

/-- Whether a step to the left stands behind the margin. Where the grammar has no use for it, it is
still one, unless the line goes on there. Comments that are as wide as the block belong to it. -/
def dedents (m : Margin) : Bool :=
  let quoted := accepts .stringStart && (m.rest.head?.any fun c => ['\x22', '\x27', '\x60'].contains c)
  (accepts .dedent || (!accepts .newline && !quoted && !inBrackets accepts)) &&
    m.width < mode.width && !mode.inFormatted && (m.comment.all (· < mode.width))

/-- The line end or change of indentation behind the margin. -/
def lineToken? (m : Margin) : Option Found :=
  if !m.endsLine then none
  else if accepts .indent && mode.width < m.width then
    some ⟨.indent, 0, 0, { mode with indents := m.width :: mode.indents }⟩
  else if dedents accepts mode m then
    some ⟨.dedent, 0, 0, { mode with indents := mode.indents.tail }⟩
  else if accepts .newline then some ⟨.newline, 0, 0, mode⟩
  else none

/-- The opening of a string behind the margin. -/
def stringStart? (m : Margin) : Option Found :=
  if m.comment.isNone && accepts .stringStart then
    (Delimiter.opening? m.rest).map fun (d, n) =>
      ⟨.stringStart, m.length, n,
        { mode with delimiters := d :: mode.delimiters, inFormatted := d.formatted }⟩
  else none

/-- The token of layout, or the opening of a string, behind the blank space at a place. -/
def layoutToken? (cs : List Char) : Option Found := do
  let comments := accepts .indent || accepts .dedent || accepts .newline ||
    accepts (.literal "except")
  let m ← Margin.read? comments cs
  lineToken? accepts mode m <|> stringStart? accepts mode m

/-- Whether a doubled brace stands at a place. -/
def doubledBrace (cs : List Char) : Bool :=
  cs.take 2 == ['\x7b', '\x7b'] || cs.take 2 == ['\x7d', '\x7d']

/-- The token that layout or an open string determines at a place. -/
def contextToken? (cs : List Char) : Option Found :=
  match mode.delimiters with
  | [] => layoutToken? accepts mode cs
  | d :: outer =>
    if accepts .escapedBrace && d.formatted &&
        (cs.head? == some '\x7b' || cs.head? == some '\x7d') then
      if doubledBrace cs then some ⟨.escapedBrace, 0, 2, mode⟩ else none
    else if accepts .stringContent then
      match d.piece cs with
      | .content n => some ⟨.stringContent, 0, n, mode⟩
      | .closing n =>
        some ⟨.stringEnd, 0, n, { mode with delimiters := outer, inFormatted := false }⟩
      | .other => none
      | .unclosed n =>
        (layoutToken? accepts mode (cs.drop n)).map fun f => { f with skipped := f.skipped + n }
    else layoutToken? accepts mode cs

end

end BareCallGraph.Python
