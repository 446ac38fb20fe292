import BareCallGraph.SyntaxTree.Basic

/-!
# Terminals of Python

The kinds of token that the grammar of Python is written with. Keywords and operators are terminals
by their spelling. Line ends and indentation are terminals without text of their own.
-/

namespace BareCallGraph.Python

/-- A kind of token. -/
inductive Terminal where
  /-- A word that is not read as a keyword. -/
  | identifier
  /-- A keyword or an operator, by its spelling. -/
  | literal (spelling : String)
  /-- A whole number. -/
  | integer
  /-- A number with a point or an exponent. -/
  | float
  /-- `!r` and the like, before the end of an interpolation. -/
  | conversion
  /-- Text of a format specifier. -/
  | formatText
  /-- A backslash and what it stands for. -/
  | escapeSequence
  /-- A backslash that stands for itself. -/
  | backslash
  /-- The letters and quotes before a string. -/
  | stringStart
  /-- Text inside a string. -/
  | stringContent
  /-- A doubled brace in a formatted string. -/
  | escapedBrace
  /-- The quotes behind a string. -/
  | stringEnd
  /-- The end of a logical line. -/
  | newline
  /-- A step to the right. -/
  | indent
  /-- A step back to the left. -/
  | dedent
  /-- From a number sign to the end of the line. -/
  | comment
  /-- A backslash before a line feed. -/
  | lineContinuation
  /-- The end of the text. -/
  | endOfText
deriving DecidableEq, Hashable, Repr, Inhabited

namespace Terminal

/-- Comments and line continuations may stand between any two tokens. -/
def isExtra : Terminal → Bool
  | .comment | .lineContinuation => true
  | _ => false

/-- How a token is shown in a tree. Line ends, indentation and the pieces of a string's text are
not shown. -/
def kind? : Terminal → Option Kind
  | .identifier => some .name
  | .literal _ => some .token
  | .comment => some .comment
  | .lineContinuation => some .lineContinuation
  | .newline | .indent | .dedent | .endOfText | .stringContent | .backslash => none
  | _ => some .other

end Terminal

end BareCallGraph.Python
