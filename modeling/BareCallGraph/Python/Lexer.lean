import BareCallGraph.Grammar.Reader
import BareCallGraph.Python.Grammar
import BareCallGraph.Python.Layout
import BareCallGraph.Text.Identifier

/-!
# Tokens of Python

`lexer` finds the next token at a place. Layout and open strings come first; after that blank space
is skipped and the longest token that the grammar accepts is taken. A word is a keyword only where the
grammar accepts that keyword, and a name everywhere else.
-/

namespace BareCallGraph.Python

open Grammar (Lexer Lexeme Token)

/-- Whether a character is blank space between tokens. -/
def isBlank (c : Char) : Bool :=
  [' ', '\t', '\n', '\r', '\x0b', '\x0c', '\ufeff', '\u2060', '\u200b'].contains c

/-- The spelling of a terminal that is neither a word nor free text. -/
def Terminal.operator? : Terminal → Option (List Char)
  | .literal spelling =>
    if spelling.toList.all Text.isIdentifierPart then none else some spelling.toList
  | _ => none

/-- All operators, with their spellings. -/
def operators : List (Terminal × List Char) :=
  grammar.terminals.filterMap fun t => t.operator?.map (t, ·)

/-- A token that may stand at a place, and what speaks for it. -/
structure Candidate where
  /-- What kind of token it is. -/
  terminal : Terminal
  /-- How many characters come before it. -/
  skipped : Nat
  /-- How many characters it has. -/
  length : Nat
  /-- Whether it is read as it is even where a longer token would do. -/
  urgent : Bool
deriving Repr, Inhabited

namespace Candidate

/-- Whether a candidate is taken rather than an earlier one: an urgent one before others, and
otherwise the one that reaches further. -/
def beats (a b : Candidate) : Bool :=
  if a.urgent = b.urgent then b.skipped + b.length < a.skipped + a.length else a.urgent

/-- The best of several candidates, the earliest of equally good ones. -/
def best? : List Candidate → Option Candidate
  | [] => none
  | c :: cs => some (cs.foldl (fun best d => if d.beats best then d else best) c)

/-- A candidate of a kind, if the grammar accepts it and it has a character at all. -/
def ofLength (accepts : Terminal → Bool) (t : Terminal) (skipped length : Nat) : List Candidate :=
  if 0 < length && accepts t then [⟨t, skipped, length, false⟩] else []

/-- The candidate as an urgent one. -/
def asUrgent (c : Candidate) : Candidate := { c with urgent := true }

end Candidate

section

variable (accepts : Terminal → Bool)

/-- The text of a format at a place: all but braces up to the end of the line. Line feeds before it are
skipped. -/
def formatCandidate (cs : List Char) : List Candidate :=
  if accepts .formatText then
    let lines := (cs.takeWhile (· == '\n')).length
    let text := (cs.drop lines).takeWhile fun c =>
      c != '\x7b' && c != '\x7d' && c != '\n' && c != '\x00'
    Candidate.ofLength accepts .formatText lines text.length
  else []

/-- What may stand right at a place inside a string, without blank space before it. -/
def textCandidates (cs : List Char) : List Candidate :=
  (Candidate.ofLength accepts .escapeSequence 0 (escapeLength cs) ++
      formatCandidate accepts cs).map Candidate.asUrgent ++
    Candidate.ofLength accepts .backslash 0 (if cs.head? == some '\\' then 1 else 0)

/-- The word at a place: a keyword where the grammar accepts it, and a name otherwise. -/
def wordCandidate (skipped : Nat) (cs : List Char) : List Candidate :=
  let n := Text.identifierLength cs
  let keyword : Terminal := .literal (String.ofList (cs.take n))
  if n = 0 then [] else [⟨if accepts keyword then keyword else .identifier, skipped, n, false⟩]

/-- The operators at a place. -/
def operatorCandidates (skipped : Nat) (cs : List Char) : List Candidate :=
  operators.flatMap fun (t, spelling) =>
    if spelling.isPrefixOf cs then Candidate.ofLength accepts t skipped spelling.length else []

/-- The length of a comment. As everywhere, a null character ends it. -/
def commentLength (cs : List Char) : Nat :=
  match cs with
  | '#' :: _ => (cs.takeWhile fun c => c != '\n' && c != '\x00').length
  | _ => 0

/-- The length of a line continuation: a backslash with a line end, or a null character, behind it. -/
def continuationLength : List Char → Nat
  | '\\' :: '\n' :: _ => 2
  | '\\' :: '\x00' :: _ => 2
  | '\\' :: '\r' :: '\n' :: _ => 3
  | _ => 0

/-- The length of `!` and the letter behind it. -/
def conversionLength : List Char → Nat
  | '!' :: c :: _ => if 'a' ≤ c && c ≤ 'z' then 2 else 0
  | _ => 0

/-- What may stand behind the blank space at a place. -/
def plainCandidates (skipped : Nat) (cs : List Char) : List Candidate :=
  wordCandidate accepts skipped cs ++ operatorCandidates accepts skipped cs ++
    Candidate.ofLength accepts .integer skipped (integerLength cs) ++
    Candidate.ofLength accepts .float skipped (floatLength cs) ++
    Candidate.ofLength accepts .conversion skipped (conversionLength cs) ++
    Candidate.ofLength (fun _ => true) .comment skipped (commentLength cs) ++
    Candidate.ofLength (fun _ => true) .lineContinuation skipped (continuationLength cs)

/-- The token at a place that neither layout nor an open string determines. -/
def plainToken? (mode : Mode) (cs : List Char) : Option Found :=
  let skipped := (cs.takeWhile isBlank).length
  let rest := cs.drop skipped
  match Candidate.best? (textCandidates accepts cs ++ plainCandidates accepts skipped rest) with
  | some c => some ⟨c.terminal, c.skipped, c.length, mode⟩
  | none => if rest.isEmpty && accepts .endOfText then some ⟨.endOfText, skipped, 0, mode⟩ else none

end

/-- The next token at a cursor; where there is none, the place behind the blank space. -/
def lexer : Lexer Terminal Mode := fun accepts mode cursor =>
  match contextToken? accepts mode cursor.rest <|> plainToken? accepts mode cursor.rest with
  | none => .error (cursor.skip (cursor.rest.takeWhile isBlank).length).position
  | some f =>
    let here := cursor.skip f.skipped
    .ok ⟨⟨f.terminal, here.take f.length, here.position⟩, here.skip f.length, f.mode,
      f.terminal.isExtra⟩

end BareCallGraph.Python
