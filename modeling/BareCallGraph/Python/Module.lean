import BareCallGraph.Python.Lexer
import BareCallGraph.SyntaxTree.Faults

/-!
# Syntax trees of Python modules

`syntaxTree` reads a source text. A text that the grammar accepts gives its tree; any other text gives
what could be read of it and an error node at the place where reading got stuck.

Which texts are refused is what the grammar says. The place of the error in a refused text is not: a
parser that mends faults and goes on may put it elsewhere, and `failure` follows such a parser for compound
statements only. For instance `c.` before a string is reported here where the string starts.
-/

namespace BareCallGraph.Python

open Grammar (Derivation Mark Outcome Table Token)

/-- The table of the grammar. It has somewhat more than six thousand states. -/
def table : Table Terminal := Table.ofDefinition grammar 16384

/-- How each phrase is shown, by the number of its nonterminal. -/
def phraseKinds : Array (Option Kind) := (Nonterminal.all.map Nonterminal.kind?).toArray

/-- How a token is shown: as its rule says, or else as tokens of its kind are. -/
def leafKind? (mark : Mark) (token : Token Terminal) : Option Kind :=
  mark.kind <|> token.terminal.kind?

/-- How a phrase is shown, when terminals have the numbers below `terminals`. -/
def phraseKind? (terminals : Nat) (mark : Mark) (symbol : Nat) : Option Kind :=
  mark.kind <|> phraseKinds.getD (symbol - terminals) none

mutual
/-- The nodes that a derivation is shown as, before those of `later`. A phrase that is not shown gives
the nodes of its parts, and these play the part it plays. -/
def shownOnto (terminals : Nat) (mark : Mark) (later : List SyntaxTree) :
    Derivation Terminal → List SyntaxTree
  | .leaf _ token _ =>
    match leafKind? mark token with
    | some kind => .node kind mark.role token.start (String.ofList token.text) [] :: later
    | none => later
  | .phrase symbol _ start _ parts =>
    match phraseKind? terminals mark symbol with
    | some kind => .node kind mark.role start "" (shownAllOnto terminals none [] parts) :: later
    | none => shownAllOnto terminals mark.role later parts

/-- The nodes that the parts of a phrase are shown as, before those of `later`. -/
def shownAllOnto (terminals : Nat) (role : Option Role) (later : List SyntaxTree) :
    List (Mark × Derivation Terminal) → List SyntaxTree
  | [] => later
  | (mark, part) :: parts =>
    shownOnto terminals { mark with role := mark.role <|> role }
      (shownAllOnto terminals role later parts) part
end

/-- The words that start a compound statement and are never names in well-formed text. -/
def compoundWords : List String := ["class", "def", "for", "if", "try", "while", "with"]

/-- Whether a derivation is one of the given words read as a name. -/
def isNameAmong (words : List String) : Derivation Terminal → Bool
  | .leaf _ token _ => token.terminal == .identifier && words.contains (String.ofList token.text)
  | .phrase _ _ _ _ _ => false

/-- Whether a derivation is a colon or a semicolon, behind which a line may go on with a simple
statement only. -/
def isWithinLine : Derivation Terminal → Bool
  | .leaf _ token _ => token.text == [':'] || token.text == [';']
  | .phrase _ _ _ _ _ => false

/-- What was read of a text that was not accepted, and where it is said to fail. A compound statement that
stands where only a simple one may has its first word read as a name, and reading gets stuck right behind
it; that word is then the failure. Everywhere else it is the place where reading got stuck, which need not
be where a parser that mends faults sees the first one. -/
def failure (trail : List (Derivation Terminal)) (here : Position) :
    List (Derivation Terminal) × Position :=
  match trail.reverse with
  | word :: before :: _ =>
    if isNameAmong compoundWords word && isWithinLine before then (trail.dropLast, word.start)
    else (trail, here)
  | _ => (trail, here)

/-- The tree that the outcome of reading a text stands for. -/
def treeOf (terminals : Nat) : Outcome Terminal → SyntaxTree
  | .accepted whole =>
    .node .module none whole.start "" (shownAllOnto terminals none [] whole.parts)
  | .rejected trail here =>
    let (trail, here) := failure trail here
    let error := SyntaxTree.node .error none here "" []
    .node .module none .start "" (shownAllOnto terminals none [error] (trail.map ({}, ·)))

/-- The cursor at the start of a source text. A byte order mark is skipped. -/
def startOf (source : String) : Cursor :=
  let cursor := Cursor.ofString source
  if cursor.rest.head? == some '\ufeff' then cursor.skip 1 else cursor

/-- The syntax tree of a source text. -/
def syntaxTree (source : String) : SyntaxTree :=
  treeOf table.numbers.size (table.read lexer .start (startOf source))

end BareCallGraph.Python
