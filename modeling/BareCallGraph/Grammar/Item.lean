import BareCallGraph.Grammar.Rule
import Std.Data.HashMap

/-!
# Items

An `Item` is a production on its way: some of its symbols are passed and the others are still to
come. Of what is passed it keeps only what the finished phrase needs, so that productions which
differ only behind the dot become one item. A `Catalogue` numbers all items of a grammar and holds
what building tables asks about them again and again: which terminals a symbol can start with, and
which phrases may open where another one does.
-/

namespace BareCallGraph.Grammar

/-- A set of terminals, as the number whose bits are its members. -/
abbrev TerminalSet := Nat

namespace TerminalSet

/-- The set of one terminal. -/
def single (t : Nat) : TerminalSet := 1 <<< t

/-- The members of either set. -/
def union (a b : TerminalSet) : TerminalSet := a ||| b

/-- Whether a terminal is a member. -/
def mem (a : TerminalSet) (t : Nat) : Bool := a.testBit t

end TerminalSet

/-- A production of which some symbols are passed. -/
structure Item where
  /-- The nonterminal that the production belongs to. -/
  head : Nat
  /-- The marks of the symbols passed. -/
  passed : List Mark
  /-- The weight of the production. -/
  weight : Int
  /-- The rank of the last symbol passed. -/
  rank : Int
  /-- The side of the last symbol passed. -/
  side : Option Side
  /-- The symbols to come. -/
  rest : List Step
deriving DecidableEq, Hashable, Repr, Inhabited

namespace Item

/-- A production of which nothing is passed. -/
def ofProduction (p : Production) : Item := ⟨p.head, [], p.weight, 0, none, p.steps⟩

/-- The item behind a step. -/
def past (i : Item) (s : Step) (rest : List Step) : Item :=
  { i with passed := i.passed ++ [s.mark], rank := s.rank.getD 0, side := s.side, rest := rest }

/-- The next symbol and the item behind it. -/
def next? (i : Item) : Option (Symbol × Item) :=
  match i.rest with
  | [] => none
  | s :: rest => some (s.symbol, i.past s rest)

/-- The item and all that come after it, until every symbol is passed. -/
def stages (i : Item) : List Step → List Item
  | [] => [i]
  | s :: rest => i :: (i.past s rest).stages rest

/-- Items with fewer symbols passed come first, then those of earlier nonterminals. -/
def precedes (i j : Item) : Bool :=
  i.passed.length < j.passed.length || (i.passed.length == j.passed.length && i.head ≤ j.head)

end Item

/-- The items of a list, each once, in order of first appearance. -/
def distinct (items : List Item) : List Item :=
  let (kept, _) := items.foldl (fun (kept, seen) i =>
    if seen.contains i then (kept, seen) else (i :: kept, seen.insert i ()))
    (([] : List Item), (∅ : Std.HashMap Item Unit))
  kept.reverse

/-- Repeats a step until it changes nothing, at most `limit` times. -/
def saturate {α : Type} [BEq α] (step : α → α) : Nat → α → α
  | 0, a => a
  | limit + 1, a =>
    let b := step a
    if b == a then a else saturate step limit b

/-- The terminals that a symbol can start with, given those of the nonterminals. -/
def firstOf (first : Array TerminalSet) : Symbol → TerminalSet
  | .terminal t => .single t
  | .nonterminal n => first.getD n 0

/-- The terminals that each nonterminal can start with. -/
def firstSets (count : Nat) (productions : List Production) : Array TerminalSet :=
  let pass (first : Array TerminalSet) : Array TerminalSet :=
    productions.foldl (fun first p =>
      match p.steps with
      | [] => first
      | s :: _ => first.modify p.head (TerminalSet.union (firstOf first s.symbol))) first
  saturate pass (count + 1) (Array.replicate count 0)

/-- What may follow a phrase that opens where an outer one does. -/
structure Opening where
  /-- Terminals that may follow it in any case. -/
  fixed : TerminalSet
  /-- Whether whatever may follow the outer phrase may follow it too. -/
  inherits : Bool
deriving DecidableEq, Repr, Inhabited

/-- What may follow in either of two cases. -/
def Opening.union (a b : Opening) : Opening := ⟨a.fixed ||| b.fixed, a.inherits || b.inherits⟩

/-- A production that starts with a phrase: its nonterminal, that of the phrase, and the terminals
that may follow the phrase inside the production, if anything does. -/
structure Corner where
  /-- The nonterminal of the production. -/
  outer : Nat
  /-- The nonterminal it starts with. -/
  inner : Nat
  /-- The terminals that the rest of the production can start with, if there is a rest. -/
  follow : Option TerminalSet
deriving DecidableEq, Repr, Inhabited

/-- The productions that start with a phrase. -/
def corners (first : Array TerminalSet) (productions : List Production) : List Corner :=
  (productions.filterMap fun p =>
    match p.steps with
    | ⟨.nonterminal n, _, _, _⟩ :: rest =>
      some ⟨p.head, n, rest.head?.map fun s => firstOf first s.symbol⟩
    | _ => none).eraseDups

/-- The phrases that may open where the phrase `n` does, `n` among them. -/
def openings (count : Nat) (corners : List Corner) (n : Nat) : List (Nat × Opening) :=
  let pass (reached : Array (Option Opening)) : Array (Option Opening) :=
    corners.foldl (fun reached c =>
      match reached.getD c.outer none with
      | none => reached
      | some o =>
        let gain : Opening := match c.follow with
          | some set => ⟨set, false⟩
          | none => o
        reached.modify c.inner fun known => some ((known.getD ⟨0, false⟩).union gain)) reached
  let start := (Array.replicate count none).modify n fun _ => some ⟨0, true⟩
  (saturate pass (count + 1) start).toList.zipIdx.filterMap fun (o, i) => o.map (i, ·)

/-- An item with what is asked about it. -/
structure Entry where
  /-- The item itself. -/
  item : Item
  /-- The next symbol, if one is to come. -/
  next : Option Symbol
  /-- The number of the item behind the next symbol. -/
  successor : Nat
  /-- The terminals that may follow the next symbol inside the item, if anything does. -/
  follow : Option TerminalSet
deriving Repr, Inhabited

/-- All items of a grammar by number, and what is asked about them. -/
structure Catalogue where
  /-- How many terminals there are. -/
  terminalCount : Nat
  /-- How many nonterminals there are, repetitions and the one around the whole text included. -/
  nonterminalCount : Nat
  /-- The items, those with fewer symbols passed first. -/
  entries : Array Entry
  /-- The items of each nonterminal of which nothing is passed. -/
  initial : Array (List Nat)
  /-- The phrases that may open where a phrase does. -/
  opens : Array (List (Nat × Opening))
  /-- The terminals that each nonterminal can start with. -/
  first : Array TerminalSet
  /-- The number of the item from which a whole text is read. -/
  start : Nat
deriving Inhabited

/-- The catalogue of a grammar. One more nonterminal, behind all others, stands for the whole text:
its only production is the phrase `start`. -/
def Catalogue.ofProductions (terminalCount nonterminalCount start : Nat)
    (productions : List Production) : Catalogue :=
  let whole : Production := ⟨nonterminalCount, [{ symbol := .nonterminal start }], 0⟩
  let count := nonterminalCount + 1
  let productions := productions ++ [whole]
  let first := firstSets count productions
  let initials := productions.map Item.ofProduction
  let stages := initials.flatMap fun i => i.stages i.rest
  let items := (distinct stages).mergeSort Item.precedes
  let numbers : Std.HashMap Item Nat := items.zipIdx.foldl (fun m (i, k) => m.insert i k) ∅
  let number (i : Item) : Nat := numbers.getD i 0
  let entry (i : Item) : Entry :=
    match i.next? with
    | none => ⟨i, none, 0, none⟩
    | some (s, j) => ⟨i, some s, number j, j.rest.head?.map fun r => firstOf first r.symbol⟩
  let corners := corners first productions
  { terminalCount := terminalCount
    nonterminalCount := count
    entries := (items.map entry).toArray
    initial := initials.foldl (fun table i => table.modify i.head (number i :: ·))
      (Array.replicate count [])
    opens := ((List.range count).map (openings count corners)).toArray
    first := first
    start := number (.ofProduction whole) }

end BareCallGraph.Grammar
