import BareCallGraph.Grammar.Item

/-!
# Reading tables

A `Table` drives the reading of a text: a state and the next terminal give the `Moves` that are
possible. States are sets of items, each with the terminals that may follow its phrase; they are kept
apart whenever these differ, so a state accepts a terminal only where the grammar does.

Where a phrase could either be closed or go on, ranks decide, and then sides (`Moves.settle`). Where
they do not, all moves stay in the table and a reader follows each.
-/

namespace BareCallGraph.Grammar

/-- Closing a phrase. -/
structure Reduction where
  /-- The nonterminal of the phrase. -/
  head : Nat
  /-- What the reading gains. -/
  weight : Int
  /-- How each part of the phrase is shown; there are as many marks as parts. -/
  marks : List Mark
deriving DecidableEq, Repr, Inhabited

/-- What is possible in a state on a terminal. -/
structure Moves where
  /-- The phrases that can be closed, those with fewer parts first. -/
  reductions : List Reduction := []
  /-- The state after taking the terminal, if it can be taken. -/
  shift : Option Nat := none
  /-- Whether the text ends here. -/
  accepts : Bool := false
deriving DecidableEq, Repr, Inhabited

/-- Whether nothing is possible. -/
def Moves.isEmpty (m : Moves) : Bool :=
  m.reductions.isEmpty && m.shift.isNone && !m.accepts

/-- A state of the table. -/
structure Row where
  /-- The moves on each terminal. -/
  moves : Array Moves
  /-- The state after closing a phrase that was opened here. -/
  gotos : Array Nat
deriving Inhabited

/-- The items that a state is made of, each with the terminals that may follow its phrase, in
ascending order of the items' numbers. -/
abbrev Kernel := List (Nat × TerminalSet)

/-- Adds an item to a kernel. -/
def Kernel.insert (item : Nat) (follow : TerminalSet) : Kernel → Kernel
  | [] => [(item, follow)]
  | (i, f) :: rest =>
    if item < i then (item, follow) :: (i, f) :: rest
    else if item = i then (i, f ||| follow) :: rest
    else (i, f) :: insert item follow rest

namespace Catalogue

variable (c : Catalogue)

/-- The terminals that may follow each phrase that opens in a state; none for a phrase that does
not open there. -/
def opened (kernel : Kernel) : Array TerminalSet :=
  kernel.foldl (fun sets (i, follow) =>
    let e := c.entries.getD i default
    match e.next with
    | some (.nonterminal n) =>
      let outer := e.follow.getD follow
      (c.opens.getD n []).foldl (fun sets (m, o) =>
        sets.modify m fun s => s ||| o.fixed ||| (if o.inherits then outer else 0)) sets
    | _ => sets) (Array.replicate c.nonterminalCount 0)

/-- All items of a state: those of its kernel and those of the phrases that open there. -/
def items (kernel : Kernel) : List (Nat × TerminalSet) :=
  kernel ++ (c.opened kernel).toList.zipIdx.flatMap fun (follow, n) =>
    if follow = 0 then [] else (c.initial.getD n []).map (·, follow)

/-- The place of a symbol among all symbols, terminals first. -/
def place : Symbol → Nat
  | .terminal t => t
  | .nonterminal n => c.terminalCount + n

/-- The kernels that each symbol leads to. -/
def successors (items : List (Nat × TerminalSet)) : Array Kernel :=
  items.foldl (fun kernels (i, follow) =>
    let e := c.entries.getD i default
    match e.next with
    | some s => kernels.modify (c.place s) (Kernel.insert e.successor follow)
    | none => kernels) (Array.replicate (c.terminalCount + c.nonterminalCount) [])

/-- The items of a state whose phrase can be closed before the terminal `t`. -/
def closable (items : List (Nat × TerminalSet)) (t : Nat) : List Item :=
  items.filterMap fun (i, follow) =>
    let e := c.entries.getD i default
    if e.next.isNone && TerminalSet.mem follow t then some e.item else none

/-- The items of a kernel that go on with the terminal `t`. -/
def continued (kernel : Kernel) (t : Nat) : List Item :=
  kernel.filterMap fun (i, _) =>
    let e := c.entries.getD i default
    match e.next with
    | some s =>
      if !e.item.passed.isEmpty && TerminalSet.mem (firstOf c.first s) t then some e.item else none
    | none => none

/-- The reduction of an item of which every symbol is passed. -/
def reduction (i : Item) : Reduction := ⟨i.head, i.weight, i.passed⟩

end Catalogue

/-- Whether closing, going on or both are kept when a phrase could be closed and another one could
go on. A higher rank wins. Where ranks are equal, a phrase that groups to the left is closed and one
that groups to the right goes on. -/
structure Verdict where
  /-- Closing is kept. -/
  closes : Bool
  /-- Going on is kept. -/
  continues : Bool
deriving DecidableEq, Repr, Inhabited

/-- The verdict between closing items of one rank and items that go on. -/
def Verdict.between (rank : Int) (closing continuing : List Item) : Verdict :=
  let higher := continuing.any (rank < ·.rank)
  let lower := continuing.any (·.rank < rank)
  if higher && !lower then ⟨false, true⟩
  else if lower && !higher then ⟨true, false⟩
  else if higher then ⟨true, true⟩
  else if closing.all (·.side == some .left) then ⟨true, false⟩
  else if closing.all (·.side == some .right) then ⟨false, true⟩
  else ⟨true, true⟩

/-- The moves on a terminal, given the items whose phrase can be closed, the items that go on with
it, and the state that taking it leads to. Of several phrases only those of the highest rank are
closed. Closing the phrase `whole` ends the text. -/
def Moves.settle (whole : Nat) (closing continuing : List Item) (shift : Option Nat) : Moves :=
  match closing with
  | [] => { shift := shift }
  | i :: is =>
    let rank := is.foldl (fun r j => max r j.rank) i.rank
    let closing := closing.filter (·.rank == rank)
    let verdict := if shift.isNone then ⟨true, false⟩ else Verdict.between rank closing continuing
    let (final, closed) := (if verdict.closes then closing else []).partition (·.head == whole)
    { reductions := closed.map Catalogue.reduction
      shift := if verdict.continues then shift else none
      accepts := !final.isEmpty }

/-- A table under construction: the states found so far and the rows of the first of them. -/
structure Build where
  /-- The kernels of the states found so far. -/
  kernels : Array Kernel
  /-- The number of each state found so far. -/
  numbers : Std.HashMap Kernel Nat
  /-- The finished rows. -/
  rows : Array Row
deriving Inhabited

namespace Build

/-- The number of the state with the given kernel, which is added if it is new. -/
def intern (b : Build) (kernel : Kernel) : Nat × Build :=
  match b.numbers[kernel]? with
  | some n => (n, b)
  | none =>
    let n := b.kernels.size
    (n, { b with kernels := b.kernels.push kernel, numbers := b.numbers.insert kernel n })

/-- The numbers of the states that the symbols lead to; states not seen before are added. -/
def internAll (b : Build) (kernels : Array Kernel) : Array (Option Nat) × Build :=
  kernels.foldl (fun (targets, b) kernel =>
    if kernel.isEmpty then (targets.push none, b)
    else
      let (n, b) := b.intern kernel
      (targets.push (some n), b)) (Array.mkEmpty kernels.size, b)

/-- Adds the row of the state with the given kernel. -/
def addRow (c : Catalogue) (b : Build) (kernel : Kernel) : Build :=
  let items := c.items kernel
  let (targets, b) := b.internAll (c.successors items)
  let closed := items.filter fun (i, _) => (c.entries.getD i default).next.isNone
  let moves (t : Nat) : Moves :=
    let closing := c.closable closed t
    let continuing := if closing.isEmpty then [] else c.continued kernel t
    Moves.settle (c.nonterminalCount - 1) closing continuing (targets.getD t none)
  let row : Row :=
    { moves := ((List.range c.terminalCount).map moves).toArray
      gotos := ((List.range c.nonterminalCount).map fun n =>
        (targets.getD (c.terminalCount + n) none).getD 0).toArray }
  { b with rows := b.rows.push row }

/-- Adds rows until every state found has one, at most `limit` of them. -/
def grow (c : Catalogue) : Nat → Build → Build
  | 0, b => b
  | limit + 1, b =>
    match b.kernels[b.rows.size]? with
    | none => b
    | some kernel => grow c limit (b.addRow c kernel)

end Build

/-- The table of a grammar over the terminals `T`. Reading starts in state zero. -/
structure Table (T : Type) [BEq T] [Hashable T] where
  /-- The number of each terminal. -/
  numbers : Std.HashMap T Nat
  /-- The rows of the states. -/
  rows : Array Row

namespace Table

variable {T N : Type} [BEq T] [Hashable T] [BEq N]

/-- The table of a grammar, with at most `limit` states. -/
def ofDefinition (g : Definition T N) (limit : Nat) : Table T :=
  let code := g.coding
  let terminals := g.terminals
  let c := Catalogue.ofProductions terminals.length
    (g.nonterminals.length + g.repetitions.length) (code.nonterminal g.start) g.productions
  let final := TerminalSet.single (code.terminal g.final)
  let start : Build := (Build.intern ⟨#[], ∅, #[]⟩ [(c.start, final)]).2
  { numbers := terminals.zipIdx.foldl (fun m (t, n) => m.insert t n) ∅
    rows := (start.grow c limit).rows }

/-- The moves in a state on a terminal. -/
def moves (table : Table T) (state : Nat) (t : T) : Moves :=
  match table.numbers[t]? with
  | none => {}
  | some n => ((table.rows.getD state default).moves).getD n {}

/-- Whether a terminal can come next in a state. -/
def accepts (table : Table T) (state : Nat) (t : T) : Bool := !(table.moves state t).isEmpty

/-- The state after closing a phrase that was opened in the given state. -/
def goto (table : Table T) (state head : Nat) : Nat :=
  ((table.rows.getD state default).gotos).getD head 0

end Table

end BareCallGraph.Grammar
