import BareCallGraph.Grammar.Stack

/-!
# Reading a text with a table

`Table.read` reads a text in all ways that the table allows, each as a `Head` on top of the shared
stacks. Tokens are asked for one at a time, and what a token is may depend on what the state of the
asking head accepts. A head without a move is stuck; stuck heads are dropped as long as another one
goes on, and when none does the text is rejected where the first of them got stuck.

Heads that come to one state in one place are joined, so that of two readings of one phrase the
better one is kept (`Derivation.beats`).
-/

namespace BareCallGraph.Grammar

/-- A token and where reading goes on behind it. -/
structure Lexeme (T S : Type) where
  /-- The token. -/
  token : Token T
  /-- The text behind it. -/
  after : Cursor
  /-- The mode of the lexer behind it. -/
  mode : S
  /-- Whether it may stand between any two tokens. -/
  isExtra : Bool
deriving Inhabited

/-- Finds the next token, given which terminals are acceptable, the mode and the text. Where there is
none, it says where the text stops making sense. -/
abbrev Lexer (T S : Type) := (T → Bool) → S → Cursor → Except Position (Lexeme T S)

/-- How a reading is doing. -/
inductive Status where
  /-- It goes on. -/
  | running
  /-- It has no move on the token at this place. -/
  | stuck (here : Position)
  /-- It has read the whole text. -/
  | finished
deriving DecidableEq, Repr, Inhabited

/-- One reading: the top of its stack and the mode of its lexer. -/
structure Head (S : Type) where
  /-- The vertex on top. -/
  vertex : Nat
  /-- The mode of the lexer. -/
  mode : S
  /-- How it is doing. -/
  status : Status
deriving Inhabited

/-- All readings of a text at some moment. -/
structure Readings (T S : Type) where
  /-- The stacks of all readings. -/
  shared : Stacks T
  /-- The readings, the most promising first. -/
  heads : List (Head S)
  /-- The best of the finished readings. -/
  best : Option (Derivation T)
deriving Inhabited

/-- What reading a text gives. -/
inductive Outcome (T : Type) where
  /-- The derivation of the whole text. -/
  | accepted (tree : Derivation T)
  /-- What was read until reading got stuck, and where that was. -/
  | rejected (trail : List (Derivation T)) (here : Position)
deriving Inhabited

/-- How many readings are followed at a time. -/
def readingLimit : Nat := 6

namespace Readings

variable {T S : Type} [DecidableEq S]

/-- Whether two heads are running in one state, one place and one mode. -/
def joinable (shared : Stacks T) (a b : Head S) : Bool :=
  a.status == .running && b.status == .running && shared.alike a.vertex b.vertex && a.mode == b.mode

/-- Adds a new head, unless it can be joined with one of the others than the head `self`. -/
def addHead (self : Nat) (h : Head S) : Readings T S → Readings T S
  | ⟨shared, heads, best⟩ =>
    match heads.zipIdx.find? fun (other, i) => i != self && joinable shared other h with
    | some (other, _) => ⟨shared.join other.vertex h.vertex, heads, best⟩
    | none => ⟨shared, heads ++ [h], best⟩

/-- Adds a new head on top of a new vertex. -/
def addVertex (self : Nat) (mode : S) (v : Vertex T) : Readings T S → Readings T S
  | ⟨shared, heads, best⟩ =>
    let n := shared.size
    addHead self ⟨n, mode, .running⟩ ⟨shared.push v, heads, best⟩

/-- Closes a phrase on top of the head `self`: once for each vertex that the phrase may have been
opened at, with the best of the ways to read it from there. The head itself stays as it is. -/
def reduce [BEq T] [Hashable T] (table : Table T) (r : Readings T S) (self : Nat) (head : Head S)
    (red : Reduction) : Readings T S :=
  let top := r.shared.vertex head.vertex
  let extras := if red.marks.isEmpty then [] else top.extras
  (Descent.grouped (Descent.all r.shared head.vertex red.marks)).foldl (fun r (bottom, ways) =>
    let trees := ways.map fun d =>
      Derivation.close (table.numbers.size + red.head) red.weight top.cursor.position d.parts
    match trees with
    | [] => r
    | first :: others =>
      let tree := others.foldl (fun best t => if t.beats best then t else best) first
      let below := r.shared.vertex bottom
      let vertex : Vertex T :=
        { state := table.goto below.state red.head
          cursor := top.cursor
          weight := below.weight + tree.weight
          links := [⟨tree, bottom⟩]
          extras := extras }
      addVertex self head.mode vertex r) r

/-- Moves the head at `i` to a new vertex. -/
def advanceTo (i : Nat) (mode : S) (v : Vertex T) : Readings T S → Readings T S
  | ⟨shared, heads, best⟩ =>
    let n := shared.size
    ⟨shared.push v, heads.set i ⟨n, mode, .running⟩, best⟩

/-- Puts the head `new`, which is the one at `j`, in place of the one at `i`. -/
def replace (i j : Nat) (new : Head S) : Readings T S → Readings T S
  | ⟨shared, heads, best⟩ => ⟨shared, (heads.eraseIdx j).set i new, best⟩

/-- Changes the status of the head at `i`. -/
def mark (r : Readings T S) (i : Nat) (status : Status) : Readings T S :=
  { r with heads := r.heads.modify i fun h => { h with status := status } }

/-- Finishes the reading with the given vertex on top. -/
def accept (r : Readings T S) (top : Vertex T) : Readings T S :=
  top.links.foldl (fun r l =>
    let extras (ds : List (Derivation T)) : List (Mark × Derivation T) := ds.map ({}, ·)
    let parts := extras (r.shared.vertex l.below).extras ++ l.tree.parts ++ extras top.extras
    let whole := Derivation.phrase l.tree.symbol l.tree.weight .start top.cursor.position parts
    match r.best with
    | some best => if whole.beats best then { r with best := some whole } else r
    | none => { r with best := some whole }) r

/-- Offers a token to the head at `i`: closes phrases until the token is taken or nothing more can be
done. Where several phrases could be closed, each gives a reading of its own and the last of them goes
on as the head at `i`. -/
def feed [BEq T] [Hashable T] (table : Table T) (lexeme : Lexeme T S) :
    Nat → Readings T S → Nat → Readings T S
  | 0, r, i => r.mark i (.stuck lexeme.token.start)
  | limit + 1, r, i =>
    match r.heads[i]? with
    | none => r
    | some head =>
      let top := r.shared.vertex head.vertex
      let moves := table.moves top.state lexeme.token.terminal
      let leaf := Derivation.leaf (table.numbers.getD lexeme.token.terminal 0) lexeme.token
        lexeme.after.position
      if moves.isEmpty && lexeme.isExtra then
        r.advanceTo i head.mode
          { top with cursor := lexeme.after, extras := top.extras ++ [leaf] }
      else
        let (r, last) := moves.reductions.foldl (fun (r, last) red =>
          let count := r.heads.length
          let r := r.reduce table i head red
          (r, if count < r.heads.length then some count else last))
          (r, (none : Option Nat))
        match moves.shift with
        | some state =>
          r.advanceTo i lexeme.mode
            { state := state, cursor := lexeme.after, weight := top.weight,
              links := [⟨leaf, head.vertex⟩], extras := [] }
        | none =>
          if moves.accepts then (r.accept top).mark i .finished
          else
            match last.bind fun j => r.heads[j]?.map (j, ·) with
            | some (j, new) =>
              feed table lexeme limit (r.replace i j new) i
            | none => r.mark i (.stuck lexeme.token.start)

/-- Reads one token on the head at `i`. -/
def advance [BEq T] [Hashable T] (table : Table T) (lexer : Lexer T S) (limit : Nat)
    (r : Readings T S) (i : Nat) : Readings T S :=
  match r.heads[i]? with
  | none => r
  | some head =>
    let top := r.shared.vertex head.vertex
    match lexer (table.accepts top.state) head.mode top.cursor with
    | .error here => r.mark i (.stuck here)
    | .ok lexeme => feed table lexeme limit r i

/-- The number of bytes that the head at `i` has read. -/
def offset (r : Readings T S) (i : Nat) : Nat :=
  match r.heads[i]? with
  | none => 0
  | some head => (r.shared.vertex head.vertex).cursor.position.offset

/-- Whether the head at `i` is running. -/
def isRunning (r : Readings T S) (i : Nat) : Bool :=
  match r.heads[i]? with
  | none => false
  | some head => head.status == .running

/-- Reads on with the head at `i` until it is ahead of the place `reached`; heads other than the
first may also stop right there. -/
def chase [BEq T] [Hashable T] (table : Table T) (lexer : Lexer T S) (i : Nat) :
    Nat → Readings T S → Nat → Readings T S × Nat
  | 0, r, reached => (r, reached)
  | limit + 1, r, reached =>
    if r.isRunning i then
      let r := r.advance table lexer limit i
      let here := r.offset i
      if reached < here || (0 < i && here = reached) then (r, here)
      else chase table lexer i limit r reached
    else (r, reached)

/-- Lets every head from the one at `i` on catch up, those included that come up on the way. -/
def sweep [BEq T] [Hashable T] (table : Table T) (lexer : Lexer T S) :
    Nat → Readings T S → Nat → Nat → Readings T S × Nat
  | 0, r, _, reached => (r, reached)
  | limit + 1, r, i, reached =>
    if i < r.heads.length then
      let (r, reached) := chase table lexer i (limit + 1) r reached
      sweep table lexer limit r (i + 1) reached
    else (r, reached)

/-- Puts a head among others, the heavier before the lighter. A running head displaces stuck ones, and
heads that can be joined are. -/
def insert (shared : Stacks T) (h : Head S) : List (Head S) → Stacks T × List (Head S)
  | [] => (shared, [h])
  | a :: rest =>
    if a.status == .running && h.status != .running then (shared, a :: rest)
    else if a.status != .running && h.status == .running then insert shared h rest
    else if joinable shared a h then (shared.join a.vertex h.vertex, a :: rest)
    else
      let (first, later) :=
        if (shared.vertex a.vertex).weight < (shared.vertex h.vertex).weight then (h, a) else (a, h)
      let (shared, rest) := insert shared later rest
      (shared, first :: rest)

/-- Drops finished and hopeless heads, joins those that can be, and orders the others. -/
def condense : Readings T S → Readings T S
  | ⟨shared, heads, best⟩ =>
    let (shared, heads) := (heads.filter (·.status != .finished)).foldl
      (fun (shared, heads) h => insert shared h heads) (shared, [])
    ⟨shared, heads.take readingLimit, best⟩

/-- What was read below a vertex, through its oldest links. -/
def trail (shared : Stacks T) : Nat → Nat → List (Derivation T) → List (Derivation T)
  | 0, _, later => later
  | limit + 1, v, later =>
    let x := shared.vertex v
    match x.links with
    | [] => x.extras ++ later
    | l :: _ => trail shared limit l.below (l.tree :: (x.extras ++ later))

/-- Reads on until every head is stuck or finished. -/
def run [BEq T] [Hashable T] (table : Table T) (lexer : Lexer T S) :
    Nat → Readings T S → Nat → Outcome T
  | 0, _, _ => .rejected [] .start
  | limit + 1, r, reached =>
    let (r, reached) := r.sweep table lexer (limit + 1) 0 reached
    let r := r.condense
    match r.heads with
    | ⟨_, _, .running⟩ :: _ => run table lexer limit r reached
    | heads =>
      match r.best, heads with
      | some tree, _ => .accepted tree
      | none, ⟨vertex, _, .stuck here⟩ :: _ =>
        .rejected (trail r.shared r.shared.size vertex []) here
      | none, _ => .rejected [] .start

end Readings

/-- Reads a text from the given cursor on, starting in the given mode of the lexer. The number of
steps is bounded by the length of the text, since no token is met more than a few times and no phrase
is closed more often than its parts allow. -/
def Table.read {T S : Type} [BEq T] [Hashable T] [DecidableEq S] (table : Table T)
    (lexer : Lexer T S) (mode : S) (cursor : Cursor) : Outcome T :=
  let bottom : Vertex T :=
    { state := 0, cursor := cursor, weight := 0, links := [], extras := [] }
  let readings : Readings T S := ⟨#[bottom], [⟨0, mode, .running⟩], none⟩
  readings.run table lexer (64 * (cursor.rest.length + 16)) cursor.position.offset

end BareCallGraph.Grammar
