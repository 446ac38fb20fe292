import BareCallGraph.Grammar.Derivation
import BareCallGraph.Grammar.Table

/-!
# Stacks of readings

While a text is read in several ways at once, the stacks of the readings share what they have in
common. They form a graph whose vertices are numbered in order of creation. A vertex is a state at a
place of the text; each of its links is a derivation that leads there from the vertex below. Two
readings that arrive at one state in one place become one vertex with the links of both.
-/

namespace BareCallGraph.Grammar

/-- A derivation and the vertex it was read from. -/
structure Link (T : Type) where
  /-- What was read. -/
  tree : Derivation T
  /-- The number of the vertex below. -/
  below : Nat
deriving Inhabited

/-- A state that readings have arrived at. -/
structure Vertex (T : Type) where
  /-- The state of the table. -/
  state : Nat
  /-- The text not read yet. -/
  cursor : Cursor
  /-- The weight of the heaviest reading that arrives here. -/
  weight : Int
  /-- The ways to arrive here; the vertex that every reading starts from has none. -/
  links : List (Link T)
  /-- Comments and line continuations read since. -/
  extras : List (Derivation T)
deriving Inhabited

/-- The vertices of all stacks, by number. -/
abbrev Stacks (T : Type) := Array (Vertex T)

namespace Stacks

variable {T : Type}

/-- The vertex with a number. -/
def vertex (s : Stacks T) (v : Nat) : Vertex T := s.getD v default

/-- Whether two vertices are one state in one place. -/
def alike (s : Stacks T) (v w : Nat) : Bool :=
  (s.vertex v).state == (s.vertex w).state &&
    (s.vertex v).cursor.position.offset == (s.vertex w).cursor.position.offset

/-- The weight of arriving through a link. -/
def weightOf (s : Stacks T) (l : Link T) : Int := (s.vertex l.below).weight + l.tree.weight

/-- Adds a link to a vertex. A link that resembles one from the same vertex below replaces it only if
it is heavier; if the vertices below are merely alike, the older link stays and these become one. The
limit bounds how deep that goes. -/
def addLink : Nat → Stacks T → Nat → Link T → Stacks T
  | 0, s, _, _ => s
  | limit + 1, s, v, link =>
    let links := (s.vertex v).links
    let weight := s.weightOf link
    let place := links.findIdx fun l =>
      l.tree.resembles link.tree && (l.below == link.below || s.alike l.below link.below)
    if link.below = v then s
    else match links[place]? with
      | none =>
        s.modify v fun x => { x with links := x.links ++ [link], weight := max x.weight weight }
      | some l =>
        if l.below = link.below then
          if l.tree.weight < link.tree.weight then
            s.modify v fun x => { x with links := x.links.set place link, weight := weight }
          else s
        else
          let joined := (s.vertex link.below).links.foldl (fun s m => addLink limit s l.below m) s
          joined.modify v fun x => { x with weight := max x.weight weight }

/-- Gives the vertex `v` the links of the vertex `w`. -/
def join (s : Stacks T) (v w : Nat) : Stacks T :=
  (s.vertex w).links.foldl (fun s l => addLink s.size s v l) s

end Stacks

/-- A way down a stack: the vertex it has come to and the parts of a phrase met on the way. -/
structure Descent (T : Type) where
  /-- The number of the vertex. -/
  bottom : Nat
  /-- The parts from here up. -/
  parts : List (Mark × Derivation T)
deriving Inhabited

namespace Descent

variable {T : Type}

/-- Goes down one link, over a part that is shown as `mark` says. -/
def through (s : Stacks T) (mark : Mark) (d : Descent T) (l : Link T) : Descent T :=
  let extras := if d.parts.isEmpty then [] else (s.vertex d.bottom).extras
  ⟨l.below, (mark, l.tree) :: extras.map ({}, ·) ++ d.parts⟩

/-- Goes one part further down on every way: first through the oldest link of each, then through the
others. -/
def further (s : Stacks T) (mark : Mark) (ds : List (Descent T)) : List (Descent T) :=
  (ds.flatMap fun d => ((s.vertex d.bottom).links.take 1).map (through s mark d)) ++
    ds.flatMap fun d => ((s.vertex d.bottom).links.drop 1).map (through s mark d)

/-- All ways down from a vertex over as many parts as there are marks. -/
def all (s : Stacks T) (v : Nat) (marks : List Mark) : List (Descent T) :=
  marks.reverse.foldl (fun ds mark => further s mark ds) [⟨v, []⟩]

/-- The ways down, grouped by the vertex they come to. -/
def grouped (ds : List (Descent T)) : List (Nat × List (Descent T)) :=
  (ds.map (·.bottom)).eraseDups.map fun v => (v, ds.filter (·.bottom == v))

end Descent

end BareCallGraph.Grammar
