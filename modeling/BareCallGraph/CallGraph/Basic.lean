import BareCallGraph.SortedSet

/-!
# Call graphs

The nodes of a `CallGraph` are qualified names of functions, and an edge says that one function calls
another. Both are sets in byte order; they grow independently, so an edge may name a function that is
not a node.
-/

namespace BareCallGraph

/-- One function calls another. -/
structure Edge where
  /-- The qualified name of the function that calls. -/
  caller : String
  /-- The qualified name of the function that is called. -/
  callee : String
deriving DecidableEq, Repr, Inhabited

namespace Edge

/-- Edges are ordered by caller, and those of one caller by callee. -/
instance : Ord Edge := ⟨compareLex (compareOn Edge.caller) (compareOn Edge.callee)⟩

instance : Std.TransOrd Edge :=
  inferInstanceAs (Std.TransCmp (compareLex (compareOn Edge.caller) (compareOn Edge.callee)))

/-- Edges are ordered by their callers, and by their callees if these are the same. -/
theorem compare_eq (e f : Edge) :
    compare e f = (compare e.caller f.caller).then (compare e.callee f.callee) := rfl

instance : Std.LawfulEqOrd Edge where
  eq_of_compare {e f} h := by
    rw [compare_eq, Ordering.then_eq_eq, Std.LawfulEqOrd.compare_eq_iff_eq,
      Std.LawfulEqOrd.compare_eq_iff_eq] at h
    cases e; cases f
    simp_all

end Edge

/-- Functions and the calls between them. -/
structure CallGraph where
  /-- The qualified names of the functions. -/
  nodes : SortedSet String
  /-- Who calls whom. -/
  edges : SortedSet Edge
deriving DecidableEq, Inhabited

namespace CallGraph

/-- The graph without nodes and edges. -/
def empty : CallGraph := ⟨∅, ∅⟩

/-- How many functions there are. -/
def nodeCount (g : CallGraph) : Nat := g.nodes.size

/-- How many calls there are. -/
def edgeCount (g : CallGraph) : Nat := g.edges.size

/-- Whether a function is a node. -/
def containsNode (g : CallGraph) (id : String) : Bool := g.nodes.contains id

/-- Whether one function is known to call another. -/
def containsEdge (g : CallGraph) (caller callee : String) : Bool := g.edges.contains ⟨caller, callee⟩

/-- Adds a node, and tells whether it is new. -/
def addNode (g : CallGraph) (id : String) : Bool × CallGraph :=
  (!g.containsNode id, { g with nodes := g.nodes.insert id })

/-- Adds an edge but none of its ends, and tells whether it is new. -/
def addEdge (g : CallGraph) (caller callee : String) : Bool × CallGraph :=
  (!g.containsEdge caller callee, { g with edges := g.edges.insert ⟨caller, callee⟩ })

/-- Adds a list of edges. -/
def extend (g : CallGraph) (edges : List Edge) : CallGraph :=
  { g with edges := g.edges.union (.ofList edges) }

/-- Edges that are added bring no nodes. -/
@[simp]
theorem nodes_extend (g : CallGraph) (edges : List Edge) : (g.extend edges).nodes = g.nodes := rfl

/-- Adding edges adds these and nothing else. -/
@[simp]
theorem mem_edges_extend {g : CallGraph} {edges : List Edge} {e : Edge} :
    e ∈ (g.extend edges).edges ↔ e ∈ g.edges ∨ e ∈ edges := by
  simp [extend]

/-- Whom a function calls, in byte order. -/
def calleesOf (g : CallGraph) (caller : String) : List String :=
  (g.edges.elements.filter (·.caller == caller)).map Edge.callee

/-- Who calls a function, in byte order. -/
def callersOf (g : CallGraph) (callee : String) : List String :=
  (g.edges.elements.filter (·.callee == callee)).map Edge.caller

end CallGraph

end BareCallGraph
