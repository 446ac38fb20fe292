import BareCallGraph.CallGraph.Basic

/-!
# Plain text output

A heading with the numbers of functions and calls, then a line for each node, an empty line if there are
edges, and a line for each edge.
-/

namespace BareCallGraph.Export.Text

/-- The first line. -/
def heading (g : CallGraph) : List Char :=
  "# ".toList ++ Nat.toDigits 10 g.nodeCount ++ " functions, ".toList ++
    Nat.toDigits 10 g.edgeCount ++ " calls".toList

/-- The line of an edge. -/
def edgeLine (e : Edge) : List Char := e.caller.toList ++ " -> ".toList ++ e.callee.toList

/-- All lines. -/
def lines (g : CallGraph) : List (List Char) :=
  heading g :: g.nodes.elements.map String.toList ++ (if g.edges.isEmpty then [] else [[]]) ++
    g.edges.elements.map edgeLine

/-- The graph as a plain text. -/
def render (g : CallGraph) : String :=
  String.ofList ((lines g).flatMap fun line => line ++ ['\n'])

end BareCallGraph.Export.Text
