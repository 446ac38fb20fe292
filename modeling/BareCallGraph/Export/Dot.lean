import BareCallGraph.CallGraph.Basic

/-!
# Graphviz output

One statement a line: two for the looks of the graph, then one for each node and one for each edge.
Names stand in quotes, in which a quote or a backslash has a backslash before it.
-/

namespace BareCallGraph.Export.Dot

/-- Puts some characters in the place of one, everywhere in a text. -/
def replace (c : Char) (others text : List Char) : List Char :=
  text.flatMap fun d => if d = c then others else [d]

/-- How a text is written inside quotes. Backslashes are doubled first, so that the ones that come before
quotes stay single. -/
def escape (text : List Char) : List Char :=
  replace '\x22' ['\\', '\x22'] (replace '\\' ['\\', '\\'] text)

/-- A name in quotes. -/
def quote (name : String) : List Char := '\x22' :: escape name.toList ++ ['\x22']

/-- The line of a node. -/
def nodeLine (name : String) : List Char := "    ".toList ++ quote name ++ [';']

/-- The line of an edge. -/
def edgeLine (e : Edge) : List Char :=
  "    ".toList ++ quote e.caller ++ " -> ".toList ++ quote e.callee ++ [';']

/-- The lines before those of the nodes. -/
def heading : List (List Char) :=
  ["digraph CallGraph \x7b".toList, "    rankdir=LR;".toList,
    "    node [shape=box, fontname=\"Helvetica\"];".toList]

/-- All lines. -/
def lines (g : CallGraph) : List (List Char) :=
  heading ++ g.nodes.elements.map nodeLine ++ g.edges.elements.map edgeLine ++ [['\x7d']]

/-- The graph as a Graphviz text. -/
def render (g : CallGraph) : String :=
  String.ofList ((lines g).flatMap fun line => line ++ ['\n'])

end BareCallGraph.Export.Dot
