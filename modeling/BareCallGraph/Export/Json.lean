import BareCallGraph.CallGraph.Basic
import BareCallGraph.Json.Value

/-!
# JSON output

The nodes with their number, and the edges as objects that name both ends, each on a line of its own.
-/

namespace BareCallGraph.Export.Json

/-- The document of a graph. -/
def document (g : CallGraph) : JsonValue :=
  .object [
    ("node_count", .nat g.nodeCount),
    ("nodes", .array (g.nodes.elements.map .string)),
    ("edges", .array (g.edges.elements.map fun e =>
      .object [("from", .string e.caller), ("to", .string e.callee)]))]

/-- The graph as an indented JSON text. -/
def render (g : CallGraph) : String :=
  String.ofList ((document g).write .indented 0 ++ ['\n'])

end BareCallGraph.Export.Json
