import BareCallGraph.Export.Dot
import BareCallGraph.Export.Json
import BareCallGraph.Export.Text

/-!
# Output formats
-/

namespace BareCallGraph

/-- The formats that a graph can be written in. -/
inductive ExportFormat where
  /-- For Graphviz. -/
  | dot
  /-- An indented JSON document. -/
  | json
  /-- Plain lines. -/
  | text
deriving DecidableEq, Repr, Inhabited

namespace ExportFormat

/-- The format that a word names. Case matters. -/
def ofName? : String → Option ExportFormat
  | "dot" => some .dot
  | "json" => some .json
  | "text" => some .text
  | _ => none

/-- How a format is called in messages. -/
def label : ExportFormat → String
  | dot => "Dot"
  | json => "Json"
  | text => "Text"

/-- A graph in the format. -/
def render : ExportFormat → CallGraph → String
  | dot, g => Export.Dot.render g
  | json, g => Export.Json.render g
  | text, g => Export.Text.render g

end ExportFormat

end BareCallGraph
