import BareCallGraph.CallGraph.Basic
import BareCallGraph.Json.Shape

/-!
# Call graphs as JSON

The record of a graph holds its nodes and its edges, an edge being the array of its two ends. Reading
takes the nodes and edges of a record in any order and any number, and also takes the array of both in
place of the object.
-/

namespace BareCallGraph.CallGraph

/-- The record of a graph. -/
def toJson (g : CallGraph) : JsonValue :=
  .object [
    ("nodes", .array (g.nodes.elements.map .string)),
    ("edges", .array (g.edges.elements.map fun e => .array [.string e.caller, .string e.callee]))]

/-- The text of the record of a graph. -/
def toJsonText (g : CallGraph) : String := g.toJson.render .compact

/-- The members of a record that were read. -/
structure Record where
  /-- The nodes, once they were read. -/
  nodes : Option (List String) := none
  /-- The ends of the edges, once they were read. -/
  edges : Option (List (String × String)) := none

/-- Reads a list of nodes. -/
def nodesReader : ShapeReader (List String) := .arrayOf .string

/-- Reads a list of edges. -/
def edgesReader : ShapeReader (List (String × String)) := .arrayOf (.pairOf .string .string)

/-- How a member of a record is read. A wanted member comes once, any other is passed over. -/
def member (found : Record) (name : String) : Except ReadFault (ShapeReader Record) :=
  if name = "nodes" then
    if found.nodes.isSome then .error .mismatched
    else .ok (nodesReader.map fun nodes => { found with nodes := some nodes })
  else if name = "edges" then
    if found.edges.isSome then .error .mismatched
    else .ok (edgesReader.map fun edges => { found with edges := some edges })
  else .ok (ShapeReader.ignored.map fun _ => found)

/-- Reads a record, be it an object or an array. -/
def recordReader : ShapeReader Record :=
  .arrayOr ((ShapeReader.pairOf nodesReader edgesReader).map fun (nodes, edges) => ⟨nodes, edges⟩)
    (.objectOf member {})

/-- The graph of the given nodes and edges. -/
def ofLists (nodes : List String) (edges : List (String × String)) : CallGraph :=
  ⟨.ofList nodes, .ofList (edges.map fun (caller, callee) => ⟨caller, callee⟩)⟩

/-- Reads the text of a record. Both members have to be there. -/
def ofJsonText (text : String) : Except ReadFault CallGraph :=
  match recordReader.run text.toList with
  | .error fault => .error fault
  | .ok (record, rest) =>
    match record.nodes, record.edges with
    | some nodes, some edges =>
      if Scanner.isDone rest then .ok (ofLists nodes edges) else .error .malformed
    | _, _ => .error .mismatched

end BareCallGraph.CallGraph
