import BareCallGraph.CallGraph.Basic
import BareCallGraph.NameTable
import BareCallGraph.SyntaxTree.Functions

/-!
# From modules to a call graph

The functions that the modules define are bound in a table under their bare names, and a bare call
leads to whatever its name stands for there. The calls of a function are attributed to the function by
its own qualified name, also when another module has taken its bare name over.
-/

namespace BareCallGraph

/-- The name of a function within the whole program. -/
def qualify (module name : String) : String := module ++ "." ++ name

/-- The functions that a module defines at its top. -/
structure ModuleDefinitions where
  /-- The name of the module. -/
  module : String
  /-- The bare names of its functions, in source order. -/
  functions : List String
deriving DecidableEq, Repr, Inhabited

namespace ModuleDefinitions

/-- Each function under its bare and its qualified name. -/
def qualified (d : ModuleDefinitions) : List (String × String) :=
  d.functions.map fun name => (name, qualify d.module name)

end ModuleDefinitions

/-- The table of the functions of all modules. The later of two modules wins a name that both define. -/
def NameTable.ofDefinitions (modules : List ModuleDefinitions) : NameTable :=
  NameTable.empty.insertAll (modules.flatMap ModuleDefinitions.qualified)

/-- The graph that has the listed nodes and no edges. -/
def CallGraph.ofNodes (names : List String) : CallGraph := ⟨.ofList names, ∅⟩

/-- The nodes of the graph to come: the functions that hold a bare name. -/
def NameTable.seed (t : NameTable) : CallGraph := .ofNodes t.qualifiedNames

/-- A module and its syntax tree. -/
structure ParsedModule where
  /-- The name of the module. -/
  name : String
  /-- The syntax tree of its source text. -/
  tree : SyntaxTree
deriving Inhabited

namespace ParsedModule

/-- The name within the whole program of a function of the module. -/
def qualify (m : ParsedModule) (function : String) : String := BareCallGraph.qualify m.name function

/-- The functions that the module defines at its top. -/
def definitions (m : ParsedModule) : ModuleDefinitions :=
  ⟨m.name, m.tree.topLevelFunctions.map TopLevelFunction.name⟩

/-- The calls that one function of the module makes to names of the table, in order and with
repetitions. -/
def edgesOf (m : ParsedModule) (t : NameTable) (f : TopLevelFunction) : List Edge :=
  (f.scope.bareCalls.filterMap t.resolve?).map fun target => ⟨m.qualify f.name, target⟩

/-- The calls that the functions of the module make to names of the table, in order and with
repetitions. -/
def edges (m : ParsedModule) (t : NameTable) : List Edge :=
  m.tree.topLevelFunctions.flatMap (m.edgesOf t)

end ParsedModule

namespace CallGraph

/-- The graph of the given modules under a table. -/
def ofModules (t : NameTable) (modules : List ParsedModule) : CallGraph :=
  modules.foldl (fun g m => g.extend (m.edges t)) t.seed

end CallGraph

end BareCallGraph
