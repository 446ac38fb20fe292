import BareCallGraph.Analysis.Traced
import BareCallGraph.CallGraph.Resolution
import BareCallGraph.Python.Module

/-!
# Analysing a source tree

An analysis passes twice over the source files under a root. The first pass binds the functions of all
files in a name table, the second resolves the calls of each file. Both handle the files in the order of
the walk, or side by side: then files are done in some other order, but what they yield is put back into
the order of the walk. What nothing determines, the order in which files are done and the order in which
a table lists its names, is up to a `Schedule`.
-/

namespace BareCallGraph

/-- Turns the text of a source file into a module. -/
abbrev Parser := SourceFile → String → Except AnalysisError ParsedModule

/-- The parser that goes by the trees of texts. It refuses a text whose tree has a fault, and names the
first one. -/
def Parser.ofTrees (treeOf : String → SyntaxTree) : Parser := fun file source =>
  let tree := treeOf source
  match tree.firstFault? with
  | some place => .error (.parse file.path place.line place.column)
  | none => .ok ⟨file.module, tree⟩

/-- The parser of Python. -/
def Python.parser : Parser := Parser.ofTrees Python.syntaxTree

/-- What may differ from one run to the next. -/
structure Schedule where
  /-- When each file is done that the first pass handles side by side with others. -/
  collecting : Nat → Nat
  /-- When each file is done that the second pass handles side by side with others. -/
  resolving : Nat → Nat
  /-- The qualified names of a table, in the order in which the table lists them. -/
  listing : NameTable → List String
  /-- A listing has each name as often as the table has it. -/
  listing_perm : ∀ t, (listing t).Perm t.qualifiedNames

/-- Files are done in their order, and names are listed in byte order. -/
def Schedule.inOrder : Schedule where
  collecting := id
  resolving := id
  listing := NameTable.qualifiedNames
  listing_perm _ := .refl _

/-- What an analysis is done with. -/
structure Analyzer where
  /-- What to analyse and how. -/
  configuration : Configuration := {}
  /-- How a text becomes a module. -/
  parser : Parser := Python.parser
  /-- What is left to the run. -/
  schedule : Schedule := .inOrder

namespace Analyzer

variable {α : Type}

/-- Runs tasks in the order in which they finish, and lists what they yield in the order of the tasks. -/
def sideBySide (finishTime : Nat → Nat) (tasks : List (Traced α)) : Traced (List α) := do
  let order := tasks.zipIdx.mergeSort fun x y => finishTime x.2 ≤ finishTime y.2
  let results ← order.mapM fun (task, i) => return (← task, i)
  return (results.mergeSort fun x y => x.2 ≤ y.2).map Prod.fst

/-- Does the same with each file, and lists what it yields in the order of the files. -/
def forEach (a : Analyzer) (finishTime : Nat → Nat) (task : SourceFile → Traced α)
    (files : List SourceFile) : Traced (List α) :=
  if a.configuration.parallel then sideBySide finishTime (files.map task) else files.mapM task

/-- The source files under a root. -/
def sourceFiles (a : Analyzer) (tree : FileTree) (root : String) : Traced (List SourceFile) := do
  let files ← Traced.ofExcept ((discover a.configuration tree root).mapError .walk)
  Traced.tell [.discovered root files.length]
  return files

/-- Reads and parses a file. -/
def parseFile (a : Analyzer) (tree : FileTree) (file : SourceFile) : Traced ParsedModule := do
  Traced.tell [.opening file]
  let source ← Traced.ofExcept ((tree.readText file.path.toPath).mapError (.read file.path))
  Traced.tell [.parsing file source]
  Traced.ofExcept (a.parser file source)

/-- The name table of all functions of the given files. -/
def collectFrom (a : Analyzer) (tree : FileTree) (files : List SourceFile) : Traced NameTable := do
  let modules ← a.forEach a.schedule.collecting
    (fun file => return (← a.parseFile tree file).definitions) files
  let table := NameTable.ofDefinitions modules
  Traced.tell (table.takeovers.map .takenOver)
  Traced.tell [.collected table.size table.takeovers.length]
  return table

/-- The name table of all functions under a root. -/
def collectDefinitions (a : Analyzer) (tree : FileTree) (root : String) : Traced NameTable := do
  a.collectFrom tree (← a.sourceFiles tree root)

/-- The call graph of all source files under a root. -/
def buildCallGraph (a : Analyzer) (tree : FileTree) (root : String) : Traced CallGraph := do
  let table ← a.collectDefinitions tree root
  let files ← a.sourceFiles tree root
  let edges ← a.forEach a.schedule.resolving
    (fun file => return (← a.parseFile tree file).edges table) files
  let graph := edges.foldl CallGraph.extend (.ofNodes (a.schedule.listing table))
  Traced.tell [.built root files.length graph.nodeCount graph.edgeCount]
  return graph

end Analyzer

end BareCallGraph
