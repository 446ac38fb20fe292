import BareCallGraph.Analysis.Analyzer
import BareCallGraph.CommandLine.Arguments
import BareCallGraph.CommandLine.Log
import BareCallGraph.FileTree.Edit

/-!
# The program

`run` is the whole program as a function: from the arguments, the setting of the log and the file tree to
the exit code, what is printed, and the file tree afterwards. The graph goes to standard output or to a
file, never to both, and only if the analysis succeeds. A graph that cannot be printed is an error; help
that cannot be printed is not.
-/

namespace BareCallGraph

/-- Where the program prints to. -/
structure StandardOutput where
  /-- What is taken of a text, and why no more of it if not all of it is. -/
  write : String → String × Option FileError
  /-- A text is taken as it is unless there is a reason why not. -/
  complete : ∀ text, (write text).2 = none → (write text).1 = text

namespace StandardOutput

/-- A standard output that takes every text. -/
def unlimited : StandardOutput := ⟨fun text => (text, none), fun _ _ => rfl⟩

/-- Nothing keeps a text from being printed. -/
def Takes (o : StandardOutput) (text : String) : Prop := (o.write text).2 = none

end StandardOutput

/-- What a run of the program depends on, apart from its arguments. -/
structure Surroundings where
  /-- The files. -/
  tree : FileTree
  /-- Where is printed to. -/
  standardOutput : StandardOutput := .unlimited
  /-- What is to be logged, if anything is said about it. -/
  logSetting : Option String := none
  /-- How many processor cores there are. -/
  cores : Nat := 1
  /-- What is left to the run. -/
  schedule : Schedule := .inOrder

/-- What a run of the program does. -/
structure Report where
  /-- The exit code. -/
  exitCode : Nat
  /-- What is printed. -/
  stdout : String
  /-- The lines of the log and of an error message, each with its line feed. -/
  stderr : String
  /-- The files afterwards. -/
  tree : FileTree

/-- Lines as one text, each with a line feed. -/
def unlines (lines : List String) : String := String.join (lines.map (· ++ "\n"))

/-- Shifts a text to the right: the first line by `first`, the others by `later`. -/
def indentText (first later text : String) : String :=
  first ++ String.intercalate ("\n" ++ later) ((text.toList.splitOn '\n').map String.ofList)

/-- The text of an error and of those behind it, outermost first. Causes are numbered if there is more
than one. -/
def errorText (context : String) (causes : List String) : String :=
  let heading := s!"Error: {context}"
  match causes with
  | [] => unlines [heading]
  | [cause] => unlines [heading, "", "Caused by:", indentText "    " "    " cause]
  | causes =>
    unlines ([heading, "", "Caused by:"] ++ causes.zipIdx.map fun (cause, i) =>
      let number := toString i
      indentText (String.ofList (List.replicate (5 - number.length) ' ') ++ number ++ ": ")
        "       " cause)

/-- The text that help gives. -/
def helpText : String :=
  unlines [
    "Static call graph builder for Python source trees: top-level functions linked by bare-name calls.",
    "",
    "Usage: py-callgraph [OPTIONS] <ROOT>",
    "",
    "Arguments:",
    "  <ROOT>  Root directory of the Python source tree",
    "",
    "Options:",
    "  -o, --output <OUTPUT>  Output file path (stdout when omitted)",
    "  -f, --format <FORMAT>  Output format [default: dot] [possible values: dot, json, text]",
    "      --exclude <DIR>    Directory name to skip (repeatable)",
    "      --follow-links     Descend into symlinked directories",
    "  -j, --jobs <N>         Parse files in parallel on N workers (0 = half the cores)",
    "  -v, --verbose          Debug logging",
    "  -h, --help             Print help",
    "  -V, --version          Print version"]

/-- The text that names the version. -/
def versionText : String := "py_callgraph 0.1.0\n"

/-- The configuration that arguments ask for. -/
def Arguments.configuration (a : Arguments) : Configuration where
  followLinks := a.followLinks
  excludedDirectories := a.exclude
  parallel := a.jobs.isSome

/-- What happens before an analysis: workers are made ready if they are asked for. -/
def Arguments.preparation (a : Arguments) (cores : Nat) : List Event :=
  (a.jobs.map fun jobs => Event.poolReady (Configuration.workerCount cores jobs) cores).toList

/-- The analysis that arguments ask for. -/
def Arguments.analysis (a : Arguments) (parser : Parser) (around : Surroundings) : Traced CallGraph :=
  Analyzer.buildCallGraph { configuration := a.configuration, parser, schedule := around.schedule }
    around.tree a.root

/-- Does what arguments ask for. -/
def execute (parser : Parser) (around : Surroundings) (a : Arguments) : Report :=
  let analysis := a.analysis parser around
  let events := a.preparation around.cores ++ analysis.events
  let log := fun events =>
    unlines ((LogFilter.ofSetting around.logSetting a.verbose).lines events)
  match analysis.outcome with
  | .error e =>
    { exitCode := 1, stdout := "", tree := around.tree
      stderr := log events ++ errorText s!"Failed to analyze {a.root}" (e.message :: e.causes) }
  | .ok graph =>
    let text := a.format.render graph
    match a.output with
    | none =>
      let printed := around.standardOutput.write text
      match printed.2 with
      | none => { exitCode := 0, stdout := printed.1, stderr := log events, tree := around.tree }
      | some e =>
        { exitCode := 1, stdout := printed.1, tree := around.tree
          stderr := log events ++ errorText "Failed to write to stdout" [e.message] }
    | some path =>
      match around.tree.write (.ofString path) text.toUTF8 with
      | .error e =>
        { exitCode := 1, stdout := "", tree := around.tree
          stderr := log events ++ errorText s!"Failed to write {path}" [e.message] }
      | .ok tree =>
        { exitCode := 0, stdout := "", tree
          stderr := log (events ++ [.written path a.format graph.nodeCount graph.edgeCount]) }

/-- What the program says to arguments that it refuses. -/
def usageText : String :=
  unlines ["error: invalid arguments", "", "Usage: py-callgraph [OPTIONS] <ROOT>", "",
    "For more information, try '--help'."]

/-- The whole program. -/
def run (parser : Parser) (around : Surroundings) (args : List String) : Report :=
  match Arguments.parse args with
  | .ok a => execute parser around a
  | .error .help =>
    { exitCode := 0, stdout := (around.standardOutput.write helpText).1, stderr := "", tree := around.tree }
  | .error .version =>
    { exitCode := 0, stdout := (around.standardOutput.write versionText).1, stderr := ""
      tree := around.tree }
  | .error .refused => { exitCode := 2, stdout := "", stderr := usageText, tree := around.tree }

end BareCallGraph
