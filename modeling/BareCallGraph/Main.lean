import BareCallGraph.CommandLine.Run

/-!
# The command line program

The files that a run can meet are read into a `FileTree`, `run` says what comes of the arguments, and that
is printed and written. Links are recorded by the place they lead to.
-/

namespace BareCallGraph

/-- What was read from the disk. -/
structure Snapshot where
  /-- The files. -/
  tree : FileTree
  /-- The directories whose entries were read. -/
  loaded : List String := []

/-- A path of the disk, from its top. -/
def diskPath (path : String) := (IO.FS.DirEntry.mk "/" path).path

/-- The names that lead to a path from the top of the disk. -/
def diskNames (path : String) : List FileName :=
  ((Path.pieces path).filter (!·.isEmpty)).map .ofString

/-- A path that leads nowhere, since no file has an empty name. -/
def nowhere : Path := ⟨false, [.name ⟨[]⟩]⟩

/-- Puts something at a path of the disk. -/
def Snapshot.put (s : Snapshot) (path : String) (a : FileTree.Addition) : Snapshot :=
  { s with tree := s.tree.put [] (diskNames path) a }

/-- Reads what is at and below a path of the disk. Directories behind links are read only if links are
followed. -/
partial def Snapshot.load (followLinks : Bool) (s : Snapshot) (path : String) : IO Snapshot := do
  match (← (diskPath path).symlinkMetadata).type with
  | .dir =>
    if s.loaded.contains path then return s
    let s := { s.put path .directory with loaded := path :: s.loaded }
    (← (diskPath path).readDir).foldlM (fun s e => s.load followLinks e.path.toString) s
  | .symlink =>
    match ← (IO.FS.realPath path).toBaseIO with
    | .error _ => return s.put path (.link nowhere)
    | .ok target =>
      let s := s.put path (.link (.ofString target.toString))
      if followLinks || !(← target.isDir) then s.load followLinks target.toString
      else return s.put target.toString .directory
  | _ => return s.put path (.file (← IO.FS.readBinFile path))

/-- Records what a path meets that leads from a directory through the given pieces, and gives the real
path of its end. -/
def Snapshot.trace (s : Snapshot) (here : String) : List String → IO (Snapshot × Option String)
  | [] => return (s, some here)
  | piece :: pieces => do
    let path := TreePath.join here piece
    match ← (IO.FS.realPath path).toBaseIO, ← (diskPath path).symlinkMetadata.toBaseIO with
    | .ok target, .ok data =>
      let s := s.put target.toString (if ← target.isDir then .directory else .file .empty)
      let s := if data.type == .symlink then s.put path (.link (.ofString target.toString)) else s
      s.trace target.toString pieces
    | _, _ => return (s, none)

/-- Records what a path meets that the user names. -/
def Snapshot.visit (s : Snapshot) (path : String) : IO (Snapshot × Option String) := do
  let here ← IO.currentDir
  let start := if (Path.ofString path).absolute then "/" else here.toString
  s.trace start ((Path.pieces path).filter (!·.isEmpty))

/-- Reads the files that arguments are about. -/
def readFiles (a : Arguments) : IO FileTree := do
  let here := diskNames (← IO.currentDir).toString
  let start : Snapshot := { tree := (FileTree.empty here).put [] here .directory }
  let (s, root?) ← start.visit a.root
  let s ← match root? with
    | some root => s.load a.followLinks root
    | none => pure s
  match a.output with
  | none => return s.tree
  | some output =>
    let (s, _) ← s.visit output
    return s.tree

/-- The number of processor cores that the system lists. -/
def coreCount : IO Nat := do
  match ← (IO.FS.lines "/proc/cpuinfo").toBaseIO with
  | .ok lines => return max 1 (lines.filter (·.startsWith "processor")).size
  | .error _ => return 1

/-- Runs the program on the files of the disk. -/
def runOnDisk (args : List String) : IO UInt32 := do
  let arguments := (Arguments.parse args).toOption
  let tree ← match arguments with
    | some a => readFiles a
    | none => pure (.empty [])
  let logSetting ← IO.getEnv "PY_CALLGRAPH_LOG"
  let report := run Python.parser { tree, logSetting, cores := ← coreCount } args
  if report.exitCode = 0 then
    if let some path := arguments.bind Arguments.output then
      if let .ok text := report.tree.readText (.ofString path) then
        IO.FS.writeFile path text
  IO.eprint report.stderr
  IO.print report.stdout
  return report.exitCode.toUInt32

end BareCallGraph

def main (args : List String) : IO UInt32 := BareCallGraph.runOnDisk args
