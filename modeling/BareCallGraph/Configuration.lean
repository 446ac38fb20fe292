import BareCallGraph.Language

/-!
# Configuration
-/

namespace BareCallGraph

/-- What to analyse and how. -/
structure Configuration where
  /-- The language of the sources. -/
  language : Language := .python
  /-- Whether links to directories are followed. -/
  followLinks : Bool := false
  /-- The names of directories to leave out. -/
  excludedDirectories : List String := []
  /-- Whether files are handled side by side. -/
  parallel : Bool := false
deriving DecidableEq, Repr, Inhabited

namespace Configuration

/-- Whether directories of a name are left out. -/
def isExcluded (c : Configuration) (directoryName : String) : Bool :=
  c.excludedDirectories.contains directoryName

/-- Whether a directory is left out. Names that are no text are never left out. -/
def excludes (c : Configuration) (directory : FileName) : Bool :=
  directory.text?.any c.isExcluded

/-- How many workers handle files side by side when so many are asked for. Zero asks for half the
processor cores. -/
def workerCount (cores jobs : Nat) : Nat := if 0 < jobs then jobs else max 1 (cores / 2)

end Configuration

end BareCallGraph
