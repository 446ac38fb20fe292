import BareCallGraph.FileTree.Walk

/-!
# Errors of an analysis
-/

namespace BareCallGraph

/-- Why an analysis fails. -/
inductive AnalysisError where
  /-- A file cannot be read. -/
  | read (path : TreePath) (cause : FileError)
  /-- The source tree cannot be walked. -/
  | walk (cause : WalkError)
  /-- The text of a file does not parse at a place. -/
  | parse (path : TreePath) (line column : Nat)
deriving DecidableEq, Repr, Inhabited

namespace AnalysisError

/-- What is said of the error. -/
def message : AnalysisError → String
  | read path cause => s!"failed to read {path.shown}: {cause.message}"
  | walk cause => s!"failed to walk source tree: {cause.message}"
  | parse path line column =>
    s!"failed to parse {path.shown}: syntax error at line {line}, column {column}"

/-- The path that the error is about. -/
def path : AnalysisError → TreePath
  | read path _ => path
  | walk cause => cause.path
  | parse path _ _ => path

/-- Whether the text of a file is to blame. -/
def isParseError : AnalysisError → Bool
  | parse _ _ _ => true
  | _ => false

/-- What is said of the errors behind the error, outermost first. -/
def causes : AnalysisError → List String
  | read _ cause => [cause.message]
  | walk cause => cause.message :: (cause.cause?.map FileError.message).toList
  | parse _ _ _ => []

end AnalysisError

end BareCallGraph
