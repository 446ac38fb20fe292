import BareCallGraph.Configuration
import BareCallGraph.FileTree.Walk

/-!
# Discovery of source files

The source files under a root are the files whose names belong to the configured language, in the order
of the walk. A file whose name is no text is not among them.
-/

namespace BareCallGraph

/-- A file to be analysed. -/
structure SourceFile where
  /-- The path of the file. -/
  path : TreePath
  /-- The name of the module that it holds. -/
  module : String
deriving DecidableEq, Repr, Inhabited

/-- The source file at a path, if its name belongs to the language. -/
def SourceFile.at? (l : Language) (path : TreePath) : Option SourceFile :=
  path.fileName?.bind fun name => (l.moduleOfFileName? name).map (⟨path, ·⟩)

/-- The walk through a tree that a configuration asks for. -/
def Configuration.walk (c : Configuration) (tree : FileTree) : Walk :=
  ⟨tree, c.followLinks, c.excludes⟩

/-- The source files under a root. -/
def discover (c : Configuration) (tree : FileTree) (root : String) :
    Except WalkError (List SourceFile) :=
  ((c.walk tree).filesFrom root).map (·.filterMap (SourceFile.at? c.language))

end BareCallGraph
