import BareCallGraph.Text.Utf8

/-!
# File names and paths

A `FileName` is any string of bytes, in most cases a text in UTF-8. A path is a text; taken apart it is a
`Path`, the steps that lead from one directory to another. A `TreePath` is a path together with names
that lead further down from where the path ends.
-/

namespace BareCallGraph

/-- The name of a file, a directory or a link. -/
structure FileName where
  /-- Its bytes. -/
  bytes : List UInt8
deriving DecidableEq, Repr, Inhabited

namespace FileName

/-- Names are ordered by their bytes. -/
instance : Ord FileName := ⟨compareOn FileName.bytes⟩

instance : Std.TransOrd FileName := inferInstanceAs (Std.TransCmp (compareOn FileName.bytes))

instance : Std.LawfulEqOrd FileName where
  eq_of_compare {m n} h := by
    have := Std.LawfulEqOrd.eq_of_compare (α := List UInt8) h
    cases m; cases n
    simp_all

/-- The name that is written as the given text. -/
def ofString (text : String) : FileName := ⟨text.toUTF8.toList⟩

/-- The text that the name is, if it is one. -/
def text? (n : FileName) : Option String := Utf8.text? n.bytes

/-- The name as it appears in messages. -/
def shown (n : FileName) : String := Utf8.shown n.bytes

end FileName

/-- One step of a path. -/
inductive PathStep where
  /-- To the directory itself. -/
  | here
  /-- To the directory above. -/
  | parent
  /-- To what has this name in the directory. -/
  | name (n : FileName)
  /-- A slash at the end, which says that there has to be a directory. -/
  | slash
deriving DecidableEq, Repr, Inhabited

/-- A path, taken apart. -/
structure Path where
  /-- Whether the path starts at the top of the file tree. -/
  absolute : Bool
  /-- The steps of the path. -/
  steps : List PathStep
deriving DecidableEq, Repr, Inhabited

namespace Path

/-- The pieces of a text between slashes. -/
def pieces (text : String) : List String :=
  (text.toList.splitOn '/').map String.ofList

/-- The step that a piece of a path is. -/
def stepOf (piece : String) : PathStep :=
  if piece = "." then .here else if piece = ".." then .parent else .name (.ofString piece)

/-- Takes a path apart. Slashes in a row count as one, and one at the end is a step of its own. -/
def ofString (text : String) : Path :=
  let steps := ((pieces text).filter (!·.isEmpty)).map stepOf
  let last := if steps ≠ [] ∧ text.toList.getLast? = some '/' then [.slash] else []
  ⟨text.toList.head? = some '/', steps ++ last⟩

/-- Whether a path is the empty text, which leads nowhere. -/
def isEmpty (p : Path) : Bool := !p.absolute && p.steps.isEmpty

/-- The file name that a path ends in, leaving out slashes and single dots at its end. -/
def fileName? (text : String) : Option String :=
  (((pieces text).filter fun piece => !piece.isEmpty && piece != ".").getLast?).filter (· != "..")

/-- A file name without what follows its last dot and that dot, unless the name starts with it. -/
def stem (name : String) : String :=
  let reversed := name.toList.reverse
  match reversed.dropWhile (· != '.') with
  | _ :: c :: before => String.ofList (c :: before).reverse
  | _ => name

end Path

/-- A path, and names that lead down from where it ends. -/
structure TreePath where
  /-- The path as it was given. -/
  root : String
  /-- The names from there on. -/
  below : List FileName := []
deriving DecidableEq, Repr, Inhabited

namespace TreePath

/-- The path of what has a name in the directory at a path. -/
def child (p : TreePath) (n : FileName) : TreePath := { p with below := p.below ++ [n] }

/-- The path taken apart. -/
def toPath (p : TreePath) : Path :=
  let root := Path.ofString p.root
  { root with steps := root.steps ++ p.below.map .name }

/-- Adds a name to a path, behind a slash unless there is one. -/
def join (path name : String) : String :=
  if path.isEmpty ∨ path.toList.getLast? = some '/' then path ++ name else path ++ "/" ++ name

/-- The path as it appears in messages. -/
def shown (p : TreePath) : String := p.below.foldl (fun path n => join path n.shown) p.root

/-- The text of the file name that the path ends in, if it is one. -/
def fileName? (p : TreePath) : Option String :=
  match p.below.getLast? with
  | some n => n.text?
  | none => Path.fileName? p.root

end TreePath

end BareCallGraph
