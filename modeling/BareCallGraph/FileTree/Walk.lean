import BareCallGraph.FileTree.Basic

/-!
# Walking a file tree

`Walk.filesFrom` lists the files at and below a root, the entries of each directory in the order of their
names and the content of a directory at its place. A link that leads to a file counts as a file. Links
to directories are passed over, or they are followed: then a link that leads nowhere, or to a directory
that is open already, ends the walk.

Following ends because each link that is followed opens a directory that was not open: the directories
that are not known to be open (`closed`) become fewer.
-/

namespace BareCallGraph

/-- Why a walk cannot go on. -/
inductive WalkError where
  /-- A path leads nowhere. -/
  | unreachable (path : TreePath) (cause : FileError)
  /-- A link leads to a directory that the walk is in. -/
  | loop (path ancestor : TreePath)
deriving DecidableEq, Repr, Inhabited

namespace WalkError

/-- The path where the walk stopped. -/
def path : WalkError → TreePath
  | unreachable path _ => path
  | loop path _ => path

/-- What is said of the error. -/
def message : WalkError → String
  | unreachable path cause => s!"IO error for operation on {path.shown}: {cause.message}"
  | loop path ancestor =>
    s!"File system loop found: {path.shown} points to an ancestor {ancestor.shown}"

/-- The error behind the error. -/
def cause? : WalkError → Option FileError
  | unreachable _ cause => some cause
  | loop _ _ => none

end WalkError

mutual
/-- Where the directories at and below an entry stand. -/
def Entry.locations (above : Location) : Entry → List Location
  | .file _ _ => []
  | .link _ _ => []
  | .directory n es => (above ++ [n]) :: Entry.locationsOf (above ++ [n]) es

/-- Where the directories at and below the entries of a list stand. -/
def Entry.locationsOf (above : Location) : List Entry → List Location
  | [] => []
  | e :: es => Entry.locations above e ++ Entry.locationsOf above es
end

/-- Where the directories of a tree stand. -/
def FileTree.locations (t : FileTree) : List Location := [] :: Entry.locationsOf [] t.entries

/-- A directory that a walk is in. -/
structure OpenDirectory where
  /-- The path that the walk took. -/
  path : TreePath
  /-- Where the directory stands. -/
  location : Location
deriving DecidableEq, Repr, Inhabited

/-- What a walk needs to know. -/
structure Walk where
  /-- The tree to walk. -/
  tree : FileTree
  /-- Whether links to directories are followed. -/
  followLinks : Bool
  /-- Which directories are left out, by their names in the walk. -/
  excludes : FileName → Bool

namespace Walk

mutual
/-- The files at and below an entry of the innermost open directory. -/
def visit (w : Walk) (here : OpenDirectory) (above : List OpenDirectory) (closed : List Location)
    (e : Entry) : Except WalkError (List TreePath) :=
  match e with
  | .file n _ => .ok [here.path.child n]
  | .directory n es =>
    if w.excludes n then .ok []
    else
      w.visitAll ⟨here.path.child n, here.location ++ [n]⟩ (here :: above) closed
        (Entry.sortedByName es)
  | .link n _ =>
    let path := here.path.child n
    match w.tree.resolve path.toPath with
    | .error cause => if w.followLinks then .error (.unreachable path cause) else .ok []
    | .ok (.file _) => .ok [path]
    | .ok (.directory location es) =>
      if w.followLinks then
        match (here :: above).find? (·.location == location) with
        | some ancestor => .error (.loop path ancestor.path)
        | none =>
          if w.excludes n then .ok []
          else if _h : location ∈ closed then
            w.visitAll ⟨path, location⟩ (here :: above) (closed.erase location)
              (Entry.sortedByName es)
          else .ok []
      else .ok []
termination_by (closed.length, 2 * e.size)
decreasing_by
  · apply Prod.Lex.right
    rw [Entry.totalSize_sortedByName, Entry.size]
    omega
  · apply Prod.Lex.left
    rw [List.length_erase_of_mem _h]
    have := List.length_pos_of_mem _h
    omega

/-- The files at and below entries of the innermost open directory, in the order of the list. -/
def visitAll (w : Walk) (here : OpenDirectory) (above : List OpenDirectory)
    (closed : List Location) (es : List Entry) : Except WalkError (List TreePath) :=
  match es with
  | [] => .ok []
  | e :: es =>
    match w.visit here above closed e with
    | .error err => .error err
    | .ok files =>
      match w.visitAll here above closed es with
      | .error err => .error err
      | .ok later => .ok (files ++ later)
termination_by (closed.length, 2 * Entry.totalSize es + 1)
decreasing_by
  · apply Prod.Lex.right
    rw [Entry.totalSize]
    omega
  · apply Prod.Lex.right
    rw [Entry.totalSize]
    have := e.size_pos
    omega
end

/-- The files at and below a root. -/
def filesFrom (w : Walk) (root : String) : Except WalkError (List TreePath) :=
  match w.tree.resolve (TreePath.mk root []).toPath with
  | .error cause => .error (.unreachable ⟨root, []⟩ cause)
  | .ok (.file _) => .ok [⟨root, []⟩]
  | .ok (.directory location es) =>
    w.visitAll ⟨⟨root, []⟩, location⟩ [] (w.tree.locations.erase location) (Entry.sortedByName es)

end Walk

end BareCallGraph
