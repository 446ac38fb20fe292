import BareCallGraph.FileTree.Path

/-!
# File trees

A `FileTree` holds files, links and directories, and no directory of it has two entries of one name. A
*location* is where a directory really stands: the names that lead to it from the top without any link.
`FileTree.resolve` follows a path, and all links on it, to the file or directory it leads to. Following
stops with an error when a path meets too many links, so it ends also where links lead in circles.

The number of links is the only limit on paths here: names and paths may have any length. Everything can
be read and written, so there are no permissions, and there is nothing but files, links and directories:
no devices, pipes or sockets.
-/

namespace BareCallGraph

/-- Something that has a name in a directory. -/
inductive Entry where
  /-- A file and its bytes. -/
  | file (name : FileName) (content : ByteArray)
  /-- A link and the path it stands for. -/
  | link (name : FileName) (target : Path)
  /-- A directory and what is in it, in any order. -/
  | directory (name : FileName) (entries : List Entry)
deriving Inhabited

namespace Entry

/-- The name of an entry. -/
def name : Entry → FileName
  | file name _ => name
  | link name _ => name
  | directory name _ => name

mutual
/-- Whether no directory at or below an entry has two entries of one name. -/
def hasDistinctNames : Entry → Bool
  | file _ _ => true
  | link _ _ => true
  | directory _ es => haveDistinctNames es

/-- Whether the entries of a list have different names, and no directory at or below them has two
entries of one name. -/
def haveDistinctNames : List Entry → Bool
  | [] => true
  | e :: es => hasDistinctNames e && es.all (fun f => f.name != e.name) && haveDistinctNames es
end

/-- No entries have distinct names. -/
theorem haveDistinctNames_nil : haveDistinctNames [] = true := rfl

/-- A list has distinct names if its first entry has, no other one has its name and the rest has distinct
names. -/
theorem haveDistinctNames_cons {e : Entry} {es : List Entry} :
    haveDistinctNames (e :: es) = true ↔ e.hasDistinctNames = true ∧
      (∀ f ∈ es, f.name ≠ e.name) ∧ haveDistinctNames es = true := by
  simp [haveDistinctNames, and_assoc]

mutual
/-- The number of entries at and below an entry. -/
def size : Entry → Nat
  | file _ _ => 1
  | link _ _ => 1
  | directory _ entries => 1 + totalSize entries

/-- The number of entries at and below the entries of a list. -/
def totalSize : List Entry → Nat
  | [] => 0
  | e :: es => size e + totalSize es
end

/-- Every entry has a size. -/
theorem size_pos (e : Entry) : 0 < e.size := by
  cases e with
  | file n content => exact Nat.one_pos
  | link n target => exact Nat.one_pos
  | directory n es => rw [size]; omega

/-- The size of entries does not depend on their order. -/
theorem totalSize_perm {es fs : List Entry} (h : es.Perm fs) : totalSize es = totalSize fs := by
  induction h with
  | nil => rfl
  | cons e _ ih => simp [totalSize, ih]
  | swap e f es => simp [totalSize]; omega
  | trans _ _ ih₁ ih₂ => exact ih₁.trans ih₂

/-- Entries in the order of their names. -/
def sortedByName (es : List Entry) : List Entry :=
  es.mergeSort fun e f => (compare e.name f.name).isLE

/-- Sorting entries does not change their size. -/
theorem totalSize_sortedByName (es : List Entry) : totalSize (sortedByName es) = totalSize es :=
  totalSize_perm (List.mergeSort_perm es _)

/-- The entry of a name. -/
def find? (es : List Entry) (n : FileName) : Option Entry := es.find? (·.name == n)

end Entry

/-- Where a directory stands: the names that lead to it from the top. -/
abbrev Location := List FileName

/-- Why a file cannot be reached, read or written. -/
inductive FileError where
  /-- There is nothing of this name. -/
  | notFound
  /-- A path goes on behind something that is no directory. -/
  | notDirectory
  /-- A directory was to be read or written like a file. -/
  | isDirectory
  /-- A path meets too many links. -/
  | tooManyLinks
  /-- A file that should hold text does not. -/
  | notText
  /-- Any other reason. -/
  | other (message : String)
deriving DecidableEq, Repr, Inhabited

namespace FileError

/-- What is said of the error. -/
def message : FileError → String
  | notFound => "No such file or directory (os error 2)"
  | notDirectory => "Not a directory (os error 20)"
  | isDirectory => "Is a directory (os error 21)"
  | tooManyLinks => "Too many levels of symbolic links (os error 40)"
  | notText => "stream did not contain valid UTF-8"
  | other message => message

end FileError

/-- Everything that paths can lead to. -/
structure FileTree where
  /-- What is in the top directory. -/
  entries : List Entry
  /-- Where relative paths start. -/
  workingDirectory : Location := []
  /-- No directory has two entries of one name. -/
  distinct : Entry.haveDistinctNames entries = true := by rfl

/-- The tree that has no files. -/
def FileTree.empty (workingDirectory : Location) : FileTree :=
  { entries := [], workingDirectory, distinct := Entry.haveDistinctNames_nil }

instance : Inhabited FileTree := ⟨.empty []⟩

/-- What a path leads to. -/
inductive Target where
  /-- A file and its bytes. -/
  | file (content : ByteArray)
  /-- A directory, where it stands and what is in it. -/
  | directory (location : Location) (entries : List Entry)
deriving Inhabited

namespace FileTree

/-- What is in the directory that the given names lead to. -/
def entriesBelow (es : List Entry) : Location → Option (List Entry)
  | [] => some es
  | n :: ns =>
    match Entry.find? es n with
    | some (.directory _ es) => entriesBelow es ns
    | _ => none

/-- What is in the directory at a location. -/
def entriesAt (t : FileTree) (location : Location) : Option (List Entry) :=
  entriesBelow t.entries location

/-- Takes steps from a directory. `onLink` goes on from a link in some directory with the steps behind
it. -/
def take (t : FileTree) (onLink : Location → Path → List PathStep → Except FileError Target)
    (here : Location) : List PathStep → Except FileError Target
  | [] =>
    match t.entriesAt here with
    | some entries => .ok (.directory here entries)
    | none => .error .notFound
  | .here :: steps | .slash :: steps => t.take onLink here steps
  | .parent :: steps => t.take onLink here.dropLast steps
  | .name n :: steps =>
    match (t.entriesAt here).bind (Entry.find? · n) with
    | none => .error .notFound
    | some (.directory _ _) => t.take onLink (here ++ [n]) steps
    | some (.file _ content) => if steps.isEmpty then .ok (.file content) else .error .notDirectory
    | some (.link _ target) => onLink here target steps

/-- Where a path starts that is written in a directory. -/
def startOf (p : Path) (here : Location) : Location := if p.absolute then [] else here

/-- Takes steps from a directory and follows up to `links` links. -/
def follow (t : FileTree) (links : Nat) (here : Location) (steps : List PathStep) :
    Except FileError Target :=
  match links with
  | 0 => t.take (fun _ _ _ => .error .tooManyLinks) here steps
  | links + 1 =>
    t.take (fun here target steps => t.follow links (startOf target here) (target.steps ++ steps))
      here steps

/-- How many links one path may meet. -/
def linkLimit : Nat := 40

/-- What a path leads to. -/
def resolve (t : FileTree) (p : Path) : Except FileError Target :=
  if p.isEmpty then .error .notFound
  else t.follow linkLimit (startOf p t.workingDirectory) p.steps

/-- The text of the file that a path leads to. -/
def readText (t : FileTree) (p : Path) : Except FileError String :=
  match t.resolve p with
  | .error e => .error e
  | .ok (.directory _ _) => .error .isDirectory
  | .ok (.file content) =>
    match String.fromUTF8? content with
    | some text => .ok text
    | none => .error .notText

end FileTree

end BareCallGraph
