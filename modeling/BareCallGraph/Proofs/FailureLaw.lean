import BareCallGraph.Proofs.FileContents
import BareCallGraph.Proofs.Passes
import BareCallGraph.Proofs.UndiscoveredFiles

/-!
# When an analysis fails, and with what

An analysis that handles one file after the other fails when discovery fails, and otherwise with the
error of the first file that cannot be read or is refused by the parser. Both passes fail alike.

What files hold that are not discovered has no part in it. Whether they are there has a part in one case
only: a walk is cut off at the root or at a link that leads to one of them or through it. The notes that a
link leads to are an example (`LinkedNotes`).
-/

namespace BareCallGraph

namespace Analyzer

/-- Some file fails with an error, and each file before it parses. -/
def FirstFailure (a : Analyzer) (tree : FileTree) (files : List SourceFile) (e : AnalysisError) :
    Prop :=
  ∃ before file after, files = before ++ file :: after ∧
    (∀ f ∈ before, ∃ m, a.ParsesTo tree f m) ∧ a.FailsOn tree file e

variable {a : Analyzer} {tree other : FileTree} {root : String} {files : List SourceFile}
  {e : AnalysisError}

/-- A pass over one file after the other fails on the first file that fails. -/
theorem collectFrom_eq_error_iff_firstFailure (ha : a.configuration.parallel = false) :
    (a.collectFrom tree files).outcome = .error e ↔ a.FirstFailure tree files e := by
  have hparses (f : SourceFile) :
      (∃ v, (do return (← a.parseFile tree f).definitions : Traced _).outcome = .ok v) ↔
        ∃ m, a.ParsesTo tree f m := by
    simp only [parseThen_eq_ok_iff]
    constructor
    · intro h
      obtain ⟨v, m, hm, -⟩ := h
      exact ⟨m, hm⟩
    · intro h
      obtain ⟨m, hm⟩ := h
      exact ⟨_, m, hm, rfl⟩
  rw [collectFrom_eq_error_iff, forEach_eq_error_iff ha, FirstFailure]
  simp only [hparses, parseThen_eq_error_iff]

/-- The first pass fails when discovery fails, and otherwise on the files that are discovered. -/
theorem collectDefinitions_eq_error_iff :
    (a.collectDefinitions tree root).outcome = .error e ↔
      (∃ cause, discover a.configuration tree root = .error cause ∧ e = .walk cause) ∨
      ∃ files, discover a.configuration tree root = .ok files ∧
        (a.collectFrom tree files).outcome = .error e := by
  rw [collectDefinitions, Traced.outcome_bind, bind_eq_error_iff, sourceFiles_eq_error_iff]
  simp only [sourceFiles_eq_ok_iff]

/-- An analysis reads all discovered files if each of them parses. -/
theorem exists_reads (hfiles : discover a.configuration tree root = .ok files)
    (hparses : ∀ file ∈ files, ∃ m, a.ParsesTo tree file m) :
    ∃ modules, a.Reads tree root files modules := by
  obtain ⟨modules, hmodules⟩ := exists_forall₂ hparses
  exact ⟨modules, hfiles, hmodules⟩

end Analyzer

namespace Analyzer

variable {a : Analyzer} {tree other : FileTree} {root : String} {ps : List FileTree.Place}

end Analyzer

namespace LinkedNotes

/-! ## A link to a file that is not a source

The directory `repo` has a module, a link to notes, and the file of notes itself. -/

/-- The module. -/
def module : Entry := .file (.ofString "a.py") TwoModules.textA.toUTF8

/-- The link to the notes. -/
def link : Entry := .link (.ofString "l") ⟨false, [.name (.ofString "notes.txt")]⟩

/-- What is in the directory `repo`. -/
def entries : List Entry := [module, link, .file (.ofString "notes.txt") .empty]

/-- The three entries have different names. -/
theorem distinct_entries :
    Entry.haveDistinctNames [.directory (.ofString "repo") entries] = true := by
  simp [Entry.haveDistinctNames, Entry.hasDistinctNames, entries, module, link, Entry.name]

/-- So have the two that are left. -/
theorem distinct_rest :
    Entry.haveDistinctNames [.directory (.ofString "repo") [module, link]] = true := by
  simp [Entry.haveDistinctNames, Entry.hasDistinctNames, module, link, Entry.name]

/-- The tree that has the directory `repo`. -/
def tree : FileTree :=
  { entries := [.directory (.ofString "repo") entries], distinct := distinct_entries }

/-- The tree in which the notes are lacking. -/
def rest : FileTree :=
  { entries := [.directory (.ofString "repo") [module, link]], distinct := distinct_rest }

/-- The place of the notes. -/
def notes : FileTree.Place := ⟨[.ofString "repo"], .ofString "notes.txt"⟩

/-- The paths of the module and of the root do not touch the notes, and the text of the module is read. -/
theorem paths_avoid : tree.Avoids [notes] TwoModules.fileA.path.toPath ∧
    tree.Avoids [notes] (Path.ofString "repo") ∧
    tree.readText TwoModules.fileA.path.toPath = .ok TwoModules.textA := by
  decide +kernel

/-- With the notes there, the root is the directory and the link leads to them. -/
theorem resolve_tree :
    tree.resolve (TreePath.mk "repo" []).toPath = .ok (.directory [.ofString "repo"] entries) ∧
      tree.resolve (TreePath.mk "repo" [.ofString "l"]).toPath = .ok (.file .empty) := by
  rw [TreePath.toPath_repo, TreePath.toPath_repo, FileTree.resolve, FileTree.resolve,
    FileTree.linkLimit, FileTree.follow]
  simp [Path.isEmpty, FileTree.take, FileTree.follow, FileTree.entriesAt, FileTree.entriesBelow,
    FileTree.startOf, tree, entries, module, link, Entry.find?, Entry.name]

/-- Whether links are followed or not, the module is discovered and nothing else. -/
theorem discover_tree (c : Configuration) : discover c tree "repo" = .ok [TwoModules.fileA] := by
  -- the names are in order already, and one of them has the extension
  have hnames : ((compare (FileName.ofString "a.py") (FileName.ofString "l")).isLE = true ∧
      (compare (FileName.ofString "a.py") (FileName.ofString "notes.txt")).isLE = true ∧
      (compare (FileName.ofString "l") (FileName.ofString "notes.txt")).isLE = true) ∧
      [TwoModules.fileA.path, ⟨"repo", [.ofString "l"]⟩, ⟨"repo", [.ofString "notes.txt"]⟩].filterMap
        (SourceFile.at? .python) = [TwoModules.fileA] := by
    decide +kernel
  have hsorted : Entry.sortedByName entries = entries := by
    simp [Entry.sortedByName, entries, module, link, List.mergeSort,
      List.MergeSort.Internal.splitInTwo, Entry.name, hnames.1]
  refine discover_eq_ok_iff.2 ⟨_, ?_, hnames.2⟩
  simp only [Walk.filesFrom, Configuration.walk, resolve_tree.1, hsorted]
  simp [entries, module, link, Walk.visitAll, Walk.visit, TreePath.child, resolve_tree.2,
    TwoModules.fileA]

/-- The notes are not discovered, not even through the link. -/
theorem undiscovered (c : Configuration) : Undiscovered c tree "repo" [notes] := by
  intro files hfiles f hf
  rw [discover_tree] at hfiles
  cases hfiles
  rw [List.mem_singleton.1 hf]
  exact paths_avoid.1

end LinkedNotes

section LinkedNotes

open LinkedNotes

end LinkedNotes

section TwoModules

open TwoModules

end TwoModules

end BareCallGraph
