import BareCallGraph.Proofs.Definitions
import BareCallGraph.Proofs.GraphSets
import BareCallGraph.Proofs.Locations
import BareCallGraph.Proofs.Outcomes

/-!
# How the two passes end

An analysis comes down to two questions: which files are discovered, and what each of them parses to. If
every file parses, the first pass yields the table of the modules and the second the graph of the modules
under it. The second pass reads what the first one read, so it succeeds whenever the first one does. All
of this holds for every parser, and whether or not files are handled side by side.
-/

namespace BareCallGraph

namespace Parser

variable {treeOf : String → SyntaxTree} {file : SourceFile} {source : String}

/-- The parser accepts a text whose syntax tree has no fault. It names the module after the file and
keeps the tree. -/
theorem ofTrees_eq_ok_iff {m : ParsedModule} :
    Parser.ofTrees treeOf file source = .ok m ↔ (treeOf source).firstFault? = none ∧
      m.name = file.module ∧ m.tree = treeOf source := by
  obtain ⟨name, tree⟩ := m
  unfold Parser.ofTrees
  cases hfault : (treeOf source).firstFault? with
  | some place => simp [hfault]
  | none => simp [hfault, eq_comm]

/-- The parser refuses every other text. It names the file and where the first fault is. -/
theorem ofTrees_eq_error_iff {e : AnalysisError} :
    Parser.ofTrees treeOf file source = .error e ↔ ∃ place,
      (treeOf source).firstFault? = some place ∧ e = .parse file.path place.line place.column := by
  unfold Parser.ofTrees
  cases hfault : (treeOf source).firstFault? with
  | some place => simp [hfault, eq_comm]
  | none => simp [hfault]

end Parser

/-- The parser of Python accepts the texts whose syntax trees have no fault. -/
theorem Python.parser_eq_ok_iff {file : SourceFile} {source : String} {m : ParsedModule} :
    Python.parser file source = .ok m ↔ (Python.syntaxTree source).firstFault? = none ∧
      m.name = file.module ∧ m.tree = Python.syntaxTree source :=
  Parser.ofTrees_eq_ok_iff

namespace Analyzer

/-- A file can be read, and parses to a module. -/
def ParsesTo (a : Analyzer) (tree : FileTree) (file : SourceFile) (m : ParsedModule) : Prop :=
  ∃ source, tree.readText file.path.toPath = .ok source ∧ a.parser file source = .ok m

/-- A file cannot be read or is refused by the parser, and the error that comes of it. -/
inductive FailsOn (a : Analyzer) (tree : FileTree) (file : SourceFile) : AnalysisError → Prop where
  | unreadable {cause : FileError} (read : tree.readText file.path.toPath = .error cause) :
      FailsOn a tree file (.read file.path cause)
  | refused {source : String} {e : AnalysisError} (read : tree.readText file.path.toPath = .ok source)
      (parsed : a.parser file source = .error e) : FailsOn a tree file e

variable {a : Analyzer} {tree : FileTree} {root : String} {file : SourceFile}

/-- A file is read and its text is handed to the parser; the first of the two that fails decides. -/
theorem outcome_parseFile :
    (a.parseFile tree file).outcome =
      ((tree.readText file.path.toPath).mapError (.read file.path)) >>= a.parser file := by
  cases h : tree.readText file.path.toPath <;> simp [parseFile, h] <;> rfl

/-- A file is parsed exactly if it parses to the module that comes of it. -/
theorem parseFile_eq_ok_iff {m : ParsedModule} :
    (a.parseFile tree file).outcome = .ok m ↔ a.ParsesTo tree file m := by
  rw [outcome_parseFile, bind_eq_ok_iff, ParsesTo]
  cases tree.readText file.path.toPath <;> simp [Except.mapError]

/-- Parsing a file gives the error with which it fails. -/
theorem parseFile_eq_error_iff {e : AnalysisError} :
    (a.parseFile tree file).outcome = .error e ↔ a.FailsOn tree file e := by
  rw [outcome_parseFile, bind_eq_error_iff]
  cases h : tree.readText file.path.toPath with
  | error cause =>
    simp only [Except.mapError, Except.error.injEq, reduceCtorEq, false_and, exists_false, or_false]
    constructor
    · intro heq
      subst heq
      exact .unreadable h
    · intro h
      rcases h with ⟨hread⟩ | ⟨hread, -⟩
      · rw [Except.error.inj (hread.symm.trans h)]
      · rw [h] at hread
        contradiction
  | ok source =>
    simp only [Except.mapError, reduceCtorEq, Except.ok.injEq, exists_eq_left', false_or]
    constructor
    · exact .refused h
    · intro h
      rcases h with ⟨hread⟩ | ⟨hread, hparsed⟩
      · rw [h] at hread
        contradiction
      · rwa [Except.ok.inj (hread.symm.trans h)] at hparsed

/-- Every file parses or fails. -/
theorem parsesTo_or_failsOn (a : Analyzer) (tree : FileTree) (file : SourceFile) :
    (∃ m, a.ParsesTo tree file m) ∨ ∃ e, a.FailsOn tree file e := by
  cases h : (a.parseFile tree file).outcome with
  | ok m => exact .inl ⟨m, parseFile_eq_ok_iff.1 h⟩
  | error e => exact .inr ⟨e, parseFile_eq_error_iff.1 h⟩

/-- A file fails with one error only. -/
theorem FailsOn.unique {e e' : AnalysisError} (h : a.FailsOn tree file e)
    (h' : a.FailsOn tree file e') : e = e' := by
  have := (parseFile_eq_error_iff.2 h).symm.trans (parseFile_eq_error_iff.2 h')
  exact Except.error.inj this

/-- A file that fails does not parse. -/
theorem FailsOn.not_parsesTo {e : AnalysisError} {m : ParsedModule} (h : a.FailsOn tree file e) :
    ¬ a.ParsesTo tree file m := by
  intro hm
  have := (parseFile_eq_error_iff.2 h).symm.trans (parseFile_eq_ok_iff.2 hm)
  contradiction

/-- A file parses to one module only. -/
theorem ParsesTo.unique {m m' : ParsedModule} (h : a.ParsesTo tree file m)
    (h' : a.ParsesTo tree file m') : m = m' := by
  have := (parseFile_eq_ok_iff.2 h).symm.trans (parseFile_eq_ok_iff.2 h')
  exact Except.ok.inj this

/-- The source files are those that are discovered, and only the walk can fail. -/
theorem outcome_sourceFiles :
    (a.sourceFiles tree root).outcome =
      (discover a.configuration tree root).mapError .walk := by
  simp only [sourceFiles, Traced.outcome_bind, Traced.outcome_ofExcept]
  cases discover a.configuration tree root <;> rfl

/-- The source files are the files that were discovered without a fault. -/
theorem sourceFiles_eq_ok_iff {files : List SourceFile} :
    (a.sourceFiles tree root).outcome = .ok files ↔
      discover a.configuration tree root = .ok files := by
  rw [outcome_sourceFiles]
  cases discover a.configuration tree root <;> simp [Except.mapError]

/-- The source files cannot be listed exactly when the walk ends with an error, and that is the error. -/
theorem sourceFiles_eq_error_iff {e : AnalysisError} :
    (a.sourceFiles tree root).outcome = .error e ↔
      ∃ cause, discover a.configuration tree root = .error cause ∧ e = .walk cause := by
  rw [outcome_sourceFiles]
  cases discover a.configuration tree root <;> simp [Except.mapError, eq_comm]

section Pass

variable {α : Type} {finishTime : Nat → Nat} {f : ParsedModule → α} {files : List SourceFile}

/-- A task that parses a file succeeds exactly if the file parses, and works on that module. -/
theorem parseThen_eq_ok_iff {v : α} :
    (do return f (← a.parseFile tree file) : Traced α).outcome = .ok v ↔
      ∃ m, a.ParsesTo tree file m ∧ f m = v := by
  simp only [Traced.outcome_bind, bind_eq_ok_iff, parseFile_eq_ok_iff, Traced.outcome_pure,
    Except.ok.injEq]

/-- A task that parses a file fails exactly as the file does. -/
theorem parseThen_eq_error_iff {e : AnalysisError} :
    (do return f (← a.parseFile tree file) : Traced α).outcome = .error e ↔
      a.FailsOn tree file e := by
  simp only [Traced.outcome_bind, bind_eq_error_iff, parseFile_eq_error_iff, Traced.outcome_pure,
    reduceCtorEq, and_false, exists_false, or_false]

/-- A pass succeeds exactly when every file parses. -/
theorem pass_eq_ok_iff {values : List α} :
    (a.forEach finishTime (fun file => do return f (← a.parseFile tree file)) files).outcome =
        .ok values ↔
      ∃ modules, List.Forall₂ (a.ParsesTo tree) files modules ∧ values = modules.map f := by
  simp only [forEach_eq_ok_iff, parseThen_eq_ok_iff]
  constructor
  · intro h
    induction h with
    | nil => exact ⟨[], .nil, rfl⟩
    | cons hfile _ ih =>
      obtain ⟨m, hm, rfl⟩ := hfile
      obtain ⟨modules, hmodules, rfl⟩ := ih
      exact ⟨m :: modules, .cons hm hmodules, rfl⟩
  · intro h
    obtain ⟨modules, hmodules, rfl⟩ := h
    rw [List.forall₂_map_right_iff]
    exact hmodules.imp fun file m hm => ⟨m, hm, rfl⟩

/-- A pass fails with the error of a file that fails. -/
theorem exists_of_pass_error {e : AnalysisError}
    (h : (a.forEach finishTime (fun file => do return f (← a.parseFile tree file)) files).outcome =
        .error e) :
    ∃ file ∈ files, a.FailsOn tree file e := by
  obtain ⟨file, hfile, he⟩ := exists_of_forEach_error h
  exact ⟨file, hfile, parseThen_eq_error_iff.1 he⟩

/-- A pass over files side by side may fail with the error of any file that fails. -/
theorem exists_pass_error (ha : a.configuration.parallel = true) {e : AnalysisError}
    (hfile : file ∈ files) (he : a.FailsOn tree file e) :
    ∃ finishTime, (a.forEach finishTime (fun file => do return f (← a.parseFile tree file))
      files).outcome = .error e := by
  refine exists_forEach_error ha hfile ?_
  exact parseThen_eq_error_iff.2 he

end Pass

/-- The table that is collected is that of the modules that the files parse to, in the order of the
files. -/
theorem collectFrom_eq_ok_iff {files : List SourceFile} {table : NameTable} :
    (a.collectFrom tree files).outcome = .ok table ↔
      ∃ modules, List.Forall₂ (a.ParsesTo tree) files modules ∧ table = .ofModules modules := by
  simp only [collectFrom, Traced.outcome_bind, bind_eq_ok_iff, pass_eq_ok_iff, Traced.outcome_tell,
    Traced.outcome_pure, true_and, exists_const]
  constructor
  · intro h
    obtain ⟨values, ⟨modules, hmodules, rfl⟩, h⟩ := h
    exact ⟨modules, hmodules, (Except.ok.inj h).symm⟩
  · intro h
    obtain ⟨modules, hmodules, rfl⟩ := h
    exact ⟨_, ⟨modules, hmodules, rfl⟩, rfl⟩

/-- Collecting fails exactly as the tasks of the files do under the schedule. -/
theorem collectFrom_eq_error_iff {files : List SourceFile} {e : AnalysisError} :
    (a.collectFrom tree files).outcome = .error e ↔
      (a.forEach a.schedule.collecting
        (fun file => do return (← a.parseFile tree file).definitions) files).outcome = .error e := by
  simp only [collectFrom, Traced.outcome_bind, bind_eq_error_iff, Traced.outcome_tell,
    Traced.outcome_pure, reduceCtorEq, and_false, exists_false, or_false]

/-- What an analysis reads of a tree: the discovered files and what each of them parses to. -/
structure Reads (a : Analyzer) (tree : FileTree) (root : String) (files : List SourceFile)
    (modules : List ParsedModule) : Prop where
  /-- The files are those under the root. -/
  discovered : discover a.configuration tree root = .ok files
  /-- Each file parses to the module at its place. -/
  parsed : List.Forall₂ (a.ParsesTo tree) files modules

/-- The first pass yields the table of the modules, and fails unless every file parses. -/
theorem collectDefinitions_eq_ok_iff {table : NameTable} :
    (a.collectDefinitions tree root).outcome = .ok table ↔
      ∃ files modules, a.Reads tree root files modules ∧ table = .ofModules modules := by
  simp only [collectDefinitions, Traced.outcome_bind, bind_eq_ok_iff, sourceFiles_eq_ok_iff,
    collectFrom_eq_ok_iff]
  constructor
  · intro h
    obtain ⟨files, hfiles, modules, hmodules, h⟩ := h
    exact ⟨files, modules, ⟨hfiles, hmodules⟩, h⟩
  · intro h
    obtain ⟨files, modules, ⟨hfiles, hmodules⟩, h⟩ := h
    exact ⟨files, hfiles, modules, hmodules, h⟩

/-- A directory is read in one way only. -/
theorem Reads.unique {files files' : List SourceFile} {modules modules' : List ParsedModule}
    (h : a.Reads tree root files modules) (h' : a.Reads tree root files' modules') :
    files = files' ∧ modules = modules' := by
  have hfiles := Except.ok.inj (h.discovered.symm.trans h'.discovered)
  subst hfiles
  have hunique : Relator.RightUnique (a.ParsesTo tree) := fun _ _ _ hm hm' => hm.unique hm'
  exact ⟨rfl, List.right_unique_forall₂' hunique h.parsed h'.parsed⟩

/-- The second pass yields the graph of the modules under their own table. -/
theorem buildCallGraph_eq_ok_iff {graph : CallGraph} :
    (a.buildCallGraph tree root).outcome = .ok graph ↔
      ∃ files modules, a.Reads tree root files modules ∧
        graph = .ofModules (.ofModules modules) modules := by
  have hseed (table : NameTable) : CallGraph.ofNodes (a.schedule.listing table) = table.seed :=
    CallGraph.ofNodes_perm (a.schedule.listing_perm table)
  simp only [buildCallGraph, Traced.outcome_bind, bind_eq_ok_iff, sourceFiles_eq_ok_iff,
    collectDefinitions_eq_ok_iff, pass_eq_ok_iff, Traced.outcome_tell, Traced.outcome_pure, hseed,
    true_and, exists_const]
  constructor
  · intro h
    obtain ⟨table, ⟨files, modules, hreads, rfl⟩, files', hfiles, h⟩ := h
    obtain ⟨edges, ⟨modules', hmodules, rfl⟩, h⟩ := h
    obtain ⟨rfl, rfl⟩ := hreads.unique ⟨hfiles, hmodules⟩
    refine ⟨files, modules, hreads, ?_⟩
    rw [CallGraph.ofModules_eq, Except.ok.inj h]
  · intro h
    obtain ⟨files, modules, hreads, rfl⟩ := h
    refine ⟨_, ⟨files, modules, hreads, rfl⟩, files, hreads.discovered, _,
      ⟨modules, hreads.parsed, rfl⟩, ?_⟩
    rw [CallGraph.ofModules_eq]

/-- The second pass fails exactly as the first one does. -/
theorem buildCallGraph_eq_error_iff {e : AnalysisError} :
    (a.buildCallGraph tree root).outcome = .error e ↔
      (a.collectDefinitions tree root).outcome = .error e := by
  constructor
  · intro h
    cases hc : (a.collectDefinitions tree root).outcome with
    | error e' =>
      rw [buildCallGraph, Traced.outcome_bind, hc] at h
      rcases bind_eq_error_iff.1 h with h | ⟨table, h, -⟩
      · exact h
      · contradiction
    | ok table =>
      obtain ⟨files, modules, hreads, -⟩ := collectDefinitions_eq_ok_iff.1 hc
      have hok := buildCallGraph_eq_ok_iff.2 ⟨files, modules, hreads, rfl⟩
      rw [h] at hok
      contradiction
  · intro h
    rw [buildCallGraph, Traced.outcome_bind, h]
    rfl

end Analyzer

namespace TwoModules

/-! ## Two small modules

The module `b` takes the name `g` over from the module `a`. The parser here reads the two texts as the
Python parser reads them, and refuses all others. -/

/-- A node without children. -/
def leaf (kind : Kind) (role : Option Role) (start : Position) (text : String) : SyntaxTree :=
  .node kind role start text []

/-- Two brackets with nothing between them. -/
def brackets (start : Position) : SyntaxTree :=
  .node .other none start "" [leaf .token none start "(",
    leaf .token none ⟨start.offset + 1, start.line, start.column + 1⟩ ")"]

/-- A call without arguments. -/
def callOf (callee : SyntaxTree) (closing : Position) : SyntaxTree :=
  .node .call none callee.start "" [callee, brackets closing]

/-- A definition without parameters, and one call as its body. The name has one letter. -/
def functionOf (name : String) (start : Position) (call : SyntaxTree) : SyntaxTree :=
  let further (n : Nat) : Position := ⟨start.offset + n, start.line, start.column + n⟩
  .node .functionDefinition none start "" [leaf .token none start "def",
    leaf .name (some .name) (further 4) name, brackets (further 5), leaf .token none (further 7) ":",
    .node .other none call.start "" [.node .other none call.start "" [call]]]

/-- The text of the module `a`. -/
def textA : String := "def f():\n    (g)()\ndef g():\n    f()\n"

/-- The text of the module `b`. -/
def textB : String := "def g():\n    (\\\nf)()\n"

/-- Another text for the module `b`: an old form of statement, which the parser refuses at its start. -/
def refusedText : String := "print f\n"

/-- The call `(g)()` of the module `a`. -/
def callOfG : SyntaxTree :=
  callOf (.node .parenthesized (some .callee) ⟨13, 2, 5⟩ "" [leaf .token none ⟨13, 2, 5⟩ "(",
    leaf .name none ⟨14, 2, 6⟩ "g", leaf .token none ⟨15, 2, 7⟩ ")"]) ⟨16, 2, 8⟩

/-- The call `f()` of the module `a`. -/
def callOfF : SyntaxTree := callOf (leaf .name (some .callee) ⟨32, 4, 5⟩ "f") ⟨33, 4, 6⟩

/-- The call of the module `b`: `f` in parentheses that open with a line continuation. -/
def continuedCallOfF : SyntaxTree :=
  callOf (.node .parenthesized (some .callee) ⟨13, 2, 5⟩ "" [leaf .token none ⟨13, 2, 5⟩ "(",
    leaf .lineContinuation none ⟨14, 2, 6⟩ "\\\n", leaf .name none ⟨16, 3, 1⟩ "f",
    leaf .token none ⟨17, 3, 2⟩ ")"]) ⟨18, 3, 3⟩

/-- The tree of the module `a`. -/
def treeA : SyntaxTree :=
  .node .module none ⟨0, 1, 1⟩ "" [functionOf "f" ⟨0, 1, 1⟩ callOfG,
    functionOf "g" ⟨19, 3, 1⟩ callOfF]

/-- The tree of the module `b`. -/
def treeB : SyntaxTree :=
  .node .module none ⟨0, 1, 1⟩ "" [functionOf "g" ⟨0, 1, 1⟩ continuedCallOfF]

/-- Reads the two texts and no others. -/
def parser : Parser := fun file source =>
  if source = textA then .ok ⟨file.module, treeA⟩
  else if source = textB then .ok ⟨file.module, treeB⟩
  else .error (.parse file.path 1 1)

/-- What is in the directory `repo`, with some text for the module `b`. -/
def entries (text : String) : List Entry :=
  [.file (.ofString "b.py") text.toUTF8, .file (.ofString "a.py") textA.toUTF8]

/-- The two files of the sample have different names. -/
theorem distinct_entries (text : String) :
    Entry.haveDistinctNames [.directory (.ofString "repo") (entries text)] = true := by
  have hne : FileName.ofString "a.py" ≠ .ofString "b.py" := by decide +kernel
  simp [Entry.haveDistinctNames, Entry.hasDistinctNames, entries, Entry.name, hne]

/-- A tree with the directory `repo` that has a file for each module. -/
def tree (text : String) : FileTree :=
  { entries := [.directory (.ofString "repo") (entries text)], distinct := distinct_entries text }

/-- Analyses with the parser of the two texts. -/
def analyzer : Analyzer := { parser := parser }

/-- The file of the module `a`. -/
def fileA : SourceFile := ⟨⟨"repo", [.ofString "a.py"]⟩, "a"⟩

/-- The file of the module `b`. -/
def fileB : SourceFile := ⟨⟨"repo", [.ofString "b.py"]⟩, "b"⟩

/-- The two modules. -/
def modules : List ParsedModule := [⟨"a", treeA⟩, ⟨"b", treeB⟩]

/-- Whatever the second text is, the two files are discovered in the order of their names. -/
theorem discover_repo (text : String) : discover {} (tree text) "repo" = .ok [fileA, fileB] := by
  have hresolve : (tree text).resolve (TreePath.toPath ⟨"repo", []⟩) =
      .ok (.directory [.ofString "repo"] (entries text)) := by
    rw [TreePath.toPath_repo, FileTree.resolve, FileTree.linkLimit, FileTree.follow]
    simp [Path.isEmpty, FileTree.take, FileTree.entriesAt, FileTree.entriesBelow, FileTree.startOf,
      tree, Entry.find?, Entry.name]
  have hlater : (compare (FileName.ofString "b.py") (FileName.ofString "a.py")).isLE = false := by
    decide +kernel
  have hsorted : Entry.sortedByName (entries text) =
      [.file (.ofString "a.py") textA.toUTF8, .file (.ofString "b.py") text.toUTF8] := by
    simp [entries, Entry.sortedByName, List.mergeSort, Entry.name, hlater]
  have hfiles : (Configuration.walk {} (tree text)).filesFrom "repo" =
      .ok [fileA.path, fileB.path] := by
    simp only [Walk.filesFrom, Configuration.walk, hresolve, hsorted, Walk.visitAll, Walk.visit]
    rfl
  have hmatching : [fileA.path, fileB.path].filterMap (SourceFile.at? .python) = [fileA, fileB] := by
    decide +kernel
  rw [discover, hfiles]
  exact congrArg _ hmatching

/-- The two files of the sample are discovered and parse to the two modules. -/
theorem reads : analyzer.Reads (tree textB) "repo" [fileA, fileB] modules where
  discovered := discover_repo textB
  parsed := .cons ⟨textA, by decide +kernel, rfl⟩ (.cons ⟨textB, by decide +kernel, rfl⟩ .nil)

/-- The file of the module `a` parses although the text of the other module is refused. -/
theorem parsesTo_fileA : analyzer.ParsesTo (tree refusedText) fileA ⟨"a", treeA⟩ :=
  ⟨textA, by decide +kernel, rfl⟩

/-- The file of the module `b` is refused when its text is neither of the two. -/
theorem failsOn_fileB : analyzer.FailsOn (tree refusedText) fileB (.parse fileB.path 1 1) := by
  have hread : (tree refusedText).readText fileB.path.toPath = .ok refusedText := by decide +kernel
  exact .refused hread rfl

end TwoModules

end BareCallGraph
