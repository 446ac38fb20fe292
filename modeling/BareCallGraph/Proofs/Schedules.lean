import BareCallGraph.Proofs.FailureLaw

/-!
# Every run ends alike

Files may be handled one after the other or side by side, they may be done in any order, and a table may
list its names in any order. None of this shows in the table or in the graph of an analysis. Only where
several files fail it decides with which of their errors the analysis fails, and then it can be any of
them.
-/

namespace BareCallGraph

namespace Analyzer

/-- The same analysis, with files side by side or one after the other, as a schedule has it. -/
def under (a : Analyzer) (parallel : Bool) (s : Schedule) : Analyzer :=
  { a with configuration := { a.configuration with parallel := parallel }, schedule := s }

/-- Both passes succeed: the first yields the table, the second the graph. -/
def Yields (a : Analyzer) (tree : FileTree) (root : String) (table : NameTable)
    (graph : CallGraph) : Prop :=
  (a.collectDefinitions tree root).outcome = .ok table ∧
    (a.buildCallGraph tree root).outcome = .ok graph

/-- Both passes fail with the same error. -/
def FailsWith (a : Analyzer) (tree : FileTree) (root : String) (e : AnalysisError) : Prop :=
  (a.collectDefinitions tree root).outcome = .error e ∧
    (a.buildCallGraph tree root).outcome = .error e

variable {a : Analyzer} {tree : FileTree} {root : String} {files : List SourceFile}
  {file : SourceFile} {e : AnalysisError}

/-- How the files are scheduled does not matter to how a file fails. -/
theorem failsOn_under (parallel : Bool) (s : Schedule) :
    (a.under parallel s).FailsOn tree file e ↔ a.FailsOn tree file e := by
  rw [← parseFile_eq_error_iff, ← parseFile_eq_error_iff]
  rfl

/-- How the files are scheduled does not matter to what is read. -/
theorem Reads.under {modules : List ParsedModule} (h : a.Reads tree root files modules)
    (parallel : Bool) (s : Schedule) : (a.under parallel s).Reads tree root files modules where
  discovered := h.discovered
  parsed := h.parsed

/-- What is read yields its table and its graph. -/
theorem Reads.yields {modules : List ParsedModule} (h : a.Reads tree root files modules) :
    a.Yields tree root (.ofModules modules) (.ofModules (.ofModules modules) modules) :=
  ⟨collectDefinitions_eq_ok_iff.2 ⟨files, modules, h, rfl⟩,
    buildCallGraph_eq_ok_iff.2 ⟨files, modules, h, rfl⟩⟩

/-- The passes fail alike, so the first one tells. -/
theorem failsWith_iff : a.FailsWith tree root e ↔
    (a.collectDefinitions tree root).outcome = .error e := by
  rw [FailsWith, buildCallGraph_eq_error_iff, and_self]

/-- If collecting from the discovered files fails, both passes do. -/
theorem failsWith_of_collectFrom_error (hfiles : discover a.configuration tree root = .ok files)
    (h : (a.collectFrom tree files).outcome = .error e) : a.FailsWith tree root e :=
  failsWith_iff.2 (collectDefinitions_eq_error_iff.2 (.inr ⟨files, hfiles, h⟩))

/-- Files of which one fails make every run fail, with the error of one that fails. -/
theorem exists_failsWith (hfiles : discover a.configuration tree root = .ok files)
    (hfile : file ∈ files) (he : a.FailsOn tree file e) (parallel : Bool) (s : Schedule) :
    ∃ failing ∈ files, ∃ e', a.FailsOn tree failing e' ∧
      (a.under parallel s).FailsWith tree root e' := by
  cases hc : ((a.under parallel s).collectFrom tree files).outcome with
  | error e' =>
    obtain ⟨failing, hfailing, he'⟩ := exists_of_pass_error (collectFrom_eq_error_iff.1 hc)
    exact ⟨failing, hfailing, e', (failsOn_under parallel s).1 he',
      failsWith_of_collectFrom_error hfiles hc⟩
  | ok table =>
    obtain ⟨modules, hmodules, -⟩ := collectFrom_eq_ok_iff.1 hc
    obtain ⟨m, -, hm⟩ := exists_of_forall₂ hmodules file hfile
    exact absurd hm he.not_parsesTo

/-- Side by side, the error of any file that fails may become the error of the analysis. -/
theorem exists_schedule_failsWith (hfiles : discover a.configuration tree root = .ok files)
    (hfile : file ∈ files) (he : a.FailsOn tree file e) :
    ∃ s, (a.under true s).FailsWith tree root e := by
  have he' := (failsOn_under true a.schedule).2 he
  obtain ⟨finishTime, h⟩ := exists_pass_error rfl hfile he'
  refine ⟨{ a.schedule with collecting := finishTime }, ?_⟩
  exact failsWith_of_collectFrom_error hfiles (collectFrom_eq_error_iff.2 h)

end Analyzer

/-- All runs of an analysis agree, whether files are handled side by side or one after the other, in
whatever order they are done and in whatever order a table lists its names. If no file fails, there is
one table and one graph for all runs. If some file fails, each run fails, and with the error of a file
that fails; any such error is possible side by side, and there is no choice when only one file fails. -/
theorem runs_agree (a : Analyzer) (tree : FileTree) (root : String) :
    (∀ cause, discover a.configuration tree root = .error cause →
      ∀ parallel s, (a.under parallel s).FailsWith tree root (.walk cause)) ∧
    ∀ files, discover a.configuration tree root = .ok files →
      ((∀ file ∈ files, ∀ e, ¬ a.FailsOn tree file e) →
        ∃ table graph, ∀ parallel s, (a.under parallel s).Yields tree root table graph ∧
          ∀ format : ExportFormat, ((a.under parallel s).buildCallGraph tree root).outcome.map
            format.render = .ok (format.render graph)) ∧
      (∀ file ∈ files, ∀ e, a.FailsOn tree file e →
        (∀ parallel s, ∃ failing ∈ files, ∃ e', a.FailsOn tree failing e' ∧
          (a.under parallel s).FailsWith tree root e') ∧
        ∃ s, (a.under true s).FailsWith tree root e) ∧
      ∀ before file after e, files = before ++ file :: after → a.FailsOn tree file e →
        (∀ f ∈ before ++ after, ∀ e', ¬ a.FailsOn tree f e') →
        ∀ parallel s, (a.under parallel s).FailsWith tree root e := by
  refine ⟨?_, fun files hfiles => ⟨?_, ?_, ?_⟩⟩
  · intro cause hcause parallel s
    exact Analyzer.failsWith_iff.2 (Analyzer.collectDefinitions_eq_error_iff.2
      (.inl ⟨cause, hcause, rfl⟩))
  · intro hnone
    have hparses : ∀ file ∈ files, ∃ m, a.ParsesTo tree file m := by
      intro file hfile
      rcases Analyzer.parsesTo_or_failsOn a tree file with hm | ⟨e, he⟩
      · exact hm
      · exact absurd he (hnone file hfile e)
    obtain ⟨modules, hreads⟩ := Analyzer.exists_reads hfiles hparses
    refine ⟨.ofModules modules, .ofModules (.ofModules modules) modules, ?_⟩
    intro parallel s
    have hyields := (hreads.under parallel s).yields
    refine ⟨hyields, ?_⟩
    intro format
    rw [hyields.2]
    rfl
  · intro file hfile e he
    constructor
    · exact Analyzer.exists_failsWith hfiles hfile he
    · exact Analyzer.exists_schedule_failsWith hfiles hfile he
  · intro before file after e hsplit he hothers parallel s
    subst hsplit
    have hfile : file ∈ before ++ file :: after := List.mem_append_right _ List.mem_cons_self
    obtain ⟨failing, hfailing, e', he', hfails⟩ :=
      Analyzer.exists_failsWith hfiles hfile he parallel s
    have hfailing' : failing = file ∨ failing ∈ before ++ after := by
      grind
    rcases hfailing' with rfl | hother
    · rwa [he.unique he']
    · exact absurd he' (hothers failing hother e')

section TwoModules

open TwoModules

/-- The two modules have one table and one graph, and if the second file is refused each run says so. -/
theorem twoModules_runs_agree :
    (∃ table graph, ∀ parallel s,
      (analyzer.under parallel s).Yields (tree textB) "repo" table graph) ∧
    ∀ parallel s, (analyzer.under parallel s).FailsWith (tree refusedText) "repo"
      (.parse fileB.path 1 1) := by
  constructor
  · have hnone : ∀ file ∈ [fileA, fileB], ∀ e, ¬ analyzer.FailsOn (tree textB) file e := by
      intro file hfile e he
      obtain ⟨m, -, hm⟩ := exists_of_forall₂ reads.parsed file hfile
      exact he.not_parsesTo hm
    obtain ⟨table, graph, h⟩ :=
      ((runs_agree analyzer (tree textB) "repo").2 _ (discover_repo textB)).1 hnone
    exact ⟨table, graph, fun parallel s => (h parallel s).1⟩
  · refine ((runs_agree analyzer (tree refusedText) "repo").2 _ (discover_repo refusedText)).2.2
      [fileA] fileB [] _ rfl failsOn_fileB ?_
    intro file hfile e he
    rw [List.append_nil, List.mem_singleton] at hfile
    subst hfile
    exact he.not_parsesTo parsesTo_fileA

end TwoModules

end BareCallGraph
