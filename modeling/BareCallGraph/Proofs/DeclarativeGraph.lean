import BareCallGraph.Proofs.BareCalls
import BareCallGraph.Proofs.Passes

/-!
# The graph of an analysis, said without the analysis

The nodes are the winners of the bare names, and the edges are given by calls: a call that stands within
a definition leads from the function that is defined to the winner of the name that is called. The graph
that the two passes build has exactly these nodes, and of these edges exactly those that some call gives
which is not hidden behind a line continuation.
-/

namespace BareCallGraph

/-- A call within a definition of some module gives an edge: from the function that is defined there to
the winner of the name that is called. -/
def GivesEdge (modules : List ParsedModule) (call : SyntaxTree) (e : Edge) : Prop :=
  ∃ m ∈ modules, ∃ s ∈ m.tree.children, ∃ f b, s.Defines f ∧ call.Within s ∧ call.Calls b ∧
    e.caller = m.name ++ "." ++ f ∧ Winner modules b e.callee

/-- The edges of the graph of modules under their own table are those that visible calls give. -/
theorem mem_edges_ofModules_iff_givesEdge {modules : List ParsedModule} {e : Edge} :
    e ∈ (CallGraph.ofModules (.ofModules modules) modules).edges ↔
      ∃ call, GivesEdge modules call e ∧ ¬ call.Hidden := by
  simp only [CallGraph.mem_edges_ofModules, ParsedModule.mem_edges,
    SyntaxTree.mem_topLevelFunctions, SyntaxTree.mem_bareCalls, SyntaxTree.calledName?_eq_some_iff,
    NameTable.resolve?_ofModules]
  constructor
  · intro h
    obtain ⟨m, hm, f, ⟨hscope, hf⟩, b, ⟨call, hwithin, hcalls, hseen⟩, hcaller, hwinner⟩ := h
    exact ⟨call, ⟨m, hm, f.scope, hscope, f.name, b, hf, hwithin, hcalls, hcaller, hwinner⟩, hseen⟩
  · intro h
    obtain ⟨call, ⟨m, hm, s, hs, f, b, hf, hwithin, hcalls, hcaller, hwinner⟩, hseen⟩ := h
    exact ⟨m, hm, ⟨f, s⟩, ⟨hs, hf⟩, b, ⟨call, hwithin, hcalls, hseen⟩, hcaller, hwinner⟩

/-- A successful analysis yields the winners as nodes, and as edges what visible calls within
definitions give. So it yields every edge that calls give exactly when each edge that a hidden call gives
is also given by a visible one. -/
theorem buildCallGraph_declarative (a : Analyzer) (tree : FileTree) (root : String) (graph : CallGraph)
    (h : (a.buildCallGraph tree root).outcome = .ok graph) :
    ∃ files modules, a.Reads tree root files modules ∧
      (a.parser = Python.parser → List.Forall₂ (fun file m => m.name = file.module ∧
        ∃ source, tree.readText file.path.toPath = .ok source ∧
          m.tree = Python.syntaxTree source) files modules) ∧
      (∀ q, q ∈ graph.nodes ↔ ∃ b, Winner modules b q) ∧
      (∀ e, e ∈ graph.edges ↔ ∃ call, GivesEdge modules call e ∧ ¬ call.Hidden) ∧
      ((∀ e, e ∈ graph.edges ↔ ∃ call, GivesEdge modules call e) ↔
        ∀ e call, GivesEdge modules call e → call.Hidden →
          ∃ other, GivesEdge modules other e ∧ ¬ other.Hidden) := by
  obtain ⟨files, modules, hreads, rfl⟩ := Analyzer.buildCallGraph_eq_ok_iff.1 h
  refine ⟨files, modules, hreads, ?_, ?_, ?_, ?_⟩
  · intro hparser
    refine hreads.parsed.imp ?_
    intro file m hm
    obtain ⟨source, hread, hparsed⟩ := hm
    rw [hparser, Python.parser_eq_ok_iff] at hparsed
    exact ⟨hparsed.2.1, source, hread, hparsed.2.2⟩
  · intro q
    simp only [CallGraph.mem_nodes_ofModules, NameTable.resolve?_ofModules]
  · intro e
    exact mem_edges_ofModules_iff_givesEdge
  · simp only [mem_edges_ofModules_iff_givesEdge]
    constructor
    · intro hall e call hgives _
      exact (hall e).2 ⟨call, hgives⟩
    · intro hhidden e
      constructor
      · intro hvisible
        obtain ⟨call, hgives, -⟩ := hvisible
        exact ⟨call, hgives⟩
      · intro hgives
        obtain ⟨call, hgives⟩ := hgives
        by_cases hc : call.Hidden
        · exact hhidden e call hgives hc
        · exact ⟨call, hgives, hc⟩

section TwoModules

open TwoModules

/-- Two modules of which the second takes a name over from the first. -/
theorem twoModules_declarative :
    analyzer.Reads (tree textB) "repo" [fileA, fileB] modules ∧
      ∃ graph, (analyzer.buildCallGraph (tree textB) "repo").outcome = .ok graph ∧
        (∀ q, q ∈ graph.nodes ↔ ∃ b, Winner modules b q) ∧
        ∀ e, e ∈ graph.edges ↔ ∃ call, GivesEdge modules call e ∧ ¬ call.Hidden := by
  have hbuild := Analyzer.buildCallGraph_eq_ok_iff.2 ⟨_, _, reads, rfl⟩
  obtain ⟨files, found, hreads, -, hnodes, hedges, -⟩ := buildCallGraph_declarative _ _ _ _ hbuild
  obtain ⟨-, rfl⟩ := hreads.unique reads
  exact ⟨reads, _, hbuild, hnodes, hedges⟩

/-- The function `b.g` calls `f`, behind a line continuation, and the graph has no edge for it. -/
theorem continued_call_lost :
    analyzer.Reads (tree textB) "repo" [fileA, fileB] modules ∧
      (∃ call, GivesEdge modules call ⟨"b.g", "a.f"⟩) ∧
      ∃ graph, (analyzer.buildCallGraph (tree textB) "repo").outcome = .ok graph ∧
        ⟨"b.g", "a.f"⟩ ∉ graph.edges := by
  refine ⟨reads, ?_, _, Analyzer.buildCallGraph_eq_ok_iff.2 ⟨_, _, reads, rfl⟩, ?_⟩
  · refine ⟨continuedCallOfF, ⟨"b", treeB⟩, .tail _ (.head _),
      functionOf "g" ⟨0, 1, 1⟩ continuedCallOfF, .head _, "g", "f", ?_, ?_, ?_, rfl, ?_⟩
    · exact .plain ⟨rfl, rfl, _, rfl, rfl⟩
    · -- the call is in the body, the last child of the definition
      refine .inChild (.tail _ (.tail _ (.tail _ (.tail _ (.head _))))) ?_
      exact .inChild (.head _) (.inChild (.head _) .whole)
    · refine ⟨rfl, _, rfl, .layer ⟨rfl, [_, _], [_], rfl, rfl, ?_⟩ (.name rfl)⟩
      simp [leaf, SyntaxTree.kind, Kind.isFiller]
    · rw [← NameTable.resolve?_ofModules]
      decide +kernel
  · rw [CallGraph.mem_edges_ofModules]
    decide +kernel

end TwoModules

end BareCallGraph
