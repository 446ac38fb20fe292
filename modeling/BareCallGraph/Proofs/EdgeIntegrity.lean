import BareCallGraph.Proofs.Passes

/-!
# No edge dangles without a record

The callee of an edge is always a node, under any table and for any modules. The caller need not be one:
a function whose bare name was taken over keeps its calls. But then the table of the first pass has a
record of the takeover, because nodes and records together make up all functions that are defined.
-/

namespace BareCallGraph

namespace CallGraph

variable {t : NameTable} {modules : List ParsedModule} {e : Edge}

/-- An edge leads to what some bare name of the table stands for. -/
theorem callee_mem_nodes (h : e ∈ (ofModules t modules).edges) :
    e.callee ∈ (ofModules t modules).nodes := by
  obtain ⟨m, -, he⟩ := mem_edges_ofModules.1 h
  obtain ⟨f, -, b, -, -, hresolves⟩ := ParsedModule.mem_edges.1 he
  exact mem_nodes_ofModules.2 ⟨b, hresolves⟩

/-- An edge comes from a function that one of the modules defines. -/
theorem isDefined_caller (h : e ∈ (ofModules t modules).edges) : IsDefined modules e.caller := by
  obtain ⟨m, hm, he⟩ := mem_edges_ofModules.1 h
  obtain ⟨f, hf, b, -, hcaller, -⟩ := ParsedModule.mem_edges.1 he
  obtain ⟨hscope, hdefines⟩ := SyntaxTree.mem_topLevelFunctions.1 hf
  exact ⟨m, hm, f.scope, hscope, f.name, hdefines, hcaller⟩

/-- The functions that modules define are the nodes of their graph and what their table has a record
of. -/
theorem isDefined_iff_mem_nodes {q : String} :
    IsDefined modules q ↔ q ∈ (ofModules (.ofModules modules) modules).nodes ∨
      ∃ s ∈ (NameTable.ofModules modules).takeovers, s.replaced = q := by
  rw [← NameTable.accountsFor_ofModules, mem_nodes_ofModules, NameTable.AccountsFor]

end CallGraph

/-- No edge dangles. Its callee is a node, whatever the table and the modules are. After an analysis of
a tree its caller is a node too, or the table of the first pass has it on record as replaced. -/
theorem edge_integrity :
    (∀ (t : NameTable) (modules : List ParsedModule), ∀ e ∈ (CallGraph.ofModules t modules).edges,
      e.callee ∈ (CallGraph.ofModules t modules).nodes) ∧
    ∀ (a : Analyzer) (tree : FileTree) (root : String) (graph : CallGraph),
      (a.buildCallGraph tree root).outcome = .ok graph →
      ∃ files modules table, a.Reads tree root files modules ∧
        (a.collectDefinitions tree root).outcome = .ok table ∧
        (∀ q, IsDefined modules q ↔ q ∈ graph.nodes ∨ ∃ s ∈ table.takeovers, s.replaced = q) ∧
        ∀ e ∈ graph.edges, e.callee ∈ graph.nodes ∧
          (e.caller ∈ graph.nodes ∨ ∃ s ∈ table.takeovers, s.replaced = e.caller) := by
  constructor
  · intro t modules e he
    exact CallGraph.callee_mem_nodes he
  · intro a tree root graph h
    obtain ⟨files, modules, hreads, rfl⟩ := Analyzer.buildCallGraph_eq_ok_iff.1 h
    refine ⟨files, modules, .ofModules modules, hreads, ?_, ?_, ?_⟩
    · exact Analyzer.collectDefinitions_eq_ok_iff.2 ⟨files, modules, hreads, rfl⟩
    · intro q
      exact CallGraph.isDefined_iff_mem_nodes
    · intro e he
      have hcaller := CallGraph.isDefined_caller he
      exact ⟨CallGraph.callee_mem_nodes he, CallGraph.isDefined_iff_mem_nodes.1 hcaller⟩

section TwoModules

open TwoModules

/-- Under a table of another program calls lead to nodes of that table. Under their own table the
function `a.g`, whose name `b.g` has taken over, is a caller and no node. -/
theorem twoModules_edges :
    (⟨"a.g", "x.f"⟩ ∈ (CallGraph.ofModules (NameTable.empty.insert "f" "x.f") modules).edges ∧
      "x.f" ∈ (CallGraph.ofModules (NameTable.empty.insert "f" "x.f") modules).nodes) ∧
    ∃ graph table, (analyzer.buildCallGraph (tree textB) "repo").outcome = .ok graph ∧
      (analyzer.collectDefinitions (tree textB) "repo").outcome = .ok table ∧
      ⟨"a.g", "a.f"⟩ ∈ graph.edges ∧ "a.g" ∉ graph.nodes ∧
      ∃ s ∈ table.takeovers, s.replaced = "a.g" := by
  constructor
  · have he : ⟨"a.g", "x.f"⟩ ∈
        (CallGraph.ofModules (NameTable.empty.insert "f" "x.f") modules).edges := by
      rw [CallGraph.mem_edges_ofModules]
      decide +kernel
    exact ⟨he, edge_integrity.1 _ _ _ he⟩
  · have hbuild := Analyzer.buildCallGraph_eq_ok_iff.2 ⟨_, _, reads, rfl⟩
    obtain ⟨files, found, table, -, hcollect, -, hedges⟩ := edge_integrity.2 _ _ _ _ hbuild
    have he : ⟨"a.g", "a.f"⟩ ∈ (CallGraph.ofModules (.ofModules modules) modules).edges := by
      rw [CallGraph.mem_edges_ofModules]
      decide +kernel
    have hnode : "a.g" ∉ (CallGraph.ofModules (.ofModules modules) modules).nodes := by
      rw [CallGraph.mem_nodes_ofModules, ← NameTable.mem_qualifiedNames, NameTable.qualifiedNames,
        List.mem_mergeSort]
      decide +kernel
    exact ⟨_, table, hbuild, hcollect, he, hnode, (hedges _ he).2.resolve_left hnode⟩

end TwoModules

end BareCallGraph
