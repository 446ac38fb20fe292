import BareCallGraph.CallGraph.Resolution
import BareCallGraph.Proofs.NameTables

/-!
# Graphs as sets of nodes and edges

A sorted set is determined by its elements, and a graph by its nodes and edges. So neither the order in
which nodes are added nor how often one is added matters.
-/

namespace BareCallGraph

namespace SortedSet

variable {α : Type} [Ord α] [Std.LawfulEqOrd α]

/-- No element is in a set twice. -/
theorem nodup_elements (s : SortedSet α) : s.elements.Nodup := by
  refine s.sorted.imp ?_
  intro x y hlt heq
  have hself : compare y y = .eq := Std.ReflCmp.compare_self
  rw [heq, hself] at hlt
  contradiction

/-- Sets with the same elements are equal. -/
theorem ext_of_mem [Std.TransOrd α] {s t : SortedSet α} (h : ∀ x, x ∈ s ↔ x ∈ t) : s = t := by
  have hperm : s.elements.Perm t.elements :=
    (List.perm_ext_iff_of_nodup s.nodup_elements t.nodup_elements).2 h
  have heq : s.elements = t.elements := by
    refine hperm.eq_of_pairwise ?_ s.sorted t.sorted
    intro x y _ _ hxy hyx
    have := Std.OrientedCmp.gt_of_lt hxy
    rw [hyx] at this
    contradiction
  cases s
  cases t
  cases heq
  rfl

end SortedSet

/-- The edges of a module: from one of its functions to what a name stands for that the function calls
bare. -/
theorem ParsedModule.mem_edges {m : ParsedModule} {t : NameTable} {e : Edge} :
    e ∈ m.edges t ↔ ∃ f ∈ m.tree.topLevelFunctions, ∃ b ∈ f.scope.bareCalls,
      e.caller = m.qualify f.name ∧ t.resolve? b = some e.callee := by
  simp only [edges, edgesOf, List.mem_flatMap, List.mem_map, List.mem_filterMap]
  constructor
  · intro h
    obtain ⟨f, hf, target, ⟨b, hb, hr⟩, rfl⟩ := h
    exact ⟨f, hf, b, hb, rfl, hr⟩
  · intro h
    obtain ⟨f, hf, b, hb, hcaller, hr⟩ := h
    exact ⟨f, hf, e.callee, ⟨b, hb, hr⟩, by rw [← hcaller]⟩

namespace CallGraph

/-- Graphs with the same nodes and edges are equal. -/
theorem eq_of_mem {g h : CallGraph} (hn : ∀ q, q ∈ g.nodes ↔ q ∈ h.nodes)
    (he : ∀ e, e ∈ g.edges ↔ e ∈ h.edges) : g = h := by
  cases g
  cases h
  rw [mk.injEq]
  exact ⟨SortedSet.ext_of_mem hn, SortedSet.ext_of_mem he⟩

/-- A graph made of names has these names as its nodes. -/
@[simp]
theorem mem_nodes_ofNodes {names : List String} {q : String} :
    q ∈ (ofNodes names).nodes ↔ q ∈ names := SortedSet.mem_ofList

/-- A graph made of names has no edges. -/
@[simp]
theorem not_mem_edges_ofNodes (names : List String) (e : Edge) : e ∉ (ofNodes names).edges :=
  SortedSet.not_mem_empty e

/-- Nodes can be added in any order. -/
theorem ofNodes_perm {names others : List String} (h : names.Perm others) :
    ofNodes names = ofNodes others := by
  refine eq_of_mem (fun q => ?_) (fun e => ?_)
  · rw [mem_nodes_ofNodes, mem_nodes_ofNodes, h.mem_iff]
  · simp

/-- Adding edges leaves the nodes as they are. -/
theorem nodes_foldl_extend (g : CallGraph) (lists : List (List Edge)) :
    (lists.foldl extend g).nodes = g.nodes := by
  induction lists generalizing g with
  | nil => rfl
  | cons edges lists ih => rw [List.foldl_cons, ih, nodes_extend]

/-- A graph to which lists of edges are added has its own edges and those of the lists. -/
theorem mem_edges_foldl_extend {g : CallGraph} {lists : List (List Edge)} {e : Edge} :
    e ∈ (lists.foldl extend g).edges ↔ e ∈ g.edges ∨ ∃ edges ∈ lists, e ∈ edges := by
  induction lists generalizing g with
  | nil => simp
  | cons edges lists ih =>
    rw [List.foldl_cons, ih, mem_edges_extend]
    simp only [List.mem_cons, or_and_right, exists_or, exists_eq_left, or_assoc]

/-- The graph of modules is made by adding the edges of one module after the other. -/
theorem ofModules_eq (t : NameTable) (modules : List ParsedModule) :
    ofModules t modules = (modules.map (·.edges t)).foldl extend t.seed := by
  rw [ofModules, List.foldl_map]

/-- The nodes of a graph of modules: what the bare names of the table stand for. -/
theorem mem_nodes_ofModules {t : NameTable} {modules : List ParsedModule} {q : String} :
    q ∈ (ofModules t modules).nodes ↔ ∃ b, t.resolve? b = some q := by
  rw [ofModules_eq, nodes_foldl_extend, NameTable.seed, mem_nodes_ofNodes,
    NameTable.mem_qualifiedNames]

/-- The edges of a graph of modules are those of the modules. -/
theorem mem_edges_ofModules {t : NameTable} {modules : List ParsedModule} {e : Edge} :
    e ∈ (ofModules t modules).edges ↔ ∃ m ∈ modules, e ∈ m.edges t := by
  rw [ofModules_eq, mem_edges_foldl_extend, NameTable.seed]
  simp only [not_mem_edges_ofNodes, false_or, List.mem_map]
  constructor
  · intro h
    obtain ⟨edges, ⟨m, hm, rfl⟩, he⟩ := h
    exact ⟨m, hm, he⟩
  · intro h
    obtain ⟨m, hm, he⟩ := h
    exact ⟨m.edges t, ⟨m, hm, rfl⟩, he⟩

end CallGraph

end BareCallGraph
