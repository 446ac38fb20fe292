import BareCallGraph.Proofs.ModuleOrder
import BareCallGraph.Proofs.QualifiedNames

/-!
# A module that is added to a program

A module that is added somewhere among others wins some names of its own, from earlier modules or from
none, and leaves all other names as they were. So no name and no link is lost: a call that led to a name
still leads to it, under the new winner. Every edge that comes up is an edge of the added module or leads
to it, and if the module has no name in common with the others, nothing is changed but only added.
-/

namespace BareCallGraph

variable {before after : List ParsedModule} {x : ParsedModule} {b q : String}

/-- An added module leaves a name as it was or wins it. -/
theorem resolve?_added (before after : List ParsedModule) (x : ParsedModule) (b : String) :
    (NameTable.ofModules (before ++ x :: after)).resolve? b =
        (NameTable.ofModules (before ++ after)).resolve? b ∨
      x.HasDefinition b ∧
        (NameTable.ofModules (before ++ x :: after)).resolve? b = some (x.qualify b) := by
  have hnew : (NameTable.ofModules (before ++ x :: after)).resolve? b =
      ((NameTable.ofModules after).resolve? b).or
        (((NameTable.ofModules [x]).resolve? b).or ((NameTable.ofModules before).resolve? b)) := by
    rw [List.append_cons, NameTable.resolve?_ofModules_append, NameTable.resolve?_ofModules_append]
  have hold := NameTable.resolve?_ofModules_append before after b
  -- a later module keeps what it has won, and otherwise the added one comes last
  cases hafter : (NameTable.ofModules after).resolve? b with
  | some q =>
    left
    rw [hnew, hold, hafter, Option.some_or, Option.some_or]
  | none =>
    rw [hafter, Option.none_or] at hnew hold
    cases hx : (NameTable.ofModules [x]).resolve? b with
    | none =>
      left
      rw [hnew, hold, hx, Option.none_or]
    | some q =>
      right
      obtain ⟨m, hm, hb, rfl⟩ := (NameTable.resolve?_ofModules.1 hx).exists_definer
      obtain rfl := List.mem_singleton.1 hm
      exact ⟨hb, by rw [hnew, hx, Option.some_or]⟩

/-- The winner of a name is still the winner, or the added module has won the name. -/
theorem Winner.of_added (h : Winner (before ++ x :: after) b q) :
    Winner (before ++ after) b q ∨ x.HasDefinition b ∧ q = x.qualify b := by
  have hnew := NameTable.resolve?_ofModules.2 h
  rcases resolve?_added before after x b with hsame | ⟨hb, hx⟩
  · exact .inl (NameTable.resolve?_ofModules.1 (hsame ▸ hnew))
  · exact .inr ⟨hb, Option.some.inj (hnew.symm.trans hx)⟩

/-- A name that has a winner keeps one. -/
theorem Winner.exists_added (h : Winner (before ++ after) b q) :
    ∃ q', Winner (before ++ x :: after) b q' := by
  have hold := NameTable.resolve?_ofModules.2 h
  rcases resolve?_added before after x b with hsame | ⟨-, hx⟩
  · exact ⟨q, NameTable.resolve?_ofModules.1 (hsame.trans hold)⟩
  · exact ⟨_, NameTable.resolve?_ofModules.1 hx⟩

/-- A name that the added module does not define keeps its winner. -/
theorem Winner.added_of_not_hasDefinition (h : Winner (before ++ after) b q)
    (hx : ¬ x.HasDefinition b) : Winner (before ++ x :: after) b q := by
  have hold := NameTable.resolve?_ofModules.2 h
  have hsame := (resolve?_added before after x b).resolve_right fun hwon => hx hwon.1
  exact NameTable.resolve?_ofModules.1 (hsame.trans hold)

/-- The added module has no name in common with the others. -/
def IsApart (x : ParsedModule) (modules : List ParsedModule) : Prop :=
  ∀ b, x.HasDefinition b → ∀ m ∈ modules, ¬ m.HasDefinition b

/-- A module that has no name in common with the others takes none from them. -/
theorem Winner.added_of_isApart (hapart : IsApart x (before ++ after))
    (h : Winner (before ++ after) b q) : Winner (before ++ x :: after) b q := by
  refine h.added_of_not_hasDefinition ?_
  intro hx
  obtain ⟨m, hm, hb⟩ := h.hasDefinition
  exact hapart b hx m hm hb

/-- The modules stay when one is added. -/
theorem mem_added {m : ParsedModule} (h : m ∈ before ++ after) : m ∈ before ++ x :: after := by
  simp only [List.mem_append, List.mem_cons] at h ⊢
  tauto

namespace CallGraph

variable {e : Edge}

/-- An edge is still there, up to the winner of the name that is called. -/
theorem exists_edge_added (h : e ∈ (ofProgram (before ++ after)).edges) :
    ∃ b q', Winner (before ++ after) b e.callee ∧ Winner (before ++ x :: after) b q' ∧
      ⟨e.caller, q'⟩ ∈ (ofProgram (before ++ x :: after)).edges := by
  obtain ⟨m, hm, f, hf, b, hb, hcaller, hwinner⟩ := mem_edges_ofProgram.1 h
  obtain ⟨q', hq'⟩ := hwinner.exists_added (x := x)
  have hedge : ⟨e.caller, q'⟩ ∈ (ofProgram (before ++ x :: after)).edges :=
    mem_edges_ofProgram.2 ⟨m, mem_added hm, f, hf, b, hb, hcaller, hq'⟩
  exact ⟨b, q', hwinner, hq', hedge⟩

/-- An edge that comes up comes from the added module or leads to it. -/
theorem edge_of_added (h : e ∈ (ofProgram (before ++ x :: after)).edges)
    (hnew : e ∉ (ofProgram (before ++ after)).edges) :
    (∃ f, x.HasDefinition f ∧ e.caller = x.qualify f) ∨
      ∃ b, x.HasDefinition b ∧ e.callee = x.qualify b := by
  obtain ⟨m, hm, f, hf, b, hb, hcaller, hwinner⟩ := mem_edges_ofProgram.1 h
  by_cases hmx : m = x
  · subst hmx
    exact .inl ⟨f.name, ParsedModule.hasDefinition_iff.2 (List.mem_map_of_mem hf), hcaller⟩
  · have hold : m ∈ before ++ after := by
      simp only [List.mem_append, List.mem_cons] at hm ⊢
      tauto
    rcases hwinner.of_added with hwinner | ⟨hxb, hcallee⟩
    · exact absurd (mem_edges_ofProgram.2 ⟨m, hold, f, hf, b, hb, hcaller, hwinner⟩) hnew
    · exact .inr ⟨b, hxb, hcallee⟩

/-- So no node is lost. -/
theorem node_added_of_isApart (hapart : IsApart x (before ++ after))
    (h : q ∈ (ofProgram (before ++ after)).nodes) : q ∈ (ofProgram (before ++ x :: after)).nodes := by
  obtain ⟨b, hb⟩ := mem_nodes_ofProgram.1 h
  exact mem_nodes_ofProgram.2 ⟨b, hb.added_of_isApart hapart⟩

/-- Nor is any edge. -/
theorem edge_added_of_isApart (hapart : IsApart x (before ++ after))
    (h : e ∈ (ofProgram (before ++ after)).edges) : e ∈ (ofProgram (before ++ x :: after)).edges := by
  obtain ⟨m, hm, f, hf, b, hb, hcaller, hwinner⟩ := mem_edges_ofProgram.1 h
  exact mem_edges_ofProgram.2
    ⟨m, mem_added hm, f, hf, b, hb, hcaller, hwinner.added_of_isApart hapart⟩

/-- A program without dots in the names of its functions has as many nodes as it defines names. -/
theorem nodeCount_ofProgram {modules : List ParsedModule} (h : ∀ m ∈ modules, m.Undotted) :
    (ofProgram modules).nodeCount = {b | ((NameTable.ofModules modules).resolve? b).isSome}.ncard := by
  rw [ofProgram, nodeCount_ofModules (NameTable.resolve?_inj h), NameTable.size_eq_ncard]

/-- An added module does not make nodes fewer. -/
theorem nodeCount_le_added (h : ∀ m ∈ before ++ x :: after, m.Undotted) :
    (ofProgram (before ++ after)).nodeCount ≤ (ofProgram (before ++ x :: after)).nodeCount := by
  have hold : ∀ m ∈ before ++ after, m.Undotted := fun m hm => h m (mem_added hm)
  rw [nodeCount_ofProgram hold, nodeCount_ofProgram h]
  refine Set.ncard_le_ncard ?_ (NameTable.finite_bound _)
  intro b hb
  obtain ⟨m, hm, hdefines⟩ := NameTable.isSome_resolve?_ofModules.1 hb
  exact NameTable.isSome_resolve?_ofModules.2 ⟨m, mem_added hm, hdefines⟩

end CallGraph

/-- A module `x` is added to a program at any place. A name that had a node has one still. For every edge
there is one from the same caller to the new winner of the name that was called. An edge that was not
there before comes from a function of `x` or leads to one. If `x` has no name in common with the other
modules, the old graph is a part of the new one. In the trees of texts no function has a dot in its name,
and of such modules no two bare names have one winner, and the nodes do not get fewer. -/
theorem added_module_keeps_links (before after : List ParsedModule) (x : ParsedModule) :
    (∀ b q, Winner (before ++ after) b q → ∃ q', Winner (before ++ x :: after) b q' ∧
      q' ∈ (CallGraph.ofProgram (before ++ x :: after)).nodes) ∧
    (∀ e ∈ (CallGraph.ofProgram (before ++ after)).edges,
      ∃ b q', Winner (before ++ after) b e.callee ∧ Winner (before ++ x :: after) b q' ∧
        ⟨e.caller, q'⟩ ∈ (CallGraph.ofProgram (before ++ x :: after)).edges) ∧
    (∀ e ∈ (CallGraph.ofProgram (before ++ x :: after)).edges,
      e ∉ (CallGraph.ofProgram (before ++ after)).edges →
      (∃ f, x.HasDefinition f ∧ e.caller = x.qualify f) ∨
        ∃ b, x.HasDefinition b ∧ e.callee = x.qualify b) ∧
    (IsApart x (before ++ after) →
      (∀ q ∈ (CallGraph.ofProgram (before ++ after)).nodes,
        q ∈ (CallGraph.ofProgram (before ++ x :: after)).nodes) ∧
      ∀ e ∈ (CallGraph.ofProgram (before ++ after)).edges,
        e ∈ (CallGraph.ofProgram (before ++ x :: after)).edges) ∧
    (∀ name source, (ParsedModule.mk name (Python.syntaxTree source)).Undotted) ∧
    ((∀ m ∈ before ++ x :: after, m.Undotted) →
      (∀ b c q, Winner (before ++ after) b q → Winner (before ++ after) c q → b = c) ∧
      (CallGraph.ofProgram (before ++ after)).nodeCount ≤
        (CallGraph.ofProgram (before ++ x :: after)).nodeCount) := by
  refine ⟨?_, ?_, ?_, ?_, ?_, ?_⟩
  · intro b q h
    obtain ⟨q', hq'⟩ := h.exists_added (x := x)
    exact ⟨q', hq', CallGraph.mem_nodes_ofProgram.2 ⟨b, hq'⟩⟩
  · intro e he
    exact CallGraph.exists_edge_added he
  · intro e he hnew
    exact CallGraph.edge_of_added he hnew
  · intro hapart
    exact ⟨fun q => CallGraph.node_added_of_isApart hapart,
      fun e => CallGraph.edge_added_of_isApart hapart⟩
  · intro name source
    exact ParsedModule.undotted_mk (Python.syntaxTree_names source)
  · intro hundotted
    have hold : ∀ m ∈ before ++ after, m.Undotted := fun m hm => hundotted m (mem_added hm)
    exact ⟨fun b c q => winner_unique hold, CallGraph.nodeCount_le_added hundotted⟩

section TwoModules

open TwoModules

/-- The sample module `b`, added behind `a`, takes the name `g` over: the edge from `a.f` to `a.g` becomes
one to `b.g`, and the nodes do not get fewer. The module `c`, added between the two, has a name of its
own, and every edge stays. -/
theorem twoModules_added :
    (Winner ([⟨"a", treeA⟩] ++ []) "g" "a.g" ∧
      ∃ q', Winner modules "g" q' ∧ q' ∈ (CallGraph.ofProgram modules).nodes) ∧
    (⟨"a.f", "a.g"⟩ ∈ (CallGraph.ofProgram ([⟨"a", treeA⟩] ++ [])).edges ∧
      ∃ b q', Winner ([⟨"a", treeA⟩] ++ []) b "a.g" ∧ Winner modules b q' ∧
        ⟨"a.f", q'⟩ ∈ (CallGraph.ofProgram modules).edges) ∧
    (⟨"a.f", "b.g"⟩ ∈ (CallGraph.ofProgram modules).edges ∧
      ⟨"a.f", "b.g"⟩ ∉ (CallGraph.ofProgram ([⟨"a", treeA⟩] ++ [])).edges ∧
      ((∃ f, (ParsedModule.mk "b" treeB).HasDefinition f ∧
        "a.f" = (ParsedModule.mk "b" treeB).qualify f) ∨
      ∃ b, (ParsedModule.mk "b" treeB).HasDefinition b ∧
        "b.g" = (ParsedModule.mk "b" treeB).qualify b)) ∧
    ((∀ m ∈ modules, m.Undotted) ∧
      (CallGraph.ofProgram ([⟨"a", treeA⟩] ++ [])).nodeCount ≤
        (CallGraph.ofProgram modules).nodeCount) ∧
    (IsApart third modules ∧ ⟨"a.g", "a.f"⟩ ∈ (CallGraph.ofProgram modules).edges ∧
      ⟨"a.g", "a.f"⟩ ∈ (CallGraph.ofProgram [⟨"a", treeA⟩, third, ⟨"b", treeB⟩]).edges) := by
  obtain ⟨hnode, hkept, hcome, -, -, hundotted⟩ :=
    added_module_keeps_links [⟨"a", treeA⟩] [] ⟨"b", treeB⟩
  obtain ⟨-, -, -, hapart, -, -⟩ := added_module_keeps_links [⟨"a", treeA⟩] [⟨"b", treeB⟩] third
  have hwinner : Winner ([⟨"a", treeA⟩] ++ []) "g" "a.g" := by
    rw [← NameTable.resolve?_ofModules]
    decide +kernel
  have hold : ⟨"a.f", "a.g"⟩ ∈ (CallGraph.ofProgram ([⟨"a", treeA⟩] ++ [])).edges := by
    rw [CallGraph.ofProgram, CallGraph.mem_edges_ofModules]
    decide +kernel
  have hnew : ⟨"a.f", "b.g"⟩ ∈ (CallGraph.ofProgram modules).edges := by
    rw [CallGraph.ofProgram, CallGraph.mem_edges_ofModules]
    decide +kernel
  have hnot : ⟨"a.f", "b.g"⟩ ∉ (CallGraph.ofProgram ([⟨"a", treeA⟩] ++ [])).edges := by
    rw [CallGraph.ofProgram, CallGraph.mem_edges_ofModules]
    decide +kernel
  have hedge : ⟨"a.g", "a.f"⟩ ∈ (CallGraph.ofProgram modules).edges := by
    rw [CallGraph.ofProgram, CallGraph.mem_edges_ofModules]
    decide +kernel
  have hnames : ∀ m ∈ modules, m.Undotted := by
    intro m hm b hb
    have hall : ∀ m ∈ modules, ∀ b ∈ m.tree.topLevelFunctions.map (·.name), '.' ∉ b.toList := by
      decide +kernel
    exact hall m hm b (ParsedModule.hasDefinition_iff.1 hb)
  have hthird : IsApart third modules := by
    intro b hb m hm hmb
    have hall : ∀ b ∈ third.tree.topLevelFunctions.map (·.name), ∀ m ∈ modules,
        b ∉ m.tree.topLevelFunctions.map (·.name) := by decide +kernel
    exact hall b (ParsedModule.hasDefinition_iff.1 hb) m hm (ParsedModule.hasDefinition_iff.1 hmb)
  exact ⟨⟨hwinner, hnode _ _ hwinner⟩, ⟨hold, hkept _ hold⟩, ⟨hnew, hnot, hcome _ hnew hnot⟩,
    ⟨hnames, (hundotted hnames).2⟩, ⟨hthird, hedge, (hapart hthird).2 _ hedge⟩⟩

end TwoModules

end BareCallGraph
