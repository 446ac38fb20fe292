import BareCallGraph.Proofs.Passes

/-!
# The order of modules matters through takeovers only

Edges are put into a set, so under one table the order of the modules does not matter, nor how often a
module comes. The table itself depends on the order: the last definition of a name wins. But a name for
which two orders have different winners was bound to different functions in both of them, and then both
tables have a record of a takeover. Where no name was taken over, the graph is the same in every order.
-/

namespace BareCallGraph

namespace NameTable

variable {modules others : List ParsedModule} {b : String}

/-- A name without a record stands for its definition in whichever module defines it. -/
theorem resolve?_of_hasDefinition (h : ¬ (ofModules modules).IsTakenOver b) {m : ParsedModule}
    (hm : m ∈ modules) (hb : m.HasDefinition b) :
    (ofModules modules).resolve? b = some (m.qualify b) := by
  obtain ⟨s, hs, hdefines⟩ := hb
  have hstatement : (m, s) ∈ statementsOf modules :=
    List.mem_flatMap.2 ⟨m, hm, List.mem_map.2 ⟨s, hs, rfl⟩⟩
  have hbinding : bindingOf? (m, s) = some (b, m.qualify b) :=
    bindingOf?_eq_some_iff.2 ⟨hdefines, rfl⟩
  rw [ofModules_eq] at h ⊢
  exact resolve?_insertAll_of_not_isTakenOver h
    (.inr (List.mem_filterMap.2 ⟨(m, s), hstatement, hbinding⟩))

/-- A name without a record in the table of some modules stands for the same in every table of the same
modules. -/
theorem resolve?_eq_of_not_isTakenOver (hsame : ∀ m, m ∈ others ↔ m ∈ modules)
    (h : ¬ (ofModules modules).IsTakenOver b) :
    (ofModules others).resolve? b = (ofModules modules).resolve? b := by
  cases hothers : (ofModules others).resolve? b with
  | some q =>
    obtain ⟨m, hm, hb, rfl⟩ := (resolve?_ofModules.1 hothers).exists_definer
    exact (resolve?_of_hasDefinition h ((hsame m).1 hm) hb).symm
  | none =>
    cases hmodules : (ofModules modules).resolve? b with
    | none => rfl
    | some q =>
      obtain ⟨m, hm, hb⟩ := (resolve?_ofModules.1 hmodules).hasDefinition
      have hbound := isSome_resolve?_ofModules.2 ⟨m, (hsame m).2 hm, hb⟩
      rw [hothers] at hbound
      contradiction

end NameTable

namespace CallGraph

variable {modules others : List ParsedModule}

/-- Under one table only the members of a list of modules matter. -/
theorem ofModules_eq_of_mem_iff (hsame : ∀ m, m ∈ others ↔ m ∈ modules) (t : NameTable) :
    ofModules t others = ofModules t modules := by
  refine eq_of_mem (fun q => ?_) (fun e => ?_)
  · rw [mem_nodes_ofModules, mem_nodes_ofModules]
  · simp only [mem_edges_ofModules, hsame]

/-- Of a table only what names stand for matters. -/
theorem ofModules_congr {t t' : NameTable} (h : ∀ b, t'.resolve? b = t.resolve? b)
    (modules : List ParsedModule) : ofModules t' modules = ofModules t modules := by
  refine eq_of_mem (fun q => ?_) (fun e => ?_)
  · simp only [mem_nodes_ofModules, h]
  · simp only [mem_edges_ofModules, ParsedModule.mem_edges, h]

/-- The graph of modules under their own table. -/
def ofProgram (modules : List ParsedModule) : CallGraph := ofModules (.ofModules modules) modules

/-- The nodes of the graph of a program are the winners of the names. -/
theorem mem_nodes_ofProgram {q : String} :
    q ∈ (ofProgram modules).nodes ↔ ∃ b, Winner modules b q := by
  simp only [ofProgram, mem_nodes_ofModules, NameTable.resolve?_ofModules]

/-- The edges of the graph of a program are the calls of functions by names that some function has won.
-/
theorem mem_edges_ofProgram {e : Edge} :
    e ∈ (ofProgram modules).edges ↔ ∃ m ∈ modules, ∃ f ∈ m.tree.topLevelFunctions,
      ∃ b ∈ f.scope.bareCalls, e.caller = m.qualify f.name ∧ Winner modules b e.callee := by
  simp only [ofProgram, mem_edges_ofModules, ParsedModule.mem_edges, NameTable.resolve?_ofModules]

/-- The same modules have the same graph if their tables agree. -/
theorem ofProgram_eq (hsame : ∀ m, m ∈ others ↔ m ∈ modules)
    (h : ∀ b, (NameTable.ofModules others).resolve? b = (NameTable.ofModules modules).resolve? b) :
    ofProgram others = ofProgram modules := by
  calc ofProgram others
      _ = ofModules (.ofModules others) modules := ofModules_eq_of_mem_iff hsame _
      _ = ofProgram modules := ofModules_congr h modules

end CallGraph

/-- Two lists with the same modules, in any two orders and each any number of times. They have one graph
under any table. A name that their own tables resolve differently has a record in both tables. If the
tables agree, the two have one graph, and so they do if one of the tables has no record at all. -/
theorem order_matters_through_takeovers (modules others : List ParsedModule)
    (hsame : ∀ m, m ∈ others ↔ m ∈ modules) :
    (∀ t, CallGraph.ofModules t others = CallGraph.ofModules t modules) ∧
    (∀ b, (NameTable.ofModules others).resolve? b ≠ (NameTable.ofModules modules).resolve? b →
      (NameTable.ofModules others).IsTakenOver b ∧ (NameTable.ofModules modules).IsTakenOver b) ∧
    ((∀ b, (NameTable.ofModules others).resolve? b = (NameTable.ofModules modules).resolve? b) →
      CallGraph.ofProgram others = CallGraph.ofProgram modules) ∧
    ((NameTable.ofModules modules).takeovers = [] →
      CallGraph.ofProgram others = CallGraph.ofProgram modules) := by
  refine ⟨CallGraph.ofModules_eq_of_mem_iff hsame, ?_, CallGraph.ofProgram_eq hsame, ?_⟩
  · intro b hne
    constructor
    · by_contra hothers
      have hsymm : ∀ m, m ∈ modules ↔ m ∈ others := fun m => (hsame m).symm
      exact hne (NameTable.resolve?_eq_of_not_isTakenOver hsymm hothers).symm
    · by_contra hmodules
      exact hne (NameTable.resolve?_eq_of_not_isTakenOver hsame hmodules)
  · intro hnone
    refine CallGraph.ofProgram_eq hsame fun b => NameTable.resolve?_eq_of_not_isTakenOver hsame ?_
    rintro ⟨s, hs, -⟩
    rw [hnone] at hs
    contradiction

namespace TwoModules

/-- A module `c` that calls the function `f` of the module `a`, and whose own function has a name that
no other module defines. -/
def third : ParsedModule :=
  ⟨"c", .node .module none ⟨0, 1, 1⟩ "" [functionOf "h" ⟨0, 1, 1⟩ callOfF]⟩

end TwoModules

section TwoModules

open TwoModules

/-- The sample modules in two orders resolve `g` differently, and both tables have a record of it. The
modules `a` and `c` have no name in common, and `c`, `a` and `c` again have the same graph. -/
theorem twoModules_orders :
    (∀ m, m ∈ modules.reverse ↔ m ∈ modules) ∧
      (NameTable.ofModules modules.reverse).resolve? "g" = some "a.g" ∧
      (NameTable.ofModules modules).resolve? "g" = some "b.g" ∧
      (NameTable.ofModules modules.reverse).IsTakenOver "g" ∧
      (NameTable.ofModules modules).IsTakenOver "g" ∧
      (NameTable.ofModules [⟨"a", treeA⟩, third]).takeovers = [] ∧
      (∀ b, (NameTable.ofModules [third, ⟨"a", treeA⟩, third]).resolve? b =
        (NameTable.ofModules [⟨"a", treeA⟩, third]).resolve? b) ∧
      CallGraph.ofProgram [third, ⟨"a", treeA⟩, third] = CallGraph.ofProgram [⟨"a", treeA⟩, third] := by
  have hreverse : ∀ m, m ∈ modules.reverse ↔ m ∈ modules := fun m => List.mem_reverse
  have hothers : (NameTable.ofModules modules.reverse).resolve? "g" = some "a.g" := by decide +kernel
  have hmodules : (NameTable.ofModules modules).resolve? "g" = some "b.g" := by decide +kernel
  have hne : (NameTable.ofModules modules.reverse).resolve? "g" ≠
      (NameTable.ofModules modules).resolve? "g" := by
    rw [hothers, hmodules]
    decide
  obtain ⟨-, hrecords, -, -⟩ := order_matters_through_takeovers modules modules.reverse hreverse
  have hrepeated : ∀ m, m ∈ [third, ⟨"a", treeA⟩, third] ↔ m ∈ [⟨"a", treeA⟩, third] := by
    intro m
    simp only [List.mem_cons, List.not_mem_nil, or_false]
    tauto
  have hnone : (NameTable.ofModules [⟨"a", treeA⟩, third]).takeovers = [] := by decide +kernel
  obtain ⟨-, hrecords', hequal, -⟩ := order_matters_through_takeovers _ _ hrepeated
  have hagree : ∀ b, (NameTable.ofModules [third, ⟨"a", treeA⟩, third]).resolve? b =
      (NameTable.ofModules [⟨"a", treeA⟩, third]).resolve? b := by
    intro b
    by_contra hdiffer
    obtain ⟨s, hs, -⟩ := (hrecords' b hdiffer).2
    rw [hnone] at hs
    contradiction
  exact ⟨hreverse, hothers, hmodules, (hrecords "g" hne).1, (hrecords "g" hne).2, hnone, hagree,
    hequal hagree⟩

end TwoModules

end BareCallGraph
