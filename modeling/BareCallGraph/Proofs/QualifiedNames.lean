import BareCallGraph.Proofs.TextLines
import Mathlib.Data.Set.Card

/-!
# Qualified names are unambiguous

A qualified name is the name of a module, a dot and the name of a function. The name of a module may have
any number of dots, but that of a function is a word and has none. So the last dot is where the two meet,
and functions share a qualified name only if they share both parts. It follows that no two bare names
are bound to the same function. A graph then has as many nodes as its table has names, which is the
number of bare names that are defined.
-/

namespace BareCallGraph

open Export.Text (afterLastDot_append)

/-- Two functions without dots in their names have one qualified name only if they have one name in one
module. -/
theorem qualify_inj {module other b c : String} (hb : '.' ∉ b.toList) (hc : '.' ∉ c.toList) :
    qualify module b = qualify other c ↔ module = other ∧ b = c := by
  constructor
  · intro h
    have hlists : module.toList ++ '.' :: b.toList = other.toList ++ '.' :: c.toList := by
      simpa [qualify] using congrArg String.toList h
    have hbare : b.toList = c.toList := by
      rw [← afterLastDot_append module.toList hb, hlists, afterLastDot_append other.toList hc]
    rw [hbare] at hlists
    have hmodule : module.toList = other.toList := List.append_cancel_right hlists
    exact ⟨String.toList_inj.1 hmodule, String.toList_inj.1 hbare⟩
  · intro h
    rw [h.1, h.2]

/-- No function that a module defines has a dot in its name. -/
def ParsedModule.Undotted (m : ParsedModule) : Prop := ∀ b, m.HasDefinition b → '.' ∉ b.toList

/-- A tree whose names are words makes such a module. -/
theorem ParsedModule.undotted_mk {name : String} {t : SyntaxTree} (h : Python.NamesAreWords t) :
    (ParsedModule.mk name t).Undotted := by
  intro b hb
  obtain ⟨s, hs, hdefines⟩ := hb
  exact Python.notMem_of_isWord (Python.isWord_of_defines (h.child hs) hdefines)
    Text.isIdentifierPart_dot

/-- What a parser reads that names functions by words has no dots in the names of functions. -/
theorem Analyzer.Reads.undotted {a : Analyzer} {tree : FileTree} {root : String}
    {files : List SourceFile} {modules : List ParsedModule} (h : a.Reads tree root files modules)
    (hwords : a.parser.NamesWords) : ∀ m ∈ modules, m.Undotted := by
  intro m hm b hb
  obtain ⟨f, -, source, -, hparsed⟩ := exists_of_forall₂ h.parsed.flip m hm
  obtain ⟨s, hs, hdefines⟩ := hb
  exact Python.notMem_of_isWord (hwords f source m hparsed s hs b hdefines) Text.isIdentifierPart_dot

/-- No two bare names have one winner. -/
theorem winner_unique {modules : List ParsedModule} (h : ∀ m ∈ modules, m.Undotted) {b c q : String}
    (hb : Winner modules b q) (hc : Winner modules c q) : b = c := by
  obtain ⟨m, hm, hmb, rfl⟩ := hb.exists_definer
  obtain ⟨n, hn, hnc, hq⟩ := hc.exists_definer
  exact ((qualify_inj (h m hm b hmb) (h n hn c hnc)).1 hq).2

/-! ## Counting names -/

namespace NameTable

/-- The names that are bound are the keys of the table. -/
theorem bound_eq_keys (t : NameTable) :
    {b | (t.resolve? b).isSome} = (t.entries.keys.toFinset : Set String) := by
  ext b
  simp [resolve?]

/-- Finitely many names are bound. -/
theorem finite_bound (t : NameTable) : {b | (t.resolve? b).isSome}.Finite := by
  rw [bound_eq_keys]
  exact Finset.finite_toSet _

/-- The size of a table is the number of bare names that stand for something. -/
theorem size_eq_ncard (t : NameTable) : t.size = {b | (t.resolve? b).isSome}.ncard := by
  rw [bound_eq_keys, Set.ncard_coe_finset, List.toFinset_card_of_nodup t.entries.nodup_keys,
    Std.TreeMap.length_keys, size]

/-- The size of the table of modules is the number of bare names that they define. -/
theorem size_ofModules (modules : List ParsedModule) :
    (ofModules modules).size = {b | ∃ m ∈ modules, m.HasDefinition b}.ncard := by
  simp only [size_eq_ncard, isSome_resolve?_ofModules]

end NameTable

/-- If no two bare names of a table stand for the same, a graph under the table has a node for each of
them. -/
theorem CallGraph.nodeCount_ofModules {t : NameTable}
    (h : ∀ b c q, t.resolve? b = some q → t.resolve? c = some q → b = c) (modules : List ParsedModule) :
    (ofModules t modules).nodeCount = t.size := by
  have hmem : ∀ q, q ∈ (ofModules t modules).nodes.elements ↔ q ∈ t.qualifiedNames := by
    intro q
    rw [NameTable.mem_qualifiedNames]
    exact mem_nodes_ofModules
  have hperm : (ofModules t modules).nodes.elements.Perm t.qualifiedNames :=
    (List.perm_ext_iff_of_nodup (SortedSet.nodup_elements _) (NameTable.nodup_qualifiedNames h)).2 hmem
  calc (ofModules t modules).nodeCount
      _ = t.qualifiedNames.length := hperm.length_eq
      _ = t.size := t.length_qualifiedNames

/-- The table of such modules binds each name to a function of its own. -/
theorem NameTable.resolve?_inj {modules : List ParsedModule} (h : ∀ m ∈ modules, m.Undotted)
    (b c q : String) (hb : (ofModules modules).resolve? b = some q)
    (hc : (ofModules modules).resolve? c = some q) : b = c :=
  winner_unique h (resolve?_ofModules.1 hb) (resolve?_ofModules.1 hc)

/-- A collected definition is one that its module has, under the name of the module. -/
theorem ParsedModule.mem_qualified {m : ParsedModule} {p : String × String} :
    p ∈ m.definitions.qualified ↔ m.HasDefinition p.1 ∧ p.2 = m.qualify p.1 := by
  rw [hasDefinition_iff, ModuleDefinitions.qualified, definitions, List.mem_map]
  constructor
  · intro h
    obtain ⟨b, hb, rfl⟩ := h
    exact ⟨hb, rfl⟩
  · intro h
    exact ⟨p.1, h.1, Prod.ext rfl h.2.symm⟩

/-- Qualified names are unambiguous. The parser of the language names modules after their files, which
may have dots in their names, and functions by words. With any such parser two collected definitions have
one qualified name only if they have one module name and one bare name, so no two bare names are bound to
one function, and the nodes of the graph are as many as the names of the table, which are as many as the
bare names that are defined. With dots in the names of functions it would not be so. -/
theorem qualified_names_unambiguous :
    (Python.parser.NamesModules ∧ Python.parser.NamesWords) ∧
    (∃ module other b c, qualify module b = qualify other c ∧ ¬ (module = other ∧ b = c)) ∧
    ∀ (a : Analyzer) (tree : FileTree) (root : String) (table : NameTable),
      a.parser.NamesModules → a.parser.NamesWords →
      (a.collectDefinitions tree root).outcome = .ok table →
      ∃ files modules graph, a.Reads tree root files modules ∧
        (a.buildCallGraph tree root).outcome = .ok graph ∧
        List.Forall₂ (fun f m => m.definitions.module = f.module) files modules ∧
        (∀ f ∈ files, ∃ base, f.path.fileName? = some (base ++ ".py") ∧
          f.module = if base = "" then ".py" else base) ∧
        (∀ m ∈ modules, ∀ n ∈ modules, ∀ p ∈ m.definitions.qualified,
          ∀ p' ∈ n.definitions.qualified,
          p.2 = p'.2 ↔ m.definitions.module = n.definitions.module ∧ p.1 = p'.1) ∧
        (∀ b c q, table.resolve? b = some q → table.resolve? c = some q → b = c) ∧
        graph.nodeCount = table.size ∧
        table.size = {b | ∃ m ∈ modules, m.HasDefinition b}.ncard := by
  refine ⟨⟨Python.parser_namesModules, Python.parser_namesWords⟩, ?_, ?_⟩
  · exact ⟨"a", "a.b", "b.c", "c", by decide, by decide⟩
  · intro a tree root table hmodules hwords h
    obtain ⟨files, modules, hreads, rfl⟩ := Analyzer.collectDefinitions_eq_ok_iff.1 h
    have hundotted := hreads.undotted hwords
    have hbuild := Analyzer.buildCallGraph_eq_ok_iff.2 ⟨files, modules, hreads, rfl⟩
    refine ⟨files, modules, _, hreads, hbuild, ?_, ?_, ?_, NameTable.resolve?_inj hundotted,
      ?_, ?_⟩
    · refine hreads.parsed.imp ?_
      intro f m hm
      obtain ⟨source, -, hparsed⟩ := hm
      exact hmodules f source m hparsed
    · intro f hf
      exact module_of_mem_discover hreads.discovered hf
    · intro m hm n hn p hp p' hp'
      obtain ⟨hb, hq⟩ := ParsedModule.mem_qualified.1 hp
      obtain ⟨hc, hq'⟩ := ParsedModule.mem_qualified.1 hp'
      rw [hq, hq']
      exact qualify_inj (hundotted m hm _ hb) (hundotted n hn _ hc)
    · exact CallGraph.nodeCount_ofModules (NameTable.resolve?_inj hundotted) modules
    · exact NameTable.size_ofModules modules

section ArrowModule

open ArrowModule
open TwoModules (analyzer)

/-- The sample module with dots in its name defines two functions. They have two qualified names, and
are the two nodes of the graph. -/
theorem arrowModule_names :
    analyzer.parser.NamesModules ∧ analyzer.parser.NamesWords ∧
      ∃ table graph, (analyzer.collectDefinitions shallowTree "# 1 -> x.y.py").outcome = .ok table ∧
        (analyzer.buildCallGraph shallowTree "# 1 -> x.y.py").outcome = .ok graph ∧
        table.size = 2 ∧ graph.nodeCount = 2 ∧
        ∃ m ∈ modules, ("f", "# 1 -> x.y.f") ∈ m.definitions.qualified ∧
          ("g", "# 1 -> x.y.g") ∈ m.definitions.qualified ∧
          ("# 1 -> x.y.f" = "# 1 -> x.y.g" ↔
            m.definitions.module = m.definitions.module ∧ "f" = "g") := by
  have hcollect := Analyzer.collectDefinitions_eq_ok_iff.2 ⟨_, _, reads_shallowTree, rfl⟩
  obtain ⟨files, found, graph, hreads, hbuild, -, -, hpairs, -, hcount, -⟩ :=
    qualified_names_unambiguous.2.2 _ _ _ _ parser_namesModules parser_namesWords hcollect
  obtain ⟨-, rfl⟩ := hreads.unique reads_shallowTree
  have hsize : (NameTable.ofModules modules).size = 2 := by decide +kernel
  have hf : ("f", "# 1 -> x.y.f") ∈
      (ParsedModule.mk "# 1 -> x.y" TwoModules.treeA).definitions.qualified := by decide +kernel
  have hg : ("g", "# 1 -> x.y.g") ∈
      (ParsedModule.mk "# 1 -> x.y" TwoModules.treeA).definitions.qualified := by decide +kernel
  exact ⟨parser_namesModules, parser_namesWords, _, graph, hcollect, hbuild, hsize,
    hcount.trans hsize, _, .head _, hf, hg, hpairs _ (.head _) _ (.head _) _ hf _ hg⟩

end ArrowModule

end BareCallGraph
