import BareCallGraph.Proofs.DiscoveredFiles
import BareCallGraph.Proofs.Passes

/-!
# Which file wins a name

Files are discovered in the order of the names on their paths, and the last definition of a bare name
wins it. So of all discovered files that define a name, the one with the greatest path wins, whatever
the order of the definitions in it and however many files define the name.
-/

namespace BareCallGraph

/-- A parser gives a module the name that discovery gave its file. -/
def Parser.NamesModules (p : Parser) : Prop :=
  ∀ file source m, p file source = .ok m → m.name = file.module

/-- The parser of the language does. -/
theorem Python.parser_namesModules : Parser.NamesModules Python.parser := by
  intro file source m h
  exact (Python.parser_eq_ok_iff.1 h).2.1

namespace Analyzer

variable {a : Analyzer} {tree : FileTree} {root b q : String} {files : List SourceFile}
  {modules : List ParsedModule} {f : SourceFile} {table : NameTable}

/-- A discovered file defines a name at the top of its module. -/
structure IsDefiner (a : Analyzer) (tree : FileTree) (root b : String) (f : SourceFile) : Prop where
  /-- The file is under the root. -/
  discovered : ∃ files, discover a.configuration tree root = .ok files ∧ f ∈ files
  /-- Its module has the definition. -/
  defines : ∃ m, a.ParsesTo tree f m ∧ m.HasDefinition b

/-- Of all files that define a name, this one has the greatest path. -/
structure IsGreatestDefiner (a : Analyzer) (tree : FileTree) (root b : String) (f : SourceFile) : Prop
    extends a.IsDefiner tree root b f where
  /-- No other one has a greater path. -/
  greatest : ∀ g, a.IsDefiner tree root b g → (compare g.path.below f.path.below).isLE = true

/-- The file at a place among the files, and the module at the same place. -/
theorem exists_parsesTo_split {before after : List SourceFile}
    (h : List.Forall₂ (a.ParsesTo tree) (before ++ f :: after) modules) :
    ∃ ms m ms', modules = ms ++ m :: ms' ∧ a.ParsesTo tree f m ∧
      List.Forall₂ (a.ParsesTo tree) after ms' := by
  induction before generalizing modules with
  | nil =>
    cases h with
    | cons hm hafter => exact ⟨[], _, _, rfl, hm, hafter⟩
  | cons g before ih =>
    cases h with
    | @cons _ m' _ ms hg h =>
      obtain ⟨ms, m, ms', rfl, hm, hafter⟩ := ih h
      exact ⟨m' :: ms, m, ms', rfl, hm, hafter⟩

/-- The files that define a name are those of the discovered ones whose module does. -/
theorem Reads.isDefiner_iff (h : a.Reads tree root files modules) :
    a.IsDefiner tree root b f ↔ f ∈ files ∧ ∃ m, a.ParsesTo tree f m ∧ m.HasDefinition b := by
  constructor
  · rintro ⟨⟨files', hfiles', hf⟩, hdefines⟩
    obtain rfl := Except.ok.inj (h.discovered.symm.trans hfiles')
    exact ⟨hf, hdefines⟩
  · rintro ⟨hf, hdefines⟩
    exact ⟨⟨files, h.discovered, hf⟩, hdefines⟩

/-- The greatest of the files that define a name wins it. -/
theorem Reads.winner (h : a.Reads tree root files modules)
    (hp : a.parser.NamesModules) (hf : a.IsGreatestDefiner tree root b f) :
    Winner modules b (f.module ++ "." ++ b) := by
  obtain ⟨hmem, m, hm, hdefines⟩ := h.isDefiner_iff.1 hf.toIsDefiner
  have hsorted := discover_sorted h.discovered
  obtain ⟨before, after, rfl⟩ := List.append_of_mem hmem
  obtain ⟨ms, m', ms', rfl, hm', hafter⟩ := exists_parsesTo_split h.parsed
  obtain rfl := hm.unique hm'
  have hname : m.name = f.module := by
    obtain ⟨source, -, hparsed⟩ := hm
    exact hp f source m hparsed
  rw [← hname]
  refine winner_of_last hdefines ?_
  -- a later file that defines the name would have a greater path
  intro m' hm' hdefines'
  obtain ⟨g, hg, hparses⟩ := exists_of_forall₂ hafter.flip m' hm'
  have hlt : compare f.path.below g.path.below = .lt :=
    (List.pairwise_cons.1 (List.pairwise_append.1 hsorted).2.1).1 g hg
  have hle := hf.greatest g (h.isDefiner_iff.2 ⟨by simp [hg], m', hparses, hdefines'⟩)
  rw [Std.OrientedCmp.gt_of_lt hlt] at hle
  contradiction

/-- If files define a name, one of them has the greatest path. -/
theorem Reads.exists_greatest (h : a.Reads tree root files modules)
    (hf : a.IsDefiner tree root b f) : ∃ g, a.IsGreatestDefiner tree root b g := by
  have hsorted := discover_sorted h.discovered
  have hmem : ∃ f ∈ files, a.IsDefiner tree root b f := ⟨f, (h.isDefiner_iff.1 hf).1, hf⟩
  obtain ⟨before, g, after, rfl, hg, hafter⟩ := exists_last hmem
  refine ⟨g, hg, ?_⟩
  intro f' hf'
  have hf'mem := (h.isDefiner_iff.1 hf').1
  rcases List.mem_append.1 hf'mem with hbefore | hrest
  · rw [(List.pairwise_append.1 hsorted).2.2 f' hbefore g (.head _)]
    rfl
  · rcases List.mem_cons.1 hrest with rfl | hlater
    · exact Std.ReflCmp.isLE_rfl
    · exact absurd hf' (hafter f' hlater)

/-- The table of the first pass binds a name to its greatest definer, and to nothing without one. -/
theorem Reads.resolve?_eq_some_iff (h : a.Reads tree root files modules) (hp : a.parser.NamesModules) :
    (NameTable.ofModules modules).resolve? b = some q ↔
      ∃ f, a.IsGreatestDefiner tree root b f ∧ q = f.module ++ "." ++ b := by
  constructor
  · intro hq
    have hwinner := NameTable.resolve?_ofModules.1 hq
    obtain ⟨m, hm, hdefines⟩ := hwinner.hasDefinition
    obtain ⟨g, hg, hparses⟩ := exists_of_forall₂ h.parsed.flip m hm
    have hdefiner := h.isDefiner_iff.2 ⟨hg, m, hparses, hdefines⟩
    obtain ⟨f, hf⟩ := h.exists_greatest hdefiner
    have hwins := NameTable.resolve?_ofModules.2 (h.winner hp hf)
    exact ⟨f, hf, Option.some.inj (hq.symm.trans hwins)⟩
  · rintro ⟨f, hf, rfl⟩
    exact NameTable.resolve?_ofModules.2 (h.winner hp hf)

/-- A name is not bound exactly if no discovered file defines it. -/
theorem Reads.resolve?_eq_none_iff (h : a.Reads tree root files modules) (hp : a.parser.NamesModules) :
    (NameTable.ofModules modules).resolve? b = none ↔ ∀ f, ¬ a.IsDefiner tree root b f := by
  rw [Option.eq_none_iff_forall_ne_some]
  constructor
  · intro hnone f hf
    obtain ⟨g, hg⟩ := h.exists_greatest hf
    exact hnone _ ((h.resolve?_eq_some_iff hp).2 ⟨g, hg, rfl⟩)
  · intro hnone q hq
    obtain ⟨f, hf, -⟩ := (h.resolve?_eq_some_iff hp).1 hq
    exact hnone f hf.toIsDefiner

/-- A discovered file has a module that is called like the file without its extension. -/
theorem IsDefiner.module_eq (h : a.IsDefiner tree root b f) :
    ∃ base, f.path.fileName? = some (base ++ ".py") ∧
      f.module = if base = "" then ".py" else base := by
  obtain ⟨files, hfiles, hf⟩ := h.discovered
  exact module_of_mem_discover hfiles hf

/-- Some file defines a name that has these names on its path and this module. -/
def HasDefiner (a : Analyzer) (tree : FileTree) (root b : String) (below : List FileName)
    (module : String) : Prop :=
  ∃ f, a.IsDefiner tree root b f ∧ f.path.below = below ∧ f.module = module

/-- The same definitions under the same paths have the same winner. -/
theorem IsGreatestDefiner.transfer {a' : Analyzer} {tree' : FileTree} {root' : String}
    (h : a.IsGreatestDefiner tree root b f) (hsame : ∀ below module,
      a.HasDefiner tree root b below module ↔ a'.HasDefiner tree' root' b below module) :
    ∃ f', a'.IsGreatestDefiner tree' root' b f' ∧ f'.module = f.module := by
  obtain ⟨f', hf', hbelow, hmodule⟩ := (hsame _ _).1 ⟨f, h.toIsDefiner, rfl, rfl⟩
  refine ⟨f', ⟨hf', ?_⟩, hmodule⟩
  intro g' hg'
  obtain ⟨g, hg, hgbelow, -⟩ := (hsame _ _).2 ⟨g', hg', rfl, rfl⟩
  rw [hbelow, ← hgbelow]
  exact h.greatest g hg

end Analyzer

/-- A bare name stands for its definition in the greatest of the files that define it, by the names on
their paths, and for nothing if no file does. So two analyses that find the same definitions under the
same paths resolve all names alike. -/
theorem collision_winner (a : Analyzer) (tree : FileTree) (root : String) (table : NameTable)
    (hp : a.parser.NamesModules) (h : (a.collectDefinitions tree root).outcome = .ok table) :
    (∀ b q, table.resolve? b = some q ↔
      ∃ f, a.IsGreatestDefiner tree root b f ∧ q = f.module ++ "." ++ b) ∧
    (∀ b, table.resolve? b = none ↔ ∀ f, ¬ a.IsDefiner tree root b f) ∧
    (∀ b f, a.IsDefiner tree root b f → ∃ base, f.path.fileName? = some (base ++ ".py") ∧
      f.module = if base = "" then ".py" else base) ∧
    ∀ (a' : Analyzer) (tree' : FileTree) (root' : String) (table' : NameTable),
      a'.parser.NamesModules →
      (a'.collectDefinitions tree' root').outcome = .ok table' →
      (∀ b below module,
        a.HasDefiner tree root b below module ↔ a'.HasDefiner tree' root' b below module) →
      ∀ b, table'.resolve? b = table.resolve? b := by
  obtain ⟨files, modules, hreads, rfl⟩ := Analyzer.collectDefinitions_eq_ok_iff.1 h
  refine ⟨fun b q => hreads.resolve?_eq_some_iff hp, fun b => hreads.resolve?_eq_none_iff hp,
    fun b f hf => hf.module_eq, ?_⟩
  intro a' tree' root' table' hp' h' hsame b
  obtain ⟨files', modules', hreads', rfl⟩ := Analyzer.collectDefinitions_eq_ok_iff.1 h'
  refine Option.ext fun q => ?_
  rw [hreads.resolve?_eq_some_iff hp, hreads'.resolve?_eq_some_iff hp']
  constructor
  · rintro ⟨f', hf', rfl⟩
    obtain ⟨f, hf, hmodule⟩ := hf'.transfer fun below module => (hsame b below module).symm
    exact ⟨f, hf, by rw [hmodule]⟩
  · rintro ⟨f, hf, rfl⟩
    obtain ⟨f', hf', hmodule⟩ := hf.transfer (hsame b)
    exact ⟨f', hf', by rw [hmodule]⟩

section TwoModules

open TwoModules

/-- Both files of the sample define the name `g`, and the one with the greater path wins it. Nothing is
called `h`. -/
theorem twoModules_winner :
    analyzer.parser.NamesModules ∧
      ∃ table, (analyzer.collectDefinitions (tree textB) "repo").outcome = .ok table ∧
        analyzer.IsDefiner (tree textB) "repo" "g" fileA ∧
        table.resolve? "g" = some "b.g" ∧ table.resolve? "h" = none := by
  have hp : analyzer.parser.NamesModules := by
    intro file source m hm
    simp only [analyzer, parser] at hm
    split at hm
    · cases hm
      rfl
    · split at hm <;> cases hm
      rfl
  have hcollect := Analyzer.collectDefinitions_eq_ok_iff.2 ⟨_, _, reads, rfl⟩
  obtain ⟨hsome, hnone, -, -⟩ := collision_winner _ _ _ _ hp hcollect
  have hA : analyzer.IsDefiner (tree textB) "repo" "g" fileA := by
    refine reads.isDefiner_iff.2 ⟨by simp, ⟨"a", treeA⟩, ⟨textA, by decide +kernel, rfl⟩, ?_⟩
    rw [ParsedModule.hasDefinition_iff]
    decide +kernel
  have hB : analyzer.IsGreatestDefiner (tree textB) "repo" "g" fileB := by
    constructor
    · refine reads.isDefiner_iff.2 ⟨by simp, ⟨"b", treeB⟩, ⟨textB, by decide +kernel, rfl⟩, ?_⟩
      rw [ParsedModule.hasDefinition_iff]
      decide +kernel
    · intro g hg
      have hall : ∀ g ∈ [fileA, fileB], (compare g.path.below fileB.path.below).isLE = true := by
        decide +kernel
      exact hall g (reads.isDefiner_iff.1 hg).1
  refine ⟨hp, _, hcollect, hA, (hsome _ _).2 ⟨fileB, hB, by decide +kernel⟩, (hnone _).2 ?_⟩
  intro f hf
  obtain ⟨hmem, m, hm, hdefines⟩ := reads.isDefiner_iff.1 hf
  obtain ⟨m', hm', hparses⟩ := exists_of_forall₂ reads.parsed f hmem
  obtain rfl := hm.unique hparses
  have hall : ∀ m ∈ modules, "h" ∉ m.tree.topLevelFunctions.map (·.name) := by decide +kernel
  exact hall m hm' (ParsedModule.hasDefinition_iff.1 hdefines)

end TwoModules

end BareCallGraph
