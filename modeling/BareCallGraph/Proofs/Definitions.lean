import BareCallGraph.CallGraph.Resolution
import BareCallGraph.Proofs.BareCalls
import BareCallGraph.Proofs.NameTables

/-!
# Definitions and winners

A statement at the top of a module defines a plain function if it is a `def` without `async`, or has one
under its decorators. Of all definitions of a bare name, in the order of the modules and of the
statements in each, the last one wins the name. The table of the modules holds exactly the winners, and
it accounts for every function that is defined.
-/

namespace BareCallGraph

namespace SyntaxTree

/-- A `def` without `async`, and the name that it binds. -/
def IsPlainDef (d : SyntaxTree) (b : String) : Prop :=
  d.kind = .functionDefinition ∧ d.isAsync = false ∧ ∃ n, d.child? .name = some n ∧ n.text = b

/-- A statement that defines a plain function of some name, decorated or not. -/
inductive Defines : SyntaxTree → String → Prop where
  | plain {s : SyntaxTree} {b : String} (definition : s.IsPlainDef b) : Defines s b
  | decorated {s d : SyntaxTree} {b : String} (kind : s.kind = .decoratedDefinition)
      (under : s.child? .definition = some d) (definition : d.IsPlainDef b) : Defines s b

/-- The definition in a statement is the statement itself, or the one that is decorated. -/
theorem definition?_eq_some_iff {s d : SyntaxTree} :
    s.definition? = some d ↔ s.kind = .functionDefinition ∧ d = s ∨
      s.kind = .decoratedDefinition ∧ s.child? .definition = some d ∧
        d.kind = .functionDefinition := by
  unfold definition?
  split
  · next h => simp [h, eq_comm]
  · next h => simp [h, Option.filter_eq_some_iff]
  · next h₁ h₂ =>
    constructor
    · simp
    · intro h
      rcases h with ⟨h, -⟩ | ⟨h, -⟩
      · exact absurd h h₁
      · exact absurd h h₂

/-- The definition that a statement is or decorates stands within the statement. -/
theorem within_of_definition? {s d : SyntaxTree} (h : s.definition? = some d) : d.Within s := by
  rcases definition?_eq_some_iff.1 h with ⟨-, rfl⟩ | ⟨-, hchild, -⟩
  · exact .whole
  · exact .inChild (List.mem_of_find?_eq_some hchild) .whole

/-- The definition in a statement is the definition of a function. -/
theorem kind_of_definition? {s d : SyntaxTree} (h : s.definition? = some d) :
    d.kind = .functionDefinition := by
  rcases definition?_eq_some_iff.1 h with ⟨hk, rfl⟩ | ⟨-, -, hk⟩
  · exact hk
  · exact hk

/-- A statement has a plain function exactly if it has a definition that is not asynchronous and has a
name. -/
theorem plainFunction?_eq_some_iff_definition? {s : SyntaxTree} {f : TopLevelFunction} :
    s.plainFunction? = some f ↔ f.scope = s ∧ ∃ d, s.definition? = some d ∧ d.isAsync = false ∧
      ∃ n, d.child? .name = some n ∧ n.text = f.name := by
  obtain ⟨name, scope⟩ := f
  simp only [plainFunction?, bind, Option.bind_eq_some_iff]
  constructor
  · intro h
    obtain ⟨d, hd, h⟩ := h
    split at h
    · contradiction
    · next hasync =>
      obtain ⟨n, hn, h⟩ := Option.bind_eq_some_iff.1 h
      cases h
      exact ⟨rfl, d, hd, by simpa using hasync, n, hn, rfl⟩
  · intro h
    obtain ⟨rfl, d, hd, hasync, n, hn, rfl⟩ := h
    exact ⟨d, hd, by simp [hasync, hn]⟩

/-- The function that a statement is taken to define is the one that it defines, with the whole
statement as its scope. -/
theorem plainFunction?_eq_some_iff {s : SyntaxTree} {f : TopLevelFunction} :
    s.plainFunction? = some f ↔ f.scope = s ∧ s.Defines f.name := by
  rw [plainFunction?_eq_some_iff_definition?]
  refine and_congr_right fun _ => ?_
  constructor
  · intro h
    obtain ⟨d, hd, hasync, hname⟩ := h
    rcases definition?_eq_some_iff.1 hd with ⟨hk, rfl⟩ | ⟨hk, hunder, hdk⟩
    · exact .plain ⟨hk, hasync, hname⟩
    · exact .decorated hk hunder ⟨hdk, hasync, hname⟩
  · intro h
    cases h with
    | plain definition =>
      exact ⟨s, definition?_eq_some_iff.2 (.inl ⟨definition.1, rfl⟩), definition.2⟩
    | decorated kind under definition =>
      exact ⟨_, definition?_eq_some_iff.2 (.inr ⟨kind, under, definition.1⟩), definition.2⟩

/-- The functions of a module are the statements at its top that define one, under the names they define.
-/
theorem mem_topLevelFunctions {t : SyntaxTree} {f : TopLevelFunction} :
    f ∈ t.topLevelFunctions ↔ f.scope ∈ t.children ∧ f.scope.Defines f.name := by
  simp only [topLevelFunctions, List.mem_filterMap, plainFunction?_eq_some_iff]
  grind

end SyntaxTree

/-- The statements at the top of all modules, in order, each with its module. -/
def statementsOf (modules : List ParsedModule) : List (ParsedModule × SyntaxTree) :=
  modules.flatMap fun m => m.tree.children.map fun s => (m, s)

/-- Some module defines a function of this qualified name at its top. -/
def IsDefined (modules : List ParsedModule) (q : String) : Prop :=
  ∃ m ∈ modules, ∃ s ∈ m.tree.children, ∃ b, s.Defines b ∧ q = m.name ++ "." ++ b

/-- The qualified name that a bare name gets from its last definition, in the order of the modules and
of the statements in each. -/
def Winner (modules : List ParsedModule) (b q : String) : Prop :=
  ∃ before m s after, statementsOf modules = before ++ (m, s) :: after ∧
    s.Defines b ∧ (∀ p ∈ after, ¬ p.2.Defines b) ∧ q = m.name ++ "." ++ b

/-- If a list has members of some kind, one of them is the last. -/
theorem exists_last {α : Type} {p : α → Prop} {xs : List α} (h : ∃ x ∈ xs, p x) :
    ∃ before x after, xs = before ++ x :: after ∧ p x ∧ ∀ y ∈ after, ¬ p y := by
  induction xs with
  | nil =>
    obtain ⟨x, hx, -⟩ := h
    contradiction
  | cons y ys ih =>
    by_cases hys : ∃ x ∈ ys, p x
    · obtain ⟨before, x, after, rfl, hx, hafter⟩ := ih hys
      exact ⟨y :: before, x, after, rfl, hx, hafter⟩
    · obtain ⟨x, hx, hpx⟩ := h
      rcases List.mem_cons.1 hx with rfl | hx
      · exact ⟨[], x, ys, rfl, hpx, fun z hz hpz => hys ⟨z, hz, hpz⟩⟩
      · exact absurd ⟨x, hx, hpx⟩ hys

/-- A module has a definition of a name at its top. -/
def ParsedModule.HasDefinition (m : ParsedModule) (b : String) : Prop :=
  ∃ s ∈ m.tree.children, s.Defines b

/-- A module has a definition exactly if one of its functions has that name. -/
theorem ParsedModule.hasDefinition_iff {m : ParsedModule} {b : String} :
    m.HasDefinition b ↔ b ∈ m.tree.topLevelFunctions.map (·.name) := by
  rw [List.mem_map]
  constructor
  · rintro ⟨s, hs, hdefines⟩
    exact ⟨⟨b, s⟩, SyntaxTree.mem_topLevelFunctions.2 ⟨hs, hdefines⟩, rfl⟩
  · rintro ⟨f, hf, rfl⟩
    obtain ⟨hscope, hdefines⟩ := SyntaxTree.mem_topLevelFunctions.1 hf
    exact ⟨f.scope, hscope, hdefines⟩

/-- The last module that defines a name wins it. -/
theorem winner_of_last {before after : List ParsedModule} {m : ParsedModule} {b : String}
    (hm : m.HasDefinition b) (hafter : ∀ m' ∈ after, ¬ m'.HasDefinition b) :
    Winner (before ++ m :: after) b (m.name ++ "." ++ b) := by
  obtain ⟨earlier, s, later, hchildren, hs, hlater⟩ := exists_last hm
  refine ⟨statementsOf before ++ earlier.map (m, ·), m, s,
    later.map (m, ·) ++ statementsOf after, ?_, hs, ?_, rfl⟩
  · simp [statementsOf, hchildren]
  · intro p hp
    rcases List.mem_append.1 hp with hp | hp
    · obtain ⟨s', hs', rfl⟩ := List.mem_map.1 hp
      exact hlater s' hs'
    · obtain ⟨m', hm', hp⟩ := List.mem_flatMap.1 hp
      obtain ⟨s', hs', rfl⟩ := List.mem_map.1 hp
      exact fun hdefines => hafter m' hm' ⟨s', hs', hdefines⟩

/-- A winner is a definition of some module. -/
theorem Winner.exists_definer {modules : List ParsedModule} {b q : String} (h : Winner modules b q) :
    ∃ m ∈ modules, m.HasDefinition b ∧ q = m.qualify b := by
  obtain ⟨before, m, s, after, hstatements, hs, -, hq⟩ := h
  have hmem : (m, s) ∈ statementsOf modules := by simp [hstatements]
  obtain ⟨m', hm', hp⟩ := List.mem_flatMap.1 hmem
  obtain ⟨s', hs', heq⟩ := List.mem_map.1 hp
  cases heq
  exact ⟨m, hm', ⟨s, hs', hs⟩, hq⟩

/-- A name that was won is defined in one of the modules. -/
theorem Winner.hasDefinition {modules : List ParsedModule} {b q : String} (h : Winner modules b q) :
    ∃ m ∈ modules, m.HasDefinition b := by
  obtain ⟨m, hm, hb, -⟩ := h.exists_definer
  exact ⟨m, hm, hb⟩

/-- A name that some module defines has a winner. -/
theorem exists_winner {modules : List ParsedModule} {m : ParsedModule} {b : String} (hm : m ∈ modules)
    (hb : m.HasDefinition b) : ∃ q, Winner modules b q := by
  have hdefiner : ∃ m ∈ modules, m.HasDefinition b := ⟨m, hm, hb⟩
  obtain ⟨before, last, after, rfl, hlast, hafter⟩ := exists_last hdefiner
  exact ⟨_, winner_of_last hlast hafter⟩

/-- What a statement binds in the table of all modules. -/
def bindingOf? (p : ParsedModule × SyntaxTree) : Option (String × String) :=
  p.2.plainFunction?.map fun f => (f.name, p.1.qualify f.name)

/-- The binding of a statement is that of the name that it defines to the qualified name. -/
theorem bindingOf?_eq_some_iff {p : ParsedModule × SyntaxTree} {b q : String} :
    bindingOf? p = some (b, q) ↔ p.2.Defines b ∧ q = p.1.name ++ "." ++ b := by
  simp only [bindingOf?, Option.map_eq_some_iff, SyntaxTree.plainFunction?_eq_some_iff,
    Prod.mk.injEq, ParsedModule.qualify, qualify]
  constructor
  · intro h
    obtain ⟨f, ⟨-, hf⟩, rfl, rfl⟩ := h
    exact ⟨hf, rfl⟩
  · intro h
    obtain ⟨hb, rfl⟩ := h
    exact ⟨⟨b, p.2⟩, ⟨rfl, hb⟩, rfl, rfl⟩

namespace NameTable

/-- The table of the functions of all modules. -/
def ofModules (modules : List ParsedModule) : NameTable :=
  ofDefinitions (modules.map ParsedModule.definitions)

/-- The table of the modules binds what their statements bind, in order. -/
theorem ofModules_eq (modules : List ParsedModule) :
    ofModules modules = empty.insertAll ((statementsOf modules).filterMap bindingOf?) := by
  rw [ofModules, ofDefinitions, List.flatMap_map, statementsOf, List.filterMap_flatMap]
  congr 2
  funext m
  simp [ModuleDefinitions.qualified, ParsedModule.definitions, SyntaxTree.topLevelFunctions,
    List.map_filterMap, List.filterMap_map, Function.comp_def, bindingOf?, ParsedModule.qualify]

/-- A bare name stands for its winner in the table of the modules, and for nothing without one. -/
theorem resolve?_ofModules {modules : List ParsedModule} {b q : String} :
    (ofModules modules).resolve? b = some q ↔ Winner modules b q := by
  rw [ofModules_eq, resolve?_insertAll]
  simp only [resolve?_empty, reduceCtorEq, false_and, or_false]
  constructor
  · intro h
    obtain ⟨before, after, hs, hafter⟩ := h
    obtain ⟨xs, ys, hxy, -, hys⟩ := List.filterMap_eq_append_iff.1 hs
    obtain ⟨skipped, ⟨m, s⟩, rest, rfl, -, hms, hrest⟩ := List.filterMap_eq_cons_iff.1 hys
    obtain ⟨hdefines, hq⟩ := bindingOf?_eq_some_iff.1 hms
    refine ⟨xs ++ skipped, m, s, rest, by simp [hxy], hdefines, fun p hp hb => ?_, hq⟩
    have hbinding := bindingOf?_eq_some_iff.2 ⟨hb, rfl⟩
    exact hafter _ (hrest ▸ List.mem_filterMap.2 ⟨p, hp, hbinding⟩) rfl
  · intro h
    obtain ⟨before, m, s, after, hs, hdefines, hafter, hq⟩ := h
    have hbinding : bindingOf? (m, s) = some (b, q) := bindingOf?_eq_some_iff.2 ⟨hdefines, hq⟩
    refine ⟨before.filterMap bindingOf?, after.filterMap bindingOf?, ?_, ?_⟩
    · rw [hs, List.filterMap_append, List.filterMap_cons, hbinding]
    · intro p hp hb
      obtain ⟨b', q'⟩ := p
      subst hb
      obtain ⟨p, hp, hbinding⟩ := List.mem_filterMap.1 hp
      exact hafter p hp (bindingOf?_eq_some_iff.1 hbinding).1

/-- A name is bound in the table of the modules exactly if some module defines it. -/
theorem isSome_resolve?_ofModules {modules : List ParsedModule} {b : String} :
    ((ofModules modules).resolve? b).isSome ↔ ∃ m ∈ modules, m.HasDefinition b := by
  rw [Option.isSome_iff_exists]
  constructor
  · intro h
    obtain ⟨q, hq⟩ := h
    exact (resolve?_ofModules.1 hq).hasDefinition
  · intro h
    obtain ⟨m, hm, hb⟩ := h
    obtain ⟨q, hq⟩ := exists_winner hm hb
    exact ⟨q, resolve?_ofModules.2 hq⟩

/-- Later modules decide about the names that they define, and leave the others as they were. -/
theorem resolve?_ofModules_append (modules later : List ParsedModule) (b : String) :
    (ofModules (modules ++ later)).resolve? b =
      ((ofModules later).resolve? b).or ((ofModules modules).resolve? b) := by
  have hstatements : statementsOf (modules ++ later) = statementsOf modules ++ statementsOf later :=
    List.flatMap_append
  rw [ofModules_eq, hstatements, List.filterMap_append, insertAll_append, resolve?_insertAll_or,
    ← ofModules_eq, ← ofModules_eq]

/-- The table of the modules accounts for the functions that the modules define, and for no others. -/
theorem accountsFor_ofModules {modules : List ParsedModule} {q : String} :
    (ofModules modules).AccountsFor q ↔ IsDefined modules q := by
  rw [ofModules_eq, accountsFor_insertAll, or_iff_left (not_accountsFor_empty q)]
  constructor
  · intro h
    obtain ⟨⟨b, q⟩, hp, rfl⟩ := h
    obtain ⟨p, hp, hbinding⟩ := List.mem_filterMap.1 hp
    obtain ⟨m, hm, hp⟩ := List.mem_flatMap.1 hp
    obtain ⟨s, hs, rfl⟩ := List.mem_map.1 hp
    exact ⟨m, hm, s, hs, b, bindingOf?_eq_some_iff.1 hbinding⟩
  · intro h
    obtain ⟨m, hm, s, hs, b, hb, rfl⟩ := h
    refine ⟨(b, m.name ++ "." ++ b), List.mem_filterMap.2 ⟨(m, s), ?_, ?_⟩, rfl⟩
    · exact List.mem_flatMap.2 ⟨m, hm, List.mem_map.2 ⟨s, hs, rfl⟩⟩
    · exact bindingOf?_eq_some_iff.2 ⟨hb, rfl⟩

end NameTable

end BareCallGraph
