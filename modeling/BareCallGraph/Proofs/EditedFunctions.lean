import BareCallGraph.Proofs.BareCalls
import BareCallGraph.Proofs.ModuleOrder

/-!
# An edit inside one function

A function at the top of a module may be edited in any way as long as it stays a plain function of its
name: its decorators, its parameters, its body, and whatever is nested in them. What is defined at the top
of the module stays the same, so the tables and the nodes do. What the other functions call stays the same
too, so only edges that go out from the edited function can come or go.

An edit shifts the text behind it. So the other statements are not quite the same afterwards: they start
at other places. They are compared without their places (`SyntaxTree.unplaced`), and nothing that an
analysis sees depends on these.
-/

namespace BareCallGraph

namespace SyntaxTree

mutual
/-- A tree in which every node starts at the first place. -/
def unplaced : SyntaxTree → SyntaxTree
  | node kind role _ text children => node kind role .start text (unplacedAll children)

/-- Trees in which every node starts at the first place. -/
def unplacedAll : List SyntaxTree → List SyntaxTree
  | [] => []
  | t :: ts => unplaced t :: unplacedAll ts
end

variable {t : SyntaxTree}

/-- Places are taken off trees one by one. -/
theorem unplacedAll_eq_map (ts : List SyntaxTree) : unplacedAll ts = ts.map unplaced := by
  induction ts with
  | nil => rfl
  | cons t ts ih => rw [unplacedAll, ih, List.map_cons]

/-- Without its place a node is of the same kind. -/
@[simp]
theorem kind_unplaced (t : SyntaxTree) : t.unplaced.kind = t.kind := by
  cases t
  rfl

/-- Without its place a node plays the same part. -/
@[simp]
theorem role_unplaced (t : SyntaxTree) : t.unplaced.role = t.role := by
  cases t
  rfl

/-- Without its place a node has the same text. -/
@[simp]
theorem text_unplaced (t : SyntaxTree) : t.unplaced.text = t.text := by
  cases t
  rfl

/-- The children of a tree without places are the children without places. -/
@[simp]
theorem children_unplaced (t : SyntaxTree) : t.unplaced.children = t.children.map unplaced := by
  cases t
  rw [unplaced, children_node, children_node, unplacedAll_eq_map]

/-- A child with a role is the same but for its places. -/
@[simp]
theorem child?_unplaced (t : SyntaxTree) (r : Role) :
    t.unplaced.child? r = (t.child? r).map unplaced := by
  rw [child?, children_unplaced, List.find?_map, child?]
  simp only [Function.comp_def, role_unplaced]

/-- What parentheses are around is the same but for its places. -/
theorem content?_unplaced (t : SyntaxTree) : t.unplaced.content? = t.content?.map unplaced := by
  rw [content?, children_unplaced, List.find?_map, content?]
  simp only [Function.comp_def, isNamed, kind_unplaced]

/-- The name that an expression comes down to does not depend on places. -/
@[simp]
theorem plainName?_unplaced (t : SyntaxTree) : t.unplaced.plainName? = t.plainName? := by
  induction t using plainName?.induct with
  | case1 t hn =>
    rw [plainName?_of_name hn, plainName?_of_name (by rw [kind_unplaced, hn]), text_unplaced]
  | case2 t hp c h ih =>
    have h' : t.unplaced.content? = some c.unplaced := by rw [content?_unplaced, h, Option.map_some]
    rw [plainName?_of_content hp h, plainName?_of_content (by rw [kind_unplaced, hp]) h', ih]
  | case3 t hp h =>
    have h' : t.unplaced.content? = none := by rw [content?_unplaced, h, Option.map_none]
    rw [plainName?_of_content_none hp h, plainName?_of_content_none (by rw [kind_unplaced, hp]) h']
  | case4 t hn hp =>
    rw [plainName?_of_other hn hp, plainName?_of_other (by simpa using hn) (by simpa using hp)]

/-- The name that a node calls does not depend on places. -/
theorem calledName?_unplaced (t : SyntaxTree) : t.unplaced.calledName? = t.calledName? := by
  simp only [calledName?, kind_unplaced, bareCallee?, child?_unplaced]
  cases t.child? .callee <;> simp

/-- The traversal finds the same names in trees without places. -/
theorem bareCallsOnto_unplaced (found : List String) (pending : List SyntaxTree) :
    bareCallsOnto found (pending.map unplaced) = bareCallsOnto found pending := by
  induction found, pending using bareCallsOnto.induct with
  | case1 found => rfl
  | case2 found t pending ih =>
    rw [pushChildren_eq] at ih
    rw [List.map_cons, bareCallsOnto_cons, bareCallsOnto_cons, calledName?_unplaced, children_unplaced,
      ← List.map_append, ih]

/-- The calls in a tree do not depend on the places of its nodes. -/
theorem bareCalls_unplaced (t : SyntaxTree) : t.unplaced.bareCalls = t.bareCalls :=
  bareCallsOnto_unplaced [] [t]

/-- Whether a definition is an asynchronous one does not depend on places. -/
theorem isAsync_unplaced (t : SyntaxTree) : t.unplaced.isAsync = t.isAsync := by
  rw [isAsync, children_unplaced, List.head?_map, isAsync]
  cases t.children.head? <;> simp

/-- The definition in a statement is the same but for its places. -/
theorem definition?_unplaced (t : SyntaxTree) :
    t.unplaced.definition? = t.definition?.map unplaced := by
  rw [definition?, definition?, kind_unplaced]
  split
  · rfl
  · cases h : t.child? .definition with
    | none => simp [h]
    | some d => by_cases hd : d.kind = .functionDefinition <;> simp [h, Option.filter, hd]
  · rfl

/-- Nor does the function that a statement defines. -/
theorem plainFunction?_unplaced (s : SyntaxTree) :
    s.unplaced.plainFunction? = s.plainFunction?.map fun f => ⟨f.name, f.scope.unplaced⟩ := by
  rw [plainFunction?, plainFunction?, definition?_unplaced]
  cases s.definition? with
  | none => rfl
  | some d =>
    simp only [Option.map_some, bind, Option.bind_some, isAsync_unplaced, child?_unplaced]
    split
    · rfl
    · cases d.child? .name <;> simp

end SyntaxTree

namespace ParsedModule

variable {m m' : ParsedModule} {f : String}

/-- The calls that a statement at the top of a module makes to names of a table, if the statement defines
a function. -/
def edgesAt (m : ParsedModule) (t : NameTable) (s : SyntaxTree) : List Edge :=
  s.plainFunction?.elim [] (m.edgesOf t)

/-- The edges of a module are those of its statements, one after the other. -/
theorem edges_eq_flatMap (m : ParsedModule) (t : NameTable) :
    m.edges t = m.tree.children.flatMap (m.edgesAt t) := by
  rw [edges, SyntaxTree.topLevelFunctions]
  induction m.tree.children with
  | nil => rfl
  | cons s ss ih =>
    rw [List.filterMap_cons, List.flatMap_cons, ← ih, edgesAt]
    cases s.plainFunction? <;> rfl

/-- The edges of a statement do not depend on places. -/
theorem edgesAt_unplaced (m : ParsedModule) (t : NameTable) (s : SyntaxTree) :
    m.edgesAt t s.unplaced = m.edgesAt t s := by
  rw [edgesAt, SyntaxTree.plainFunction?_unplaced, edgesAt]
  cases s.plainFunction? with
  | none => rfl
  | some f => simp [edgesOf, SyntaxTree.bareCalls_unplaced]

/-- All calls of a statement go out from the function that it defines. -/
theorem caller_of_mem_edgesAt {t : NameTable} {s : SyntaxTree} (hs : s.Defines f) {e : Edge}
    (he : e ∈ m.edgesAt t s) : e.caller = m.qualify f := by
  have hfunction : s.plainFunction? = some ⟨f, s⟩ :=
    SyntaxTree.plainFunction?_eq_some_iff.2 ⟨rfl, hs⟩
  rw [edgesAt, hfunction] at he
  obtain ⟨target, -, rfl⟩ := List.mem_map.1 he
  rfl

/-- One module becomes another by an edit inside the statement that defines the function `f`. The
statement still defines a plain function of that name, decorated or not. The other statements are the
same, but may have moved. -/
structure EditedIn (m : ParsedModule) (f : String) (m' : ParsedModule) : Prop where
  /-- The module keeps its name. -/
  name : m'.name = m.name
  /-- The statements before the edited one, the edited one, and those behind it. -/
  statements : ∃ before s after before' s' after',
    m.tree.children = before ++ s :: after ∧ m'.tree.children = before' ++ s' :: after' ∧
    s.Defines f ∧ s'.Defines f ∧
    before'.map SyntaxTree.unplaced = before.map SyntaxTree.unplaced ∧
    after'.map SyntaxTree.unplaced = after.map SyntaxTree.unplaced

/-- What is read off statements one by one, and not off their places, is the same of statements that are
the same but for their places. -/
theorem flatMap_eq_of_unplaced {α : Type} {g : SyntaxTree → List α} (hg : ∀ s, g s.unplaced = g s)
    {ss ss' : List SyntaxTree}
    (h : ss'.map SyntaxTree.unplaced = ss.map SyntaxTree.unplaced) : ss'.flatMap g = ss.flatMap g := by
  have hunplaced (ts : List SyntaxTree) : ts.flatMap g = (ts.map SyntaxTree.unplaced).flatMap g := by
    rw [List.flatMap_map]
    simp only [hg]
  rw [hunplaced ss', hunplaced ss, h]

/-- An edited module defines the same functions in the same order. -/
theorem EditedIn.definitions_eq (h : m.EditedIn f m') : m'.definitions = m.definitions := by
  obtain ⟨before, s, after, before', s', after', hm, hm', hs, hs', hbefore, hafter⟩ := h.statements
  have hnames (n : ParsedModule) : n.definitions =
      ⟨n.name, n.tree.children.flatMap fun s => (s.plainFunction?.map TopLevelFunction.name).toList⟩ := by
    rw [definitions, SyntaxTree.topLevelFunctions, List.map_filterMap, List.filterMap_eq_flatMap_toList]
  have hsame (s : SyntaxTree) : (s.unplaced.plainFunction?.map TopLevelFunction.name).toList =
      (s.plainFunction?.map TopLevelFunction.name).toList := by
    rw [SyntaxTree.plainFunction?_unplaced, Option.map_map]
    rfl
  have hfunction : s.plainFunction? = some ⟨f, s⟩ :=
    SyntaxTree.plainFunction?_eq_some_iff.2 ⟨rfl, hs⟩
  have hfunction' : s'.plainFunction? = some ⟨f, s'⟩ :=
    SyntaxTree.plainFunction?_eq_some_iff.2 ⟨rfl, hs'⟩
  rw [hnames, hnames, h.name, hm, hm', List.flatMap_append, List.flatMap_append, List.flatMap_cons,
    List.flatMap_cons, flatMap_eq_of_unplaced hsame hbefore, flatMap_eq_of_unplaced hsame hafter,
    hfunction, hfunction']
  rfl

/-- The calls of the other functions are the same, in the same order and with the same repetitions. -/
theorem EditedIn.edges_eq (h : m.EditedIn f m') (t : NameTable) :
    (m'.edges t).filter (·.caller ≠ m.qualify f) = (m.edges t).filter (·.caller ≠ m.qualify f) := by
  obtain ⟨before, s, after, before', s', after', hm, hm', hs, hs', hbefore, hafter⟩ := h.statements
  have hedgesOf : m'.edgesOf t = m.edgesOf t := by
    funext function
    rw [edgesOf, edgesOf, qualify, qualify, h.name]
  have hedgesAt : m'.edgesAt t = m.edgesAt t := by
    funext s
    rw [edgesAt, edgesAt, hedgesOf]
  have hedited {s : SyntaxTree} (hs : s.Defines f) :
      (m.edgesAt t s).filter (·.caller ≠ m.qualify f) = [] := by
    refine List.filter_eq_nil_iff.2 ?_
    intro e he
    simp [caller_of_mem_edgesAt hs he]
  rw [edges_eq_flatMap, edges_eq_flatMap, hedgesAt, hm, hm', List.flatMap_append, List.flatMap_append,
    List.flatMap_cons, List.flatMap_cons, flatMap_eq_of_unplaced (m.edgesAt_unplaced t) hbefore,
    flatMap_eq_of_unplaced (m.edgesAt_unplaced t) hafter]
  simp only [List.filter_append, hedited hs, hedited hs']

end ParsedModule

variable {before after : List ParsedModule} {m m' : ParsedModule} {f : String}

/-- A table is the same after the edit of one module, since its functions are the same in the same order.
-/
theorem NameTable.ofModules_edited (h : m.EditedIn f m') :
    NameTable.ofModules (before ++ m' :: after) = NameTable.ofModules (before ++ m :: after) := by
  simp only [ofModules, List.map_append, List.map_cons, h.definitions_eq]

/-- One function `f` of a module `m` of a program is edited: its decorators, its parameters and its body
may change in any way, and the statements behind it may move. The tables are equal, records included. So
are the nodes of the graphs, and the edges that do not go out from the edited function. -/
theorem edit_is_local (before after : List ParsedModule) (m m' : ParsedModule) (f : String)
    (h : m.EditedIn f m') :
    NameTable.ofModules (before ++ m' :: after) = NameTable.ofModules (before ++ m :: after) ∧
    (CallGraph.ofProgram (before ++ m' :: after)).nodes =
      (CallGraph.ofProgram (before ++ m :: after)).nodes ∧
    ∀ e : Edge, e.caller ≠ m.qualify f →
      (e ∈ (CallGraph.ofProgram (before ++ m' :: after)).edges ↔
        e ∈ (CallGraph.ofProgram (before ++ m :: after)).edges) := by
  have htable : NameTable.ofModules (before ++ m' :: after) = .ofModules (before ++ m :: after) :=
    NameTable.ofModules_edited h
  refine ⟨htable, ?_, ?_⟩
  · refine SortedSet.ext_of_mem fun q => ?_
    rw [CallGraph.ofProgram, CallGraph.ofProgram, CallGraph.mem_nodes_ofModules,
      CallGraph.mem_nodes_ofModules, htable]
  · intro e he
    have hmem : e ∈ m'.edges (.ofModules (before ++ m :: after)) ↔
        e ∈ m.edges (.ofModules (before ++ m :: after)) := by
      have hfilter := h.edges_eq (.ofModules (before ++ m :: after))
      have := congrArg (e ∈ ·) hfilter
      simpa [he] using this
    rw [CallGraph.ofProgram, CallGraph.ofProgram, htable, CallGraph.mem_edges_ofModules,
      CallGraph.mem_edges_ofModules]
    simp only [List.mem_append, List.mem_cons, or_and_right, exists_or, exists_eq_left, hmem]

namespace TwoModules

/-- The function `f` of the module `a` after an edit. It has a decorator `@h()`, and all that it has inside
is a function of its own named `g`, which calls `h`. -/
def editedF : SyntaxTree :=
  let call (start closing : Position) := callOf (leaf .name (some .callee) start "h") closing
  .node .decoratedDefinition none ⟨0, 1, 1⟩ "" [
    .node .other none ⟨0, 1, 1⟩ "" [leaf .token none ⟨0, 1, 1⟩ "@", call ⟨1, 1, 2⟩ ⟨2, 1, 3⟩],
    .node .functionDefinition (some .definition) ⟨5, 2, 1⟩ "" [leaf .token none ⟨5, 2, 1⟩ "def",
      leaf .name (some .name) ⟨9, 2, 5⟩ "f", brackets ⟨10, 2, 6⟩, leaf .token none ⟨12, 2, 8⟩ ":",
      .node .other none ⟨18, 3, 5⟩ "" [functionOf "g" ⟨18, 3, 5⟩ (call ⟨35, 4, 9⟩ ⟨36, 4, 10⟩)]]]

/-- The module `a` after the edit. Its function `g` has moved. -/
def editedA : ParsedModule :=
  ⟨"a", .node .module none ⟨0, 1, 1⟩ "" [editedF,
    functionOf "g" ⟨39, 5, 1⟩ (callOf (leaf .name (some .callee) ⟨52, 6, 5⟩ "f") ⟨53, 6, 6⟩)]⟩

/-- The sample is edited inside its function `f` only. -/
theorem editedIn_editedA : ParsedModule.EditedIn ⟨"a", treeA⟩ "f" editedA where
  name := rfl
  statements := by
    have hf : (functionOf "f" ⟨0, 1, 1⟩ callOfG).Defines "f" :=
      (SyntaxTree.plainFunction?_eq_some_iff (f := ⟨"f", _⟩)).1 rfl |>.2
    have hedited : editedF.Defines "f" :=
      (SyntaxTree.plainFunction?_eq_some_iff (f := ⟨"f", _⟩)).1 rfl |>.2
    exact ⟨[], _, _, [], _, _, rfl, rfl, hf, hedited, rfl, rfl⟩

end TwoModules

section TwoModules

open TwoModules

/-- The edit of the sample: the table is the same although a function `g` came up inside `f`, and the edge
from `a.g` stays. The edge from `a.f` to `b.g` is gone, and there is one to `c.h`. -/
theorem twoModules_edited :
    ParsedModule.EditedIn ⟨"a", treeA⟩ "f" editedA ∧
    NameTable.ofModules [editedA, third, ⟨"b", treeB⟩] =
      NameTable.ofModules [⟨"a", treeA⟩, third, ⟨"b", treeB⟩] ∧
    (⟨"a.g", "a.f"⟩ ∈ (CallGraph.ofProgram [editedA, third, ⟨"b", treeB⟩]).edges ↔
      ⟨"a.g", "a.f"⟩ ∈ (CallGraph.ofProgram [⟨"a", treeA⟩, third, ⟨"b", treeB⟩]).edges) ∧
    ⟨"a.f", "b.g"⟩ ∈ (CallGraph.ofProgram [⟨"a", treeA⟩, third, ⟨"b", treeB⟩]).edges ∧
    ⟨"a.f", "b.g"⟩ ∉ (CallGraph.ofProgram [editedA, third, ⟨"b", treeB⟩]).edges ∧
    ⟨"a.f", "c.h"⟩ ∈ (CallGraph.ofProgram [editedA, third, ⟨"b", treeB⟩]).edges := by
  obtain ⟨htable, -, hedges⟩ := edit_is_local [] [third, ⟨"b", treeB⟩] _ _ _ editedIn_editedA
  refine ⟨editedIn_editedA, htable, hedges ⟨"a.g", "a.f"⟩ (by decide +kernel), ?_, ?_, ?_⟩
  all_goals
    rw [CallGraph.ofProgram, CallGraph.mem_edges_ofModules]
    decide +kernel

end TwoModules

end BareCallGraph
