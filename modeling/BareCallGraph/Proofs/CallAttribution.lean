import BareCallGraph.Proofs.DefinitionShapes
import BareCallGraph.Proofs.Passes
import BareCallGraph.Proofs.Preorder
import Mathlib.Data.List.Forall2

/-!
# To which function a call belongs

The calls in a module are those in its functions and those in its other statements, merged in the order of
the text (`SyntaxTree.IsModule.interleaves_bareCalls`). A call is told from others by the address of its
node. The first number of the address is that of the statement the call is in
(`SyntaxTree.IsModule.mem_callSites_iff`), so a call belongs to one function at most: to the one that the
statement defines, decorators included, or to none.
-/

namespace BareCallGraph

/-- One list is made of two others, and the entries of each are in their order. -/
inductive Interleaves {α : Type} : List α → List α → List α → Prop where
  | done : Interleaves [] [] []
  /-- The next entry is of the first list. -/
  | left {x : α} {xs ys zs : List α} (rest : Interleaves xs ys zs) : Interleaves (x :: xs) ys (x :: zs)
  /-- The next entry is of the second list. -/
  | right {y : α} {xs ys zs : List α} (rest : Interleaves xs ys zs) : Interleaves xs (y :: ys) (y :: zs)

namespace Interleaves

variable {α β : Type} {xs ys zs : List α}

/-- Entries of the first list can come before all others. -/
theorem append_left (h : Interleaves xs ys zs) (before : List α) :
    Interleaves (before ++ xs) ys (before ++ zs) := by
  induction before with
  | nil => exact h
  | cons x before ih => exact .left ih

/-- Entries of the second list can come before all others. -/
theorem append_right (h : Interleaves xs ys zs) (before : List α) :
    Interleaves xs (before ++ ys) (before ++ zs) := by
  induction before with
  | nil => exact h
  | cons y before ih => exact .right ih

/-- The entries that some elements give and those that the others give make up those that all give. -/
theorem flatMap_filter (p : β → Bool) (f : β → List α) (l : List β) :
    Interleaves ((l.filter p).flatMap f) ((l.filter fun x => !p x).flatMap f) (l.flatMap f) := by
  induction l with
  | nil => exact .done
  | cons x l ih =>
    rw [List.flatMap_cons]
    by_cases hx : p x = true
    · rw [List.filter_cons_of_pos hx, List.filter_cons_of_neg (by simp [hx]), List.flatMap_cons]
      exact ih.append_left (f x)
    · rw [List.filter_cons_of_neg hx, List.filter_cons_of_pos (by simp [hx]), List.flatMap_cons]
      exact ih.append_right (f x)

end Interleaves

namespace SyntaxTree

variable {t c : SyntaxTree}

/-! ## Modules -/

/-- A module whose definitions are whole. -/
structure IsModule (t : SyntaxTree) : Prop extends t.HasWholeDefinitions where
  /-- The root is that of a module. -/
  kind : t.kind = .module

/-- A module is no call. -/
theorem IsModule.calledName? (h : t.IsModule) : t.calledName? = none := by
  rw [SyntaxTree.calledName?, if_neg (by simp [h.kind])]

/-- A node that calls nothing itself has the calls of its children. -/
theorem bareCalls_eq_flatMap (h : t.calledName? = none) : t.bareCalls = t.children.flatMap bareCalls := by
  rw [bareCalls_eq_filterMap, preorder_eq, List.filterMap_cons_none h, List.filterMap_flatMap,
    funext bareCalls_eq_filterMap]

/-- The calls in a module are those in its functions and those in its other statements. -/
theorem IsModule.interleaves_bareCalls (h : t.IsModule) :
    Interleaves (t.topLevelFunctions.flatMap (·.scope.bareCalls))
      ((t.children.filter fun s => !s.holdsPlain).flatMap bareCalls) t.bareCalls := by
  have hfunctions : t.topLevelFunctions.flatMap (·.scope.bareCalls) =
      (t.children.filter holdsPlain).flatMap bareCalls := by
    rw [← h.scopes_eq, List.flatMap_map]
  rw [hfunctions, bareCalls_eq_flatMap h.calledName?]
  exact Interleaves.flatMap_filter holdsPlain bareCalls t.children

/-! ## Calls by address -/

/-- The calls in a tree, each as the address of its node and the name that is called. -/
def callSites (t : SyntaxTree) : List (List Nat × String) :=
  t.addresses.filterMap fun a => ((t.nodeAt? a).bind SyntaxTree.calledName?).map (a, ·)

/-- The calls in the child with some number, with their addresses in the whole tree. -/
def sitesIn (t : SyntaxTree) (k : Nat) : List (List Nat × String) :=
  (t.children[k]?.elim [] callSites).map fun site => (k :: site.1, site.2)

/-- Without the addresses these are the calls of the tree. -/
theorem map_callSites (t : SyntaxTree) : t.callSites.map (·.2) = t.bareCalls := by
  calc t.callSites.map (·.2)
      = t.addresses.filterMap fun a => (t.nodeAt? a).bind SyntaxTree.calledName? := by
        rw [callSites, List.map_filterMap]
        simp only [Option.map_map, Function.comp_def, Option.map_id']
    _ = (t.addresses.map t.nodeAt?).filterMap (·.bind SyntaxTree.calledName?) := by
        rw [List.filterMap_map]
        rfl
    _ = t.bareCalls := by
        rw [map_nodeAt?_addresses, List.filterMap_map, bareCalls_eq_filterMap]
        rfl

/-- The calls come in the order of their addresses, and no two have the same. -/
theorem pairwise_callSites (t : SyntaxTree) :
    t.callSites.Pairwise fun site later => Precedes site.1 later.1 := by
  refine t.pairwise_addresses.filterMap _ fun a b h site hsite later hlater => ?_
  obtain ⟨_, -, rfl⟩ := Option.map_eq_some_iff.1 hsite
  obtain ⟨_, -, rfl⟩ := Option.map_eq_some_iff.1 hlater
  exact h

/-- A call site is an address and the name that the node there calls. -/
theorem mem_callSites {site : List Nat × String} :
    site ∈ t.callSites ↔ (t.nodeAt? site.1).bind SyntaxTree.calledName? = some site.2 := by
  rw [callSites, List.mem_filterMap]
  constructor
  · rintro ⟨a, -, hsite⟩
    obtain ⟨b, hb, rfl⟩ := Option.map_eq_some_iff.1 hsite
    exact hb
  · intro h
    obtain ⟨u, hu, -⟩ := Option.bind_eq_some_iff.1 h
    exact ⟨site.1, mem_addresses.2 (by rw [hu]; rfl), by rw [h]; rfl⟩

/-- The calls in a child are those whose address starts with its number. -/
theorem mem_sitesIn {k : Nat} {site : List Nat × String} :
    site ∈ t.sitesIn k ↔ site ∈ t.callSites ∧ site.1.head? = some k := by
  obtain ⟨a, b⟩ := site
  rw [mem_callSites, sitesIn, List.mem_map]
  constructor
  · rintro ⟨⟨rest, b⟩, hsite, heq⟩
    cases heq
    cases hc : t.children[k]? with
    | none => simp [hc] at hsite
    | some c =>
      rw [hc] at hsite
      refine ⟨?_, rfl⟩
      rw [nodeAt?, hc]
      exact mem_callSites.1 hsite
  · rintro ⟨hsite, hhead⟩
    cases a with
    | nil => contradiction
    | cons i rest =>
      cases hhead
      cases hc : t.children[k]? with
      | none => simp [nodeAt?, hc] at hsite
      | some c =>
        rw [nodeAt?, hc] at hsite
        exact ⟨(rest, b), mem_callSites.2 hsite, rfl⟩

/-- The calls in a child, without their addresses, are the calls of the child. -/
theorem map_sitesIn {k : Nat} (hc : t.children[k]? = some c) : (t.sitesIn k).map (·.2) = c.bareCalls := by
  rw [sitesIn, hc, Option.elim_some, List.map_map]
  exact c.map_callSites

/-- A call in a module is a call in exactly one of its statements. -/
theorem IsModule.mem_callSites_iff (h : t.IsModule) {site : List Nat × String} :
    site ∈ t.callSites ↔ ∃! k, site ∈ t.sitesIn k := by
  constructor
  · intro hsite
    cases ha : site.1 with
    | nil =>
      have hroot := mem_callSites.1 hsite
      rw [ha, nodeAt?, Option.bind_some, h.calledName?] at hroot
      contradiction
    | cons k rest =>
      have hhead : site.1.head? = some k := by rw [ha]; rfl
      refine ⟨k, mem_sitesIn.2 ⟨hsite, hhead⟩, fun l hl => ?_⟩
      exact Option.some.inj ((mem_sitesIn.1 hl).2.symm.trans hhead)
  · rintro ⟨k, hk, -⟩
    exact (mem_sitesIn.1 hk).1

/-! ## Statements that define a function -/

/-- The numbers of the statements that are plain definitions or decorated ones. -/
def functionPlaces (t : SyntaxTree) : List Nat :=
  (t.children.zipIdx.filter (·.1.holdsPlain)).map (·.2)

/-- The statements that define functions are numbered in their order. -/
theorem pairwise_functionPlaces (t : SyntaxTree) : t.functionPlaces.Pairwise (· < ·) := by
  have hplaces : t.children.zipIdx.Pairwise fun s u => s.2 < u.2 := by
    rw [← List.pairwise_map, List.zipIdx_map_snd]
    exact List.pairwise_lt_range'
  exact List.pairwise_map.2 (hplaces.filter _)

/-- A statement has its number among these exactly if it holds a plain definition. -/
theorem mem_functionPlaces {k : Nat} (hc : t.children[k]? = some c) :
    k ∈ t.functionPlaces ↔ c.holdsPlain = true := by
  rw [functionPlaces, List.mem_map]
  constructor
  · rintro ⟨s, hs, rfl⟩
    obtain ⟨hmem, hplain⟩ := List.mem_filter.1 hs
    rw [List.mem_zipIdx_iff_getElem?, hc, Option.some.injEq] at hmem
    rw [hmem]
    exact hplain
  · intro hplain
    exact ⟨(c, k), List.mem_filter.2 ⟨List.mem_zipIdx_iff_getElem?.2 hc, hplain⟩, rfl⟩

/-- One after the other, the functions have these statements for scopes. -/
theorem HasWholeDefinitions.forall₂_functionPlaces (h : t.HasWholeDefinitions) :
    List.Forall₂ (fun k f => t.children[k]? = some f.scope) t.functionPlaces t.topLevelFunctions := by
  have hscopes : t.topLevelFunctions.map (·.scope) =
      (t.children.zipIdx.filter (·.1.holdsPlain)).map (·.1) := by
    rw [h.scopes_eq]
    nth_rewrite 1 [← List.zipIdx_map_fst 0 t.children]
    rw [List.filter_map]
    rfl
  have hsame : List.Forall₂ (fun k scope => t.children[k]? = some scope) t.functionPlaces
      (t.topLevelFunctions.map (·.scope)) := by
    rw [hscopes, functionPlaces, List.forall₂_map_left_iff, List.forall₂_map_right_iff,
      List.forall₂_same]
    exact fun s hs => List.mem_zipIdx_iff_getElem?.1 (List.mem_filter.1 hs).1
  rwa [List.forall₂_map_right_iff] at hsame

end SyntaxTree

/-- What a parser accepts are modules. -/
def Parser.BuildsModules (p : Parser) : Prop := ∀ file source m, p file source = .ok m → m.tree.IsModule

/-- Every tree that is made of a text is that of a module. -/
theorem Python.kind_treeOf (n : Nat) (outcome : Grammar.Outcome Terminal) :
    (treeOf n outcome).kind = .module := by
  cases outcome <;> rfl

/-- The parser of the language makes modules. -/
theorem Python.parser_buildsModules : Parser.BuildsModules Python.parser := by
  intro file source m h
  rw [(Python.parser_eq_ok_iff.1 h).2.2]
  exact ⟨syntaxTree_definitions source, kind_treeOf _ _⟩

/-- Every call in a module belongs to at most one function. The calls in the module are those in its
functions, one function after the other, and those in its other statements, merged in the order of the
text. Calls at different nodes have different addresses, and a call is in one statement of the module
only. It belongs to a function exactly if the statement defines one, and then to that function: the names
that a function calls are those of the calls in its statement. -/
theorem calls_partitioned :
    Python.parser.BuildsModules ∧
    ∀ t : SyntaxTree, t.IsModule →
      Interleaves (t.topLevelFunctions.flatMap (·.scope.bareCalls))
        ((t.children.filter fun s => !s.holdsPlain).flatMap SyntaxTree.bareCalls) t.bareCalls ∧
      t.callSites.map (·.2) = t.bareCalls ∧
      (t.callSites.Pairwise fun site later => SyntaxTree.Precedes site.1 later.1) ∧
      (∀ site, site ∈ t.callSites ↔ ∃! k, site ∈ t.sitesIn k) ∧
      t.functionPlaces.Pairwise (· < ·) ∧
      (∀ k s, t.children[k]? = some s → (k ∈ t.functionPlaces ↔ s.holdsPlain = true)) ∧
      List.Forall₂ (fun k f => t.children[k]? = some f.scope ∧
        f.scope.bareCalls = (t.sitesIn k).map (·.2)) t.functionPlaces t.topLevelFunctions := by
  refine ⟨Python.parser_buildsModules, fun t h => ?_⟩
  refine ⟨h.interleaves_bareCalls, t.map_callSites, t.pairwise_callSites,
    fun site => h.mem_callSites_iff, t.pairwise_functionPlaces,
    fun k s hs => SyntaxTree.mem_functionPlaces hs, ?_⟩
  exact h.forall₂_functionPlaces.imp fun k f hf => ⟨hf, (SyntaxTree.map_sitesIn hf).symm⟩

namespace MixedStatements

/-! ## A module of four statements

A call, a decorated function, a function with `async` and one without. The first function and the last
one call the same name.

```
a()
@d()
def f(): g()
async def k(): h()
def l(): g()
```
-/

open TwoModules (leaf callOf functionOf)

/-- A call of a name with one letter. -/
def plainCall (name : String) (start : Position) : SyntaxTree :=
  callOf (leaf .name (some .callee) start name) ⟨start.offset + 1, start.line, start.column + 1⟩

/-- The decorated function. -/
def decorated : SyntaxTree :=
  .node .decoratedDefinition none ⟨4, 2, 1⟩ "" [.node .other none ⟨4, 2, 1⟩ ""
      [leaf .token none ⟨4, 2, 1⟩ "@", plainCall "d" ⟨5, 2, 2⟩],
    .node .functionDefinition (some .definition) ⟨9, 3, 1⟩ ""
      (functionOf "f" ⟨9, 3, 1⟩ (plainCall "g" ⟨18, 3, 10⟩)).children]

/-- The function with `async`. -/
def async : SyntaxTree :=
  .node .functionDefinition none ⟨22, 4, 1⟩ "" (leaf .token none ⟨22, 4, 1⟩ "async" ::
    (functionOf "k" ⟨28, 4, 7⟩ (plainCall "h" ⟨37, 4, 16⟩)).children)

/-- The last function. -/
def plain : SyntaxTree := functionOf "l" ⟨41, 5, 1⟩ (plainCall "g" ⟨50, 5, 10⟩)

/-- The tree of the module. -/
def tree : SyntaxTree :=
  .node .module none ⟨0, 1, 1⟩ "" [.node .other none ⟨0, 1, 1⟩ "" [plainCall "a" ⟨0, 1, 1⟩], decorated,
    async, plain]

/-- The tree of the sample is that of a module. -/
theorem isModule : tree.IsModule := by
  have hnodes : ∀ u : SyntaxTree, u.Within tree →
      (u.kind = .functionDefinition → ∃ c ∈ u.children, c.kind = .name ∧ c.role = some .name) ∧
      (u.kind = .decoratedDefinition → ∀ c ∈ u.children, c.kind = .functionDefinition →
        u.child? .definition = some c) := by
    simp [tree, decorated, async, plain, plainCall, leaf, TwoModules.brackets, callOf, functionOf,
      SyntaxTree.children, SyntaxTree.forall_within_node, SyntaxTree.child?]
  exact ⟨⟨fun u hu => (hnodes u hu).1, fun u hu => (hnodes u hu).2⟩, rfl⟩

end MixedStatements

section MixedStatements

open MixedStatements

/-- In the sample the call in the decorator belongs to the function, and the two calls of `g` are told
apart. The call in front and the one in the function with `async` belong to no function. -/
theorem mixedStatements_partitioned :
    tree.IsModule ∧ tree.bareCalls = ["a", "d", "g", "h", "g"] ∧
      Interleaves ["d", "g", "g"] ["a", "h"] tree.bareCalls ∧
      tree.topLevelFunctions = [⟨"f", decorated⟩, ⟨"l", plain⟩] ∧ tree.functionPlaces = [1, 3] ∧
      (tree.sitesIn 1).map (·.2) = ["d", "g"] ∧ (tree.sitesIn 3).map (·.2) = ["g"] ∧
      (∃! k, ([3, 4, 0, 0], "g") ∈ tree.sitesIn k) ∧
      (2 ∈ tree.functionPlaces ↔ async.holdsPlain = true) := by
  have hcalls : tree.bareCalls = ["a", "d", "g", "h", "g"] := by decide +kernel
  have hfunctions : tree.topLevelFunctions = [⟨"f", decorated⟩, ⟨"l", plain⟩] := by rfl
  have hplaces : tree.functionPlaces = [1, 3] := by decide +kernel
  obtain ⟨hmerged, -, -, hsites, -, hmem, hattributed⟩ := calls_partitioned.2 tree isModule
  have hnames : tree.topLevelFunctions.flatMap (·.scope.bareCalls) = ["d", "g", "g"] := by decide +kernel
  have hothers : (tree.children.filter fun s => !s.holdsPlain).flatMap SyntaxTree.bareCalls =
      ["a", "h"] := by decide +kernel
  rw [hnames, hothers] at hmerged
  rw [hplaces, hfunctions, List.forall₂_cons, List.forall₂_cons] at hattributed
  obtain ⟨⟨-, hfirst⟩, ⟨-, hlast⟩, -⟩ := hattributed
  refine ⟨isModule, hcalls, hmerged, hfunctions, hplaces, ?_, ?_, ?_, hmem 2 async rfl⟩
  · rw [← hfirst]
    decide +kernel
  · rw [← hlast]
    decide +kernel
  · exact (hsites _).1 (by decide +kernel)

end MixedStatements

end BareCallGraph
