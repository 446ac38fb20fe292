import BareCallGraph.Proofs.BareCalls
import BareCallGraph.Proofs.Passes

/-!
# Looking through parentheses

An expression may stand in any number of layers of parentheses, with comments before and behind it in
each. Every expression is a core in such layers, where the core is not itself one of them, and nothing but
the core decides what a call calls: its name if it is a name, and nothing otherwise
(`parentheses_stripped_exactly`).

The loop that looks through the layers goes from parentheses to their content, which has fewer nodes, so
it ends on every tree.
-/

namespace BareCallGraph

namespace SyntaxTree

/-- A layer of parentheses around its content: before the content are brackets and comments only. What is
behind it does not matter. Parentheses that open with a line continuation are not such a layer. -/
def Surrounds (t c : SyntaxTree) : Prop :=
  t.kind = .parenthesized ∧ ∃ before after, t.children = before ++ c :: after ∧
    c.kind.isFiller = false ∧ ∀ d ∈ before, d.kind = .token ∨ d.kind = .comment

/-- An expression is a core in so many layers of parentheses. -/
inductive Layers : Nat → SyntaxTree → SyntaxTree → Prop where
  | none {t : SyntaxTree} : Layers 0 t t
  | layer {k : Nat} {t c core : SyntaxTree} (content : t.Surrounds c) (inner : Layers k c core) :
      Layers (k + 1) t core

/-- An expression that is not a layer of parentheses around something. -/
def IsCore (t : SyntaxTree) : Prop := ∀ c, ¬ t.Surrounds c

/-- The content of a layer is what the loop goes on with, unless that is a line continuation. -/
theorem surrounds_iff {t c : SyntaxTree} :
    t.Surrounds c ↔ t.kind = .parenthesized ∧ t.content? = some c ∧ c.kind ≠ .lineContinuation := by
  have hfiller : c.kind.isFiller = false ↔
      (c.kind ≠ .token ∧ c.kind ≠ .comment) ∧ c.kind ≠ .lineContinuation := by
    rw [← Bool.not_eq_true, isFiller_iff, not_or, not_or, and_assoc]
  simp only [Surrounds, content?_eq_some_iff, hfiller]
  constructor
  · rintro ⟨hp, before, after, hs, ⟨hc, hk⟩, hb⟩
    exact ⟨hp, ⟨before, after, hs, hc, hb⟩, hk⟩
  · rintro ⟨hp, ⟨before, after, hs, hc, hb⟩, hk⟩
    exact ⟨hp, before, after, hs, ⟨hc, hk⟩, hb⟩

/-- Layers of parentheses do not change the name that an expression is. -/
theorem Layers.plainName?_eq {k : Nat} {t core : SyntaxTree} (h : Layers k t core) :
    t.plainName? = core.plainName? := by
  induction h with
  | none => rfl
  | layer content _ ih =>
    obtain ⟨hp, hcontent, -⟩ := surrounds_iff.1 content
    rw [plainName?_of_content hp hcontent, ih]

/-- A core is the name that it is, and no name if it is something else. -/
theorem IsCore.plainName?_eq_none {t : SyntaxTree} (h : t.IsCore) (hn : t.kind ≠ .name) :
    t.plainName? = none := by
  by_cases hp : t.kind = .parenthesized
  · cases hcontent : t.content? with
    | none => exact plainName?_of_content_none hp hcontent
    | some c =>
      -- what stands there is a line continuation, since the parentheses are no layer around it
      have hk : c.kind = .lineContinuation := by
        refine Decidable.byContradiction fun hk => ?_
        exact h c (surrounds_iff.2 ⟨hp, hcontent, hk⟩)
      rw [plainName?_of_content hp hcontent]
      exact plainName?_of_other (by simp [hk]) (by simp [hk])
  · exact plainName?_of_other hn hp

/-- What is inside a layer is smaller than the layer. -/
theorem size_lt_of_surrounds {t c : SyntaxTree} (h : t.Surrounds c) : c.size < t.size :=
  size_lt_of_mem_children (content?_mem (surrounds_iff.1 h).2.1)

/-- Every expression is a core in some number of layers. -/
theorem exists_core (t : SyntaxTree) : ∃ k core, Layers k t core ∧ core.IsCore := by
  by_cases h : t.IsCore
  · exact ⟨0, t, .none, h⟩
  · obtain ⟨c, hc⟩ := Classical.not_forall_not.1 h
    obtain ⟨k, core, hlayers, hcore⟩ := exists_core c
    exact ⟨k + 1, core, .layer hc hlayers, hcore⟩
termination_by t.size
decreasing_by
  exact size_lt_of_surrounds hc

/-- A layer is around one thing only. -/
theorem Surrounds.unique {t c d : SyntaxTree} (hc : t.Surrounds c) (hd : t.Surrounds d) : c = d :=
  Option.some.inj ((surrounds_iff.1 hc).2.1.symm.trans (surrounds_iff.1 hd).2.1)

/-- There is one core, and one number of layers around it. -/
theorem Layers.unique {k l : Nat} {t core core' : SyntaxTree} (h : Layers k t core) (hcore : core.IsCore)
    (h' : Layers l t core') (hcore' : core'.IsCore) : k = l ∧ core = core' := by
  induction h generalizing l with
  | none =>
    cases h' with
    | none => exact ⟨rfl, rfl⟩
    | layer content => exact absurd content (hcore _)
  | layer content _ ih =>
    cases h' with
    | none => exact absurd content (hcore' _)
    | layer content' inner' =>
      obtain rfl := content.unique content'
      obtain ⟨rfl, rfl⟩ := ih hcore inner'
      exact ⟨rfl, rfl⟩

/-! ## The loop -/

/-- The loop ends after some number of rounds, each from parentheses to their content: at a name with
that name, and at anything else, or at parentheses without content, with nothing. -/
inductive Strips : Nat → SyntaxTree → Option String → Prop where
  | name {t : SyntaxTree} (kind : t.kind = .name) : Strips 0 t (some t.text)
  | other {t : SyntaxTree} (notName : t.kind ≠ .name) (notLayer : t.kind ≠ .parenthesized) :
      Strips 0 t none
  | empty {t : SyntaxTree} (kind : t.kind = .parenthesized) (content : t.content? = none) :
      Strips 0 t none
  | round {n : Nat} {t c : SyntaxTree} {result : Option String} (kind : t.kind = .parenthesized)
      (content : t.content? = some c) (rest : Strips n c result) : Strips (n + 1) t result

/-- Every tree has a node. -/
theorem size_pos (t : SyntaxTree) : 0 < t.size := by
  rw [size_eq]
  omega

/-- The loop ends on every tree, after fewer rounds than the tree has nodes. -/
theorem exists_strips (t : SyntaxTree) : ∃ n, n < t.size ∧ Strips n t t.plainName? := by
  induction t using plainName?.induct with
  | case1 t hn =>
    rw [plainName?_of_name hn]
    exact ⟨0, t.size_pos, .name hn⟩
  | case2 t hp c h ih =>
    obtain ⟨n, hn, hstrips⟩ := ih
    have hc := size_lt_of_mem_children (content?_mem h)
    rw [plainName?_of_content hp h]
    exact ⟨n + 1, by omega, .round hp h hstrips⟩
  | case3 t hp h =>
    rw [plainName?_of_content_none hp h]
    exact ⟨0, t.size_pos, .empty hp h⟩
  | case4 t hn hp =>
    rw [plainName?_of_other hn hp]
    exact ⟨0, t.size_pos, .other hn hp⟩

/-- Whatever a call calls is a core in layers of parentheses, and the core alone decides: if it is a name
then this is what is called, and if it is not then nothing is. The loop that finds out ends on every
tree. -/
theorem parentheses_stripped_exactly :
    (∀ (call callee core : SyntaxTree) (k : Nat), call.child? .callee = some callee →
      Layers k callee core → (core.kind = .name → call.bareCallee? = some core.text) ∧
        (core.kind ≠ .name → core.IsCore → call.bareCallee? = none)) ∧
    (∀ t : SyntaxTree, ∃ k core, (Layers k t core ∧ core.IsCore) ∧
      ∀ l core', Layers l t core' → core'.IsCore → l = k ∧ core' = core) ∧
    ∀ t : SyntaxTree, ∃ n, n < t.size ∧ Strips n t t.plainName? := by
  refine ⟨?_, ?_, exists_strips⟩
  · intro call callee core k hcallee hlayers
    have hbare : call.bareCallee? = core.plainName? := by
      rw [bareCallee?, hcallee, Option.bind_some, hlayers.plainName?_eq]
    rw [hbare]
    exact ⟨plainName?_of_name, fun hn hcore => hcore.plainName?_eq_none hn⟩
  · intro t
    obtain ⟨k, core, hlayers, hcore⟩ := t.exists_core
    exact ⟨k, core, ⟨hlayers, hcore⟩, fun l core' hl hcore' => hl.unique hcore' hlayers hcore⟩

end SyntaxTree

namespace CommentedCalls

open SyntaxTree (Layers)
open TwoModules (leaf callOf)

/-- The name `g`. -/
def nameOfG : SyntaxTree := leaf .name none ⟨6, 2, 1⟩ "g"

/-- The name `g` in parentheses, with a comment before and one behind it. -/
def inner : SyntaxTree :=
  .node .parenthesized none ⟨1, 1, 2⟩ "" [leaf .token none ⟨1, 1, 2⟩ "(",
    leaf .comment none ⟨2, 1, 3⟩ "# a", nameOfG, leaf .comment none ⟨8, 2, 3⟩ "# b",
    leaf .token none ⟨12, 3, 1⟩ ")"]

/-- The same in parentheses, with a comment behind it. -/
def outer : SyntaxTree :=
  .node .parenthesized (some .callee) ⟨0, 1, 1⟩ "" [leaf .token none ⟨0, 1, 1⟩ "(", inner,
    leaf .comment none ⟨13, 3, 2⟩ "# c", leaf .token none ⟨17, 4, 1⟩ ")"]

/-- The attribute `o.g`, which is no name. -/
def access : SyntaxTree :=
  .node .other none ⟨1, 1, 2⟩ "" [leaf .name none ⟨1, 1, 2⟩ "o", leaf .token none ⟨2, 1, 3⟩ ".",
    leaf .name none ⟨3, 1, 4⟩ "g"]

/-- The attribute in parentheses. -/
def aroundAccess : SyntaxTree :=
  .node .parenthesized (some .callee) ⟨0, 1, 1⟩ "" [leaf .token none ⟨0, 1, 1⟩ "(", access,
    leaf .token none ⟨4, 1, 5⟩ ")"]

/-- The name `g` stands in two layers of parentheses. -/
theorem layers_outer : Layers 2 outer nameOfG := by
  have hinner : inner.Surrounds nameOfG := ⟨rfl, [_, _], [_, _], rfl, rfl, by simp [leaf]⟩
  have houter : outer.Surrounds inner := ⟨rfl, [_], [_, _], rfl, rfl, by simp [leaf]⟩
  exact .layer houter (.layer hinner .none)

/-- The attribute stands in one layer. -/
theorem layers_aroundAccess : Layers 1 aroundAccess access := by
  have h : aroundAccess.Surrounds access := ⟨rfl, [_], [_], rfl, rfl, by simp [leaf]⟩
  exact .layer h .none

/-- There is no layer around anything in the attribute itself. -/
theorem isCore_access : access.IsCore := by
  rintro c ⟨hp, -⟩
  contradiction

end CommentedCalls

section CommentedCalls

open CommentedCalls
open TwoModules (callOf)

/-- A name in two layers of parentheses with comments in them is called, an attribute in parentheses is
not. -/
theorem commentedCalls_stripped :
    (SyntaxTree.Layers 2 outer nameOfG ∧ (callOf outer ⟨18, 4, 2⟩).bareCallee? = some "g") ∧
      SyntaxTree.Layers 1 aroundAccess access ∧ access.IsCore ∧
        (callOf aroundAccess ⟨5, 1, 6⟩).bareCallee? = none := by
  have hname := (SyntaxTree.parentheses_stripped_exactly.1 (callOf outer ⟨18, 4, 2⟩) outer nameOfG 2 rfl
    layers_outer).1 rfl
  have haccess := (SyntaxTree.parentheses_stripped_exactly.1 (callOf aroundAccess ⟨5, 1, 6⟩)
    aroundAccess access 1 rfl layers_aroundAccess).2 (by decide) isCore_access
  exact ⟨⟨layers_outer, hname⟩, layers_aroundAccess, isCore_access, haccess⟩

end CommentedCalls

end BareCallGraph
