import BareCallGraph.Export.Format
import BareCallGraph.Proofs.GraphSets
import BareCallGraph.Proofs.TextBytes
import Mathlib.Data.Set.Card

/-!
# Graphs that grow by additions

A graph is made by adding nodes and edges one at a time, in any order and with repetitions. It stands for
the set of what was added (`CallGraph.Refines`): an addition tells whether it is new to that set, and puts
it there (`CallGraph.Refines.add`). All that a graph can be asked is a question about the set, and equal
sets make equal graphs.

Callees and callers are both listed by picking edges out of one list, which goes by caller first. Edges
that share one end go by the other, so either list is in the order of bytes (`CallGraph.pairwise_calleesOf`,
`CallGraph.pairwise_callersOf`).
-/

namespace BareCallGraph

/-- What is added to a graph at a time. -/
inductive Addition where
  /-- A function. -/
  | node (id : String)
  /-- A call, but neither of the functions. -/
  | edge (caller callee : String)
deriving DecidableEq, Repr

/-- One text comes before another in the order of their bytes. -/
def BytewiseBefore (x y : String) : Prop := compare x.toUTF8.toList y.toUTF8.toList = .lt

/-- The order of texts is that of their bytes. -/
theorem bytewiseBefore_iff {x y : String} : BytewiseBefore x y ↔ compare x y = .lt := by
  rw [BytewiseBefore, compare_toUTF8]

/-- Texts in the order of their bytes are all different. -/
theorem nodup_of_bytewiseBefore {xs : List String} (h : xs.Pairwise BytewiseBefore) : xs.Nodup := by
  refine h.imp fun {x y} hlt heq => ?_
  have hself : compare y y = .eq := Std.ReflCmp.compare_self
  rw [bytewiseBefore_iff, heq, hself] at hlt
  contradiction

/-- The size of a set is the number of its elements. -/
theorem SortedSet.size_eq_ncard {α : Type} [Ord α] [Std.LawfulEqOrd α] [DecidableEq α] (s : SortedSet α) :
    s.size = {x | x ∈ s}.ncard := by
  have hcoe : {x | x ∈ s} = (s.elements.toFinset : Set α) := by
    ext x
    simp [mem_iff]
  rw [hcoe, Set.ncard_coe_finset, List.toFinset_card_of_nodup s.nodup_elements, size]

namespace Edge

/-- Edges from one function are in the order of the functions they lead to. -/
theorem compare_of_caller_eq {e f : Edge} (h : e.caller = f.caller) :
    compare e f = compare e.callee f.callee := by
  have hself : compare f.caller f.caller = .eq := Std.ReflCmp.compare_self
  rw [compare_eq, h, hself]
  rfl

/-- Edges to one function are in the order of the functions they come from. -/
theorem compare_of_callee_eq {e f : Edge} (h : e.callee = f.callee) :
    compare e f = compare e.caller f.caller := by
  have hself : compare f.callee f.callee = .eq := Std.ReflCmp.compare_self
  rw [compare_eq, h, hself, Ordering.then_eq]

end Edge

namespace CallGraph

/-! ## Callees and callers -/

variable {g : CallGraph}

/-- The callees of a function are the ends of its edges. -/
theorem mem_calleesOf {x y : String} : y ∈ g.calleesOf x ↔ ⟨x, y⟩ ∈ g.edges := by
  simp only [calleesOf, List.mem_map, List.mem_filter, beq_iff_eq, SortedSet.mem_iff]
  constructor
  · rintro ⟨e, ⟨he, rfl⟩, rfl⟩
    exact he
  · intro h
    exact ⟨⟨x, y⟩, ⟨h, rfl⟩, rfl⟩

/-- The callers of a function are the origins of the edges to it. -/
theorem mem_callersOf {x y : String} : x ∈ g.callersOf y ↔ ⟨x, y⟩ ∈ g.edges := by
  simp only [callersOf, List.mem_map, List.mem_filter, beq_iff_eq, SortedSet.mem_iff]
  constructor
  · rintro ⟨e, ⟨he, rfl⟩, rfl⟩
    exact he
  · intro h
    exact ⟨⟨x, y⟩, ⟨h, rfl⟩, rfl⟩

/-- Of the edges of one caller, the one with the smaller callee comes first. -/
theorem pairwise_calleesOf (g : CallGraph) (x : String) : (g.calleesOf x).Pairwise BytewiseBefore := by
  rw [calleesOf, List.pairwise_map]
  refine (g.edges.sorted.filter _).imp_of_mem fun {e f} he hf hlt => ?_
  have hcaller : e.caller = f.caller :=
    (beq_iff_eq.1 (List.mem_filter.1 he).2).trans (beq_iff_eq.1 (List.mem_filter.1 hf).2).symm
  rwa [bytewiseBefore_iff, ← Edge.compare_of_caller_eq hcaller]

/-- Of the edges to one callee, the one with the smaller caller comes first. -/
theorem pairwise_callersOf (g : CallGraph) (y : String) : (g.callersOf y).Pairwise BytewiseBefore := by
  rw [callersOf, List.pairwise_map]
  refine (g.edges.sorted.filter _).imp_of_mem fun {e f} he hf hlt => ?_
  have hcallee : e.callee = f.callee :=
    (beq_iff_eq.1 (List.mem_filter.1 he).2).trans (beq_iff_eq.1 (List.mem_filter.1 hf).2).symm
  rwa [bytewiseBefore_iff, ← Edge.compare_of_callee_eq hcallee]

/-! ## One addition -/

/-- Adds a node or an edge, and tells whether it is new. -/
def add (g : CallGraph) : Addition → Bool × CallGraph
  | .node id => g.addNode id
  | .edge caller callee => g.addEdge caller callee

/-- A graph stands for a set of nodes and edges. -/
structure Refines (g : CallGraph) (s : Set Addition) : Prop where
  /-- Its nodes are those of the set. -/
  node : ∀ {id}, id ∈ g.nodes ↔ .node id ∈ s
  /-- Its edges are those of the set. -/
  edge : ∀ {caller callee}, ⟨caller, callee⟩ ∈ g.edges ↔ .edge caller callee ∈ s

/-- The graph without nodes stands for the empty set. -/
theorem refines_empty : empty.Refines ∅ where
  node := iff_of_false (SortedSet.not_mem_empty _) (Set.notMem_empty _)
  edge := iff_of_false (SortedSet.not_mem_empty _) (Set.notMem_empty _)

variable {s : Set Addition}

/-- A graph has the nodes of the set that it stands for. -/
theorem Refines.containsNode_iff (h : g.Refines s) {id : String} :
    g.containsNode id = true ↔ .node id ∈ s := SortedSet.contains_iff.trans h.node

/-- A graph has the edges of the set that it stands for. -/
theorem Refines.containsEdge_iff (h : g.Refines s) {caller callee : String} :
    g.containsEdge caller callee = true ↔ .edge caller callee ∈ s := SortedSet.contains_iff.trans h.edge

/-- The answer to an addition: it is new exactly if it is not in the set. -/
theorem Refines.fst_add_iff (h : g.Refines s) (a : Addition) : (g.add a).1 = true ↔ a ∉ s := by
  cases a with
  | node id => rw [← h.containsNode_iff, Bool.not_eq_true, ← Bool.not_eq_true']; rfl
  | edge caller callee => rw [← h.containsEdge_iff, Bool.not_eq_true, ← Bool.not_eq_true']; rfl

/-- An addition puts one element into the set: a node adds no edge, and an edge adds no node. -/
theorem Refines.add (h : g.Refines s) (a : Addition) : (g.add a).2.Refines (insert a s) := by
  cases a with
  | node id =>
    refine ⟨fun {other} => ?_, fun {x y} => ?_⟩
    · have hmem : other ∈ (g.add (.node id)).2.nodes ↔ other = id ∨ other ∈ g.nodes :=
        SortedSet.mem_insert
      rw [hmem, h.node, Set.mem_insert_iff, Addition.node.injEq]
    · have hedges : (g.add (.node id)).2.edges = g.edges := rfl
      rw [hedges, h.edge, Set.mem_insert_iff, or_iff_right (by simp)]
  | edge caller callee =>
    refine ⟨fun {id} => ?_, fun {x y} => ?_⟩
    · have hnodes : (g.add (.edge caller callee)).2.nodes = g.nodes := rfl
      rw [hnodes, h.node, Set.mem_insert_iff, or_iff_right (by simp)]
    · have hmem : (⟨x, y⟩ : Edge) ∈ (g.add (.edge caller callee)).2.edges ↔
          (⟨x, y⟩ : Edge) = ⟨caller, callee⟩ ∨ ⟨x, y⟩ ∈ g.edges := SortedSet.mem_insert
      rw [hmem, h.edge, Set.mem_insert_iff, Edge.mk.injEq, Addition.edge.injEq]

/-- A graph has as many nodes as the set has. -/
theorem Refines.nodeCount_eq (h : g.Refines s) : g.nodeCount = {id | .node id ∈ s}.ncard := by
  rw [nodeCount, SortedSet.size_eq_ncard]
  exact congrArg Set.ncard (Set.ext fun _ => h.node)

/-- A graph has as many edges as the set has. -/
theorem Refines.edgeCount_eq (h : g.Refines s) :
    g.edgeCount = {e : Edge | .edge e.caller e.callee ∈ s}.ncard := by
  rw [edgeCount, SortedSet.size_eq_ncard]
  exact congrArg Set.ncard (Set.ext fun _ => h.edge)

/-- Graphs are equal exactly if they stand for the same set. -/
theorem Refines.eq_iff {g' : CallGraph} {s' : Set Addition} (h : g.Refines s) (h' : g'.Refines s') :
    g = g' ↔ s = s' := by
  constructor
  · rintro rfl
    ext a
    cases a with
    | node id => rw [← h.node, h'.node]
    | edge caller callee => rw [← h.edge, h'.edge]
  · rintro rfl
    exact eq_of_mem (fun _ => h.node.trans h'.node.symm) fun _ => h.edge.trans h'.edge.symm

/-! ## Many additions -/

/-- The graph after several additions. -/
def grow (g : CallGraph) (additions : List Addition) : CallGraph :=
  additions.foldl (fun g a => (g.add a).2) g

/-- What each of several additions answers. -/
def answers (g : CallGraph) : List Addition → List Bool
  | [] => []
  | a :: additions => (g.add a).1 :: (g.add a).2.answers additions

/-- Every addition is answered once. -/
theorem length_answers (g : CallGraph) (additions : List Addition) :
    (g.answers additions).length = additions.length := by
  induction additions generalizing g with
  | nil => rfl
  | cons a additions ih => rw [answers, List.length_cons, List.length_cons, ih]

/-- An addition is answered by the graph that the additions before it have made. -/
theorem getElem?_answers (g : CallGraph) (before : List Addition) (a : Addition) (after : List Addition) :
    (g.answers (before ++ a :: after))[before.length]? = some ((g.grow before).add a).1 := by
  induction before generalizing g with
  | nil => rfl
  | cons b before ih =>
    rw [List.cons_append, answers, List.length_cons, List.getElem?_cons_succ, ih]
    rfl

/-- Several additions put their elements into the set. -/
theorem Refines.grow (h : g.Refines s) (additions : List Addition) :
    (g.grow additions).Refines (s ∪ {a | a ∈ additions}) := by
  induction additions generalizing g s with
  | nil =>
    have hset : s ∪ {b | b ∈ ([] : List Addition)} = s := by simp
    rwa [hset]
  | cons a additions ih =>
    have hset : s ∪ {b | b ∈ a :: additions} = insert a s ∪ {b | b ∈ additions} := by
      ext b
      simp only [Set.mem_union, Set.mem_ofPred_eq, List.mem_cons, Set.mem_insert_iff]
      tauto
    rw [hset]
    exact ih (h.add a)

/-- The graph that the additions make of the empty one. -/
def ofAdditions (additions : List Addition) : CallGraph := empty.grow additions

/-- A graph made of additions stands for the set of them. -/
theorem refines_ofAdditions (additions : List Addition) :
    (ofAdditions additions).Refines {a | a ∈ additions} := by
  have hgrow := refines_empty.grow additions
  rwa [Set.empty_union] at hgrow

/-- A graph is a set of nodes and a set of edges. Each addition answers whether it comes for the first
time, nodes and edges are held and counted as they were added, and callees and callers are the two sides of
the edges, both in the order of bytes. Two sequences of additions make one graph exactly if they add the
same, in whatever order and however often, and then every format writes the same bytes. -/
theorem additions_make_sets :
    (∀ additions : List Addition,
      (empty.answers additions).length = additions.length ∧
      (∀ before a after, additions = before ++ a :: after →
        ((empty.answers additions)[before.length]? = some true ↔ a ∉ before)) ∧
      (∀ id, (ofAdditions additions).containsNode id = true ↔ .node id ∈ additions) ∧
      (∀ x y, (ofAdditions additions).containsEdge x y = true ↔ .edge x y ∈ additions) ∧
      (ofAdditions additions).nodeCount = {id | .node id ∈ additions}.ncard ∧
      (ofAdditions additions).edgeCount = {e : Edge | .edge e.caller e.callee ∈ additions}.ncard ∧
      (∀ x y, y ∈ (ofAdditions additions).calleesOf x ↔ .edge x y ∈ additions) ∧
      (∀ x y, x ∈ (ofAdditions additions).callersOf y ↔ .edge x y ∈ additions) ∧
      ∀ x, ((ofAdditions additions).calleesOf x).Pairwise BytewiseBefore ∧
        ((ofAdditions additions).calleesOf x).Nodup ∧
        ((ofAdditions additions).callersOf x).Pairwise BytewiseBefore ∧
        ((ofAdditions additions).callersOf x).Nodup) ∧
    ∀ additions others : List Addition,
      (ofAdditions additions = ofAdditions others ↔ ∀ a, a ∈ additions ↔ a ∈ others) ∧
      ((∀ a, a ∈ additions ↔ a ∈ others) → ∀ format : ExportFormat,
        (format.render (ofAdditions additions)).toUTF8 = (format.render (ofAdditions others)).toUTF8) := by
  refine ⟨fun additions => ?_, fun additions others => ?_⟩
  · have hrefines := refines_ofAdditions additions
    refine ⟨length_answers _ _, ?_, fun id => hrefines.containsNode_iff,
      fun x y => hrefines.containsEdge_iff, hrefines.nodeCount_eq, hrefines.edgeCount_eq,
      fun x y => mem_calleesOf.trans hrefines.edge, fun x y => mem_callersOf.trans hrefines.edge, ?_⟩
    · rintro before a after rfl
      rw [getElem?_answers, Option.some.injEq]
      exact (refines_ofAdditions before).fst_add_iff a
    · intro x
      have hcallees := pairwise_calleesOf (ofAdditions additions) x
      have hcallers := pairwise_callersOf (ofAdditions additions) x
      exact ⟨hcallees, nodup_of_bytewiseBefore hcallees, hcallers, nodup_of_bytewiseBefore hcallers⟩
  · have heq : ofAdditions additions = ofAdditions others ↔ ∀ a, a ∈ additions ↔ a ∈ others :=
      ((refines_ofAdditions additions).eq_iff (refines_ofAdditions others)).trans Set.ext_iff
    exact ⟨heq, fun h format => by rw [heq.2 h]⟩

namespace LoopedAdditions

/-- A loop, a call of a function that is no node, and a node that is added twice. -/
def additions : List Addition :=
  [.node "m.é", .edge "m.é" "m.é", .edge "m.é" "m.z", .node "m.é"]

/-- The same in another order and with another repetition. -/
def others : List Addition :=
  [.edge "m.é" "m.z", .edge "m.é" "m.é", .edge "m.é" "m.z", .node "m.é"]

end LoopedAdditions

open LoopedAdditions in
/-- In the sample the node is not new when it is added again, and `m.z` is called although it is no node.
The other list has the same additions, so it makes the same graph, and every format writes the same. -/
theorem loopedAdditions_make_sets :
    (empty.answers additions)[3]? ≠ some true ∧ "m.z" ∈ (ofAdditions additions).calleesOf "m.é" ∧
    (∀ a, a ∈ additions ↔ a ∈ others) ∧ ofAdditions additions = ofAdditions others ∧
    ∀ format : ExportFormat,
      (format.render (ofAdditions additions)).toUTF8 = (format.render (ofAdditions others)).toUTF8 := by
  have hsame : ∀ a, a ∈ additions ↔ a ∈ others := by
    intro a
    simp only [additions, others, List.mem_cons, List.not_mem_nil, or_false]
    tauto
  obtain ⟨-, hnew, -, -, -, -, hcallees, -⟩ := additions_make_sets.1 additions
  obtain ⟨heq, hrender⟩ := additions_make_sets.2 additions others
  refine ⟨fun h => ?_, (hcallees _ _).2 (by decide), hsame, heq.2 hsame, hrender hsame⟩
  exact (hnew (additions.take 3) (.node "m.é") [] rfl).1 h (by decide)

end CallGraph

end BareCallGraph
