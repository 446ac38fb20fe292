/-!
# Sorted sets

A `SortedSet` is a finite set kept as the strictly increasing list of its elements. Each set has one
such list, so equal sets are equal values and every listing of a set comes in the same order. The order
is that of `compare`; on strings it is the order of their bytes.

Membership after each operation is stated beside it: `SortedSet.mem_insert`, `SortedSet.mem_union` and
`SortedSet.mem_ofList`.
-/

namespace BareCallGraph

variable {α : Type} [Ord α]

/-- A finite set, kept in increasing order. -/
structure SortedSet (α : Type) [Ord α] where
  /-- The elements, each before all greater ones. -/
  elements : List α
  /-- The elements are in strictly increasing order. -/
  sorted : elements.Pairwise fun x y => compare x y = .lt

namespace SortedSet

instance [DecidableEq α] : DecidableEq (SortedSet α) := fun s t =>
  match decEq s.elements t.elements with
  | .isTrue h => .isTrue (by cases s; cases t; cases h; rfl)
  | .isFalse h => .isFalse fun e => h (congrArg elements e)

/-- The set without elements. -/
def empty : SortedSet α := ⟨[], .nil⟩

instance : EmptyCollection (SortedSet α) := ⟨empty⟩

instance : Inhabited (SortedSet α) := ⟨empty⟩

instance : Membership α (SortedSet α) := ⟨fun s x => x ∈ s.elements⟩

/-- The members of a set are its elements. -/
theorem mem_iff {s : SortedSet α} {x : α} : x ∈ s ↔ x ∈ s.elements := Iff.rfl

/-- Nothing is in the empty set. -/
theorem not_mem_empty (x : α) : x ∉ (empty : SortedSet α) := List.not_mem_nil

/-- How many elements a set has. -/
def size (s : SortedSet α) : Nat := s.elements.length

/-- Whether a set has no elements. -/
def isEmpty (s : SortedSet α) : Bool := s.elements.isEmpty

/-- Whether a set holds an element. -/
def contains [BEq α] (s : SortedSet α) (x : α) : Bool := s.elements.contains x

/-- Looking something up tells whether it is in the set. -/
theorem contains_iff [BEq α] [LawfulBEq α] {s : SortedSet α} {x : α} :
    s.contains x = true ↔ x ∈ s := List.contains_iff_mem

/-- Puts an element into its place in an increasing list, unless it is there already. -/
def insertInto (x : α) : List α → List α
  | [] => [x]
  | y :: ys =>
    match compare x y with
    | .lt => x :: y :: ys
    | .eq => y :: ys
    | .gt => y :: insertInto x ys

/-- Inserting into a list adds the new element and nothing else. -/
theorem mem_insertInto [Std.LawfulEqOrd α] {x z : α} {ys : List α} :
    z ∈ insertInto x ys ↔ z = x ∨ z ∈ ys := by
  induction ys with
  | nil => simp [insertInto]
  | cons y ys ih =>
    rw [insertInto]
    split
    · simp
    · next h => simp [Std.LawfulEqOrd.eq_of_compare h]
    · simp [ih, or_left_comm]

/-- Inserting into a sorted list keeps it sorted. -/
theorem sorted_insertInto [Std.TransOrd α] [Std.LawfulEqOrd α] (x : α) {ys : List α}
    (h : ys.Pairwise fun x y => compare x y = .lt) :
    (insertInto x ys).Pairwise fun x y => compare x y = .lt := by
  induction ys with
  | nil => simp [insertInto]
  | cons y ys ih =>
    have hy := List.pairwise_cons.1 h
    rw [insertInto]
    split
    · next hxy =>
      refine List.pairwise_cons.2 ⟨fun z hz => ?_, h⟩
      rcases List.mem_cons.1 hz with rfl | hz
      · exact hxy
      · exact Std.TransCmp.lt_trans hxy (hy.1 z hz)
    · exact h
    · next hxy =>
      refine List.pairwise_cons.2 ⟨fun z hz => ?_, ih hy.2⟩
      rcases mem_insertInto.1 hz with rfl | hz
      · exact Std.OrientedCmp.lt_of_gt hxy
      · exact hy.1 z hz

/-- Merges one element and what follows it with an increasing list. -/
def mergeFrom (x : α) (later : List α → List α) : List α → List α
  | [] => x :: later []
  | y :: ys =>
    match compare x y with
    | .lt => x :: later (y :: ys)
    | .eq => x :: later ys
    | .gt => y :: mergeFrom x later ys

/-- Merges two increasing lists; what both hold comes once. -/
def merge : List α → List α → List α
  | [], ys => ys
  | x :: xs, ys => mergeFrom x (merge xs) ys

/-- A merged list has the elements of both. -/
theorem mem_merge [Std.LawfulEqOrd α] {xs ys : List α} {z : α} :
    z ∈ merge xs ys ↔ z ∈ xs ∨ z ∈ ys := by
  induction xs generalizing ys with
  | nil => simp [merge]
  | cons x xs ih =>
    rw [merge]
    induction ys with
    | nil => simp [mergeFrom, ih]
    | cons y ys ihy =>
      rw [mergeFrom]
      split
      · simp [ih, or_assoc]
      · next h =>
        have := Std.LawfulEqOrd.eq_of_compare h
        simp only [List.mem_cons, ih, this]
        grind
      · simp only [List.mem_cons, ihy]
        grind

/-- Merging sorted lists gives a sorted list. -/
theorem sorted_merge [Std.TransOrd α] [Std.LawfulEqOrd α] {xs ys : List α}
    (hx : xs.Pairwise fun x y => compare x y = .lt)
    (hy : ys.Pairwise fun x y => compare x y = .lt) :
    (merge xs ys).Pairwise fun x y => compare x y = .lt := by
  induction xs generalizing ys with
  | nil => exact hy
  | cons x xs ih =>
    have hx' := List.pairwise_cons.1 hx
    rw [merge]
    induction ys with
    | nil =>
      refine List.pairwise_cons.2 ⟨fun z hz => ?_, ih hx'.2 .nil⟩
      rcases mem_merge.1 hz with hz | hz
      · exact hx'.1 z hz
      · cases hz
    | cons y ys ihy =>
      have hy' := List.pairwise_cons.1 hy
      rw [mergeFrom]
      split
      · next hxy =>
        refine List.pairwise_cons.2 ⟨fun z hz => ?_, ih hx'.2 hy⟩
        rcases mem_merge.1 hz with hz | hz
        · exact hx'.1 z hz
        · rcases List.mem_cons.1 hz with rfl | hz
          · exact hxy
          · exact Std.TransCmp.lt_trans hxy (hy'.1 z hz)
      · next hxy =>
        have := Std.LawfulEqOrd.eq_of_compare hxy
        subst this
        refine List.pairwise_cons.2 ⟨fun z hz => ?_, ih hx'.2 hy'.2⟩
        rcases mem_merge.1 hz with hz | hz
        · exact hx'.1 z hz
        · exact hy'.1 z hz
      · next hxy =>
        refine List.pairwise_cons.2 ⟨fun z hz => ?_, ihy hy'.2⟩
        have hyx : compare y x = .lt := Std.OrientedCmp.lt_of_gt hxy
        have hz : z ∈ merge (x :: xs) ys := hz
        rcases mem_merge.1 hz with hz | hz
        · rcases List.mem_cons.1 hz with rfl | hz
          · exact hyx
          · exact Std.TransCmp.lt_trans hyx (hx'.1 z hz)
        · exact hy'.1 z hz

variable [Std.TransOrd α] [Std.LawfulEqOrd α]

/-- Adds one element. -/
def insert (s : SortedSet α) (x : α) : SortedSet α :=
  ⟨insertInto x s.elements, sorted_insertInto x s.sorted⟩

/-- Inserting adds the new element and nothing else. -/
@[simp]
theorem mem_insert {s : SortedSet α} {x z : α} : z ∈ s.insert x ↔ z = x ∨ z ∈ s :=
  mem_insertInto

/-- The elements of both sets. -/
def union (s t : SortedSet α) : SortedSet α :=
  ⟨merge s.elements t.elements, sorted_merge s.sorted t.sorted⟩

/-- A union has the elements of both sets. -/
@[simp]
theorem mem_union {s t : SortedSet α} {z : α} : z ∈ s.union t ↔ z ∈ s ∨ z ∈ t :=
  mem_merge

/-- The set of the elements of a list. -/
def ofList (xs : List α) : SortedSet α := xs.foldl insert empty

/-- Inserting one after the other adds all of them and nothing else. -/
theorem mem_foldl_insert {xs : List α} {s : SortedSet α} {z : α} :
    z ∈ xs.foldl insert s ↔ z ∈ s ∨ z ∈ xs := by
  induction xs generalizing s with
  | nil => simp
  | cons x xs ih =>
    rw [List.foldl_cons, ih, mem_insert, List.mem_cons]
    grind

/-- The set made from a list has its elements. -/
@[simp]
theorem mem_ofList {xs : List α} {z : α} : z ∈ ofList xs ↔ z ∈ xs := by
  rw [ofList, mem_foldl_insert]
  exact or_iff_right (not_mem_empty z)

end SortedSet

end BareCallGraph
