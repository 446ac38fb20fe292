import BareCallGraph.Grammar.Item

/-!
# The items of a catalogue

An item is a production on its way: what is passed and what is to come make up the steps of a production
(`Item.IsOf`). A catalogue numbers items in such a way that looking an item up by its number gives the
item back, and the item behind the next symbol has the number that is kept for it
(`Catalogue.IsOf`). Nothing here depends on the order of the items.
-/

namespace BareCallGraph.Grammar

/-! ## Productions on their way -/

namespace Item

variable {i : Item} {p : Production} {s : Step} {rest : List Step}

/-- What an item has passed and what is to come are the steps of a production. -/
def IsOf (i : Item) (p : Production) : Prop :=
  p.head = i.head ∧ ∃ before, p.steps = before ++ i.rest ∧ i.passed = before.map Step.mark

/-- A production of which nothing is passed is an item of that production. -/
theorem isOf_ofProduction (p : Production) : (ofProduction p).IsOf p := ⟨rfl, [], rfl, rfl⟩

/-- The item behind the next symbol is of the same production. -/
theorem IsOf.past (h : i.IsOf p) (hrest : i.rest = s :: rest) : (i.past s rest).IsOf p := by
  obtain ⟨hhead, before, hsteps, hpassed⟩ := h
  refine ⟨hhead, before ++ [s], ?_, ?_⟩
  · rw [hsteps, hrest, List.append_assoc]
    rfl
  · rw [Item.past, hpassed, List.map_append]
    rfl

/-- An item of which nothing is passed has all steps of its production before it. -/
theorem IsOf.steps_eq (h : i.IsOf p) (hpassed : i.passed = []) : p.steps = i.rest := by
  obtain ⟨-, before, hsteps, hbefore⟩ := h
  rw [hpassed] at hbefore
  rw [hsteps, List.map_eq_nil_iff.1 hbefore.symm, List.nil_append]

/-- An item is the first of its own stages. -/
theorem mem_stages_self (i : Item) (steps : List Step) : i ∈ i.stages steps := by
  cases steps with
  | nil => exact .head _
  | cons s rest => exact .head _

/-- All stages of an item are of its production. -/
theorem IsOf.of_mem_stages (h : i.IsOf p) {steps : List Step} (hrest : i.rest = steps) {j : Item}
    (hj : j ∈ i.stages steps) : j.IsOf p := by
  induction steps generalizing i with
  | nil => rwa [List.mem_singleton.1 hj]
  | cons s rest ih =>
    rcases List.mem_cons.1 hj with rfl | hj
    · exact h
    · exact ih (h.past hrest) rfl hj

/-- Behind a stage of an item comes another one. -/
theorem next_mem_stages {steps : List Step} (hrest : i.rest = steps) {j k : Item} {symbol : Symbol}
    (hj : j ∈ i.stages steps) (hnext : j.next? = some (symbol, k)) : k ∈ i.stages steps := by
  induction steps generalizing i with
  | nil =>
    rw [List.mem_singleton.1 hj, next?, hrest] at hnext
    contradiction
  | cons s rest ih =>
    rcases List.mem_cons.1 hj with rfl | hj
    · rw [next?, hrest] at hnext
      cases hnext
      exact .tail _ (mem_stages_self _ _)
    · exact .tail _ (ih rfl hj)

end Item

/-! ## Numbers -/

section

variable {α : Type} [BEq α] [Hashable α] [LawfulBEq α]

/-- A number that is looked up was given. -/
theorem mem_of_getElem?_foldl_insert {m : Std.HashMap α Nat} {pairs : List (α × Nat)} {a : α} {n : Nat}
    (h : (pairs.foldl (fun m p => m.insert p.1 p.2) m)[a]? = some n) :
    (a, n) ∈ pairs ∨ m[a]? = some n := by
  induction pairs generalizing m with
  | nil => exact .inr h
  | cons p pairs ih =>
    rcases ih h with hmem | hbefore
    · exact .inl (.tail _ hmem)
    · rw [Std.HashMap.getElem?_insert] at hbefore
      split at hbefore
      · next heq =>
        obtain ⟨b, k⟩ := p
        cases eq_of_beq heq
        cases hbefore
        exact .inl (.head _)
      · exact .inr hbefore

/-- What is given a number can be looked up. -/
theorem exists_getElem?_foldl_insert {m : Std.HashMap α Nat} {pairs : List (α × Nat)} {a : α}
    (h : (∃ n, (a, n) ∈ pairs) ∨ ∃ n, m[a]? = some n) :
    ∃ n, (pairs.foldl (fun m p => m.insert p.1 p.2) m)[a]? = some n := by
  induction pairs generalizing m with
  | nil => exact h.resolve_left fun ⟨_, hmem⟩ => absurd hmem List.not_mem_nil
  | cons p pairs ih =>
    refine ih ?_
    rw [Std.HashMap.getElem?_insert]
    by_cases heq : (p.1 == a) = true
    · exact .inr ⟨p.2, if_pos heq⟩
    · rw [if_neg heq]
      rcases h with ⟨n, hmem⟩ | h
      · rcases List.mem_cons.1 hmem with rfl | hmem
        · exact absurd (BEq.refl _) heq
        · exact .inl ⟨n, hmem⟩
      · exact .inr h

/-- As many numbers are kept as are given, if no two are given to one thing. -/
theorem size_foldl_insert {m : Std.HashMap α Nat} {pairs : List (α × Nat)}
    (hnodup : (pairs.map Prod.fst).Nodup) (hnew : ∀ a ∈ pairs.map Prod.fst, a ∉ m) :
    (pairs.foldl (fun m p => m.insert p.1 p.2) m).size = m.size + pairs.length := by
  induction pairs generalizing m with
  | nil => rfl
  | cons p pairs ih =>
    rw [List.map_cons, List.nodup_cons] at hnodup
    rw [List.foldl_cons, ih hnodup.2, Std.HashMap.size_insert, if_neg (hnew p.1 (.head _)),
      List.length_cons]
    · omega
    · intro a ha
      rw [Std.HashMap.mem_insert, not_or]
      refine ⟨?_, hnew a (.tail _ ha)⟩
      intro heq
      exact hnodup.1 (eq_of_beq heq ▸ ha)

/-- The places of a list by what stands there; of several the last one. -/
def numbering (xs : List α) : Std.HashMap α Nat :=
  xs.zipIdx.foldl (fun m p => m.insert p.1 p.2) ∅

/-- Under the number of something, that thing is found in the list. -/
theorem getElem?_of_numbering {xs : List α} {a : α} {n : Nat} (h : (numbering xs)[a]? = some n) :
    xs[n]? = some a := by
  rcases mem_of_getElem?_foldl_insert h with hmem | hnone
  · exact List.mem_zipIdx_iff_getElem?.1 hmem
  · simp at hnone

/-- Everything in a list has a number. -/
theorem exists_numbering {xs : List α} {a : α} (h : a ∈ xs) : ∃ n, (numbering xs)[a]? = some n := by
  obtain ⟨n, hn⟩ := List.getElem?_of_mem h
  exact exists_getElem?_foldl_insert (.inl ⟨n, List.mem_zipIdx_iff_getElem?.2 hn⟩)

/-- There are as many numbers as there are things in a list without repetitions. -/
theorem size_numbering {xs : List α} (h : xs.Nodup) : (numbering xs).size = xs.length := by
  have hkeys : xs.zipIdx.map Prod.fst = xs := List.zipIdx_map_fst 0 xs
  rw [numbering, size_foldl_insert (hkeys.symm ▸ h) (by simp)]
  simp

omit [Hashable α] in
/-- Nothing is left twice when repetitions are removed. -/
theorem nodup_eraseDups (xs : List α) : xs.eraseDups.Nodup := by
  induction hn : xs.length using Nat.strongRecOn generalizing xs with
  | ind n ih =>
    cases xs with
    | nil => exact List.nodup_nil
    | cons x xs =>
      have hlt : (xs.filter fun y => !(y == x)).length < n := by
        have := List.length_filter_le (fun y => !(y == x)) xs
        rw [← hn, List.length_cons]
        omega
      rw [List.eraseDups_cons, List.nodup_cons]
      exact ⟨by simp, ih _ hlt _ rfl⟩

end

/-- Changing a place of an array changes what is found there or nothing. -/
theorem getD_modify_cases {α : Type} (xs : Array α) (i j : Nat) (f : α → α) (d : α) :
    (xs.modify i f).getD j d = xs.getD j d ∨
      i = j ∧ (xs.modify i f).getD j d = f (xs.getD j d) := by
  simp only [Array.getD_eq_getD_getElem?, Array.getElem?_modify]
  split
  · next hij =>
    cases xs[j]? with
    | none => exact .inl rfl
    | some a => exact .inr ⟨hij, rfl⟩
  · exact .inl rfl

/-- An array of equal values has that value everywhere, and as its default. -/
theorem getD_replicate {α : Type} (n i : Nat) (d : α) : (Array.replicate n d).getD i d = d := by
  rw [Array.getD_eq_getD_getElem?, Array.getElem?_replicate]
  split <;> rfl

/-- Removing repetitions leaves the same items. -/
theorem mem_distinct {items : List Item} {i : Item} : i ∈ distinct items ↔ i ∈ items := by
  have hfold (step : List Item × Std.HashMap Item Unit → Item → List Item × Std.HashMap Item Unit)
      (hstep : ∀ kept seen j, step (kept, seen) j =
        if seen.contains j then (kept, seen) else (j :: kept, seen.insert j ()))
      (kept : List Item) (seen : Std.HashMap Item Unit)
      (hseen : ∀ j, seen.contains j = true ↔ j ∈ kept) :
      i ∈ (items.foldl step (kept, seen)).1 ↔ i ∈ kept ∨ i ∈ items := by
    induction items generalizing kept seen with
    | nil => simp
    | cons j items ih =>
      rw [List.foldl_cons, hstep]
      by_cases hj : seen.contains j = true
      · have hkept := (hseen j).1 hj
        rw [if_pos hj, ih kept seen hseen]
        grind
      · rw [if_neg hj, ih (j :: kept) (seen.insert j ()) ?_]
        · grind
        · intro k
          rw [Std.HashMap.contains_insert, Bool.or_eq_true, hseen, beq_iff_eq, List.mem_cons, eq_comm]
  rw [distinct, List.mem_reverse]
  refine (hfold _ (fun _ _ _ => rfl) [] ∅ (by simp)).trans ?_
  simp

namespace Catalogue

/-- All stages of the productions of a grammar, in the order in which they are numbered. -/
def itemsOf (productions : List Production) : List Item :=
  (distinct ((productions.map Item.ofProduction).flatMap fun i => i.stages i.rest)).mergeSort
    Item.precedes

/-- The items of a grammar are the stages of its productions. -/
theorem mem_itemsOf {productions : List Production} {i : Item} :
    i ∈ itemsOf productions ↔ ∃ p ∈ productions, i ∈ (Item.ofProduction p).stages p.steps := by
  rw [itemsOf, List.mem_mergeSort, mem_distinct, List.flatMap_map, List.mem_flatMap]
  rfl

/-- The production of the whole text. -/
def whole (nonterminalCount start : Nat) : Production :=
  ⟨nonterminalCount, [{ symbol := .nonterminal start }], 0⟩

/-- An entry of a catalogue with the given items. -/
def entryOf (first : Array TerminalSet) (items : List Item) (i : Item) : Entry :=
  match i.next? with
  | none => ⟨i, none, 0, none⟩
  | some (s, j) =>
    ⟨i, some s, (numbering items).getD j 0, j.rest.head?.map fun r => firstOf first r.symbol⟩

variable {terminalCount nonterminalCount start : Nat} {productions : List Production}

/-- The entries of a catalogue are those of its items, in the order of their numbers. -/
theorem entries_ofProductions :
    (ofProductions terminalCount nonterminalCount start productions).entries =
      ((itemsOf (productions ++ [whole nonterminalCount start])).map
        (entryOf (firstSets (nonterminalCount + 1) (productions ++ [whole nonterminalCount start]))
          (itemsOf (productions ++ [whole nonterminalCount start])))).toArray := rfl

/-- The entry of an item is about that item. -/
theorem entryOf_item (first : Array TerminalSet) (items : List Item) (i : Item) :
    (entryOf first items i).item = i := by
  unfold entryOf
  split <;> rfl

/-- A catalogue has an item under a number. -/
def Has (c : Catalogue) (k : Nat) (i : Item) : Prop := c.entries[k]?.map Entry.item = some i

/-- What a catalogue of productions answers about its items. -/
structure IsOf (c : Catalogue) (productions : List Production) : Prop where
  /-- An item is a production on its way. -/
  item : ∀ {k i}, c.Has k i → ∃ p ∈ productions, i.IsOf p
  /-- The next symbol of an item. -/
  next : ∀ {k i}, c.Has k i → (c.entries.getD k default).next = i.next?.map Prod.fst
  /-- The item behind the next symbol. -/
  successor : ∀ {k i s j}, c.Has k i → i.next? = some (s, j) →
    c.Has (c.entries.getD k default).successor j
  /-- The items of which nothing is passed. -/
  initial : ∀ {k n}, k ∈ c.initial.getD n [] → ∃ p ∈ productions, c.Has k (.ofProduction p)
  /-- The item from which a whole text is read. -/
  start : ∃ p ∈ productions, c.Has c.start (.ofProduction p)

/-- The entry under the number of an item is about that item. -/
theorem Has.getD_item {c : Catalogue} {k : Nat} {i : Item} (h : c.Has k i) :
    (c.entries.getD k default).item = i := by
  obtain ⟨e, he, rfl⟩ := Option.map_eq_some_iff.1 h
  rw [Array.getD_eq_getD_getElem?, he]
  rfl

/-- A catalogue has an item under a number exactly if it is the one at that place. -/
theorem has_ofProductions_iff {k : Nat} {i : Item} :
    (ofProductions terminalCount nonterminalCount start productions).Has k i ↔
      (itemsOf (productions ++ [whole nonterminalCount start]))[k]? = some i := by
  rw [Has, entries_ofProductions, List.getElem?_toArray, List.getElem?_map, Option.map_map]
  have hid : (Entry.item ∘ entryOf
      (firstSets (nonterminalCount + 1) (productions ++ [whole nonterminalCount start]))
      (itemsOf (productions ++ [whole nonterminalCount start]))) = id := by
    funext i
    exact entryOf_item _ _ i
  rw [hid, Option.map_id, id]

/-- The entry under the number of an item is the one made for the item. -/
theorem getD_entries_ofProductions {k : Nat} {i : Item}
    (h : (ofProductions terminalCount nonterminalCount start productions).Has k i) :
    (ofProductions terminalCount nonterminalCount start productions).entries.getD k default =
      entryOf (firstSets (nonterminalCount + 1) (productions ++ [whole nonterminalCount start]))
        (itemsOf (productions ++ [whole nonterminalCount start])) i := by
  rw [entries_ofProductions, Array.getD_eq_getD_getElem?, List.getElem?_toArray, List.getElem?_map,
    has_ofProductions_iff.1 h]
  rfl

/-- The number of an item leads to the item. -/
theorem has_numbering {i : Item} (h : i ∈ itemsOf (productions ++ [whole nonterminalCount start])) :
    (ofProductions terminalCount nonterminalCount start productions).Has
      ((numbering (itemsOf (productions ++ [whole nonterminalCount start]))).getD i 0) i := by
  obtain ⟨n, hn⟩ := exists_numbering h
  rw [has_ofProductions_iff, Std.HashMap.getD_eq_getD_getElem?, hn]
  exact getElem?_of_numbering hn

/-- The items that a nonterminal starts with are numbers of productions of which nothing is passed. -/
theorem mem_initial_ofProductions {k n : Nat}
    (h : k ∈ (ofProductions terminalCount nonterminalCount start productions).initial.getD n []) :
    ∃ p ∈ productions ++ [whole nonterminalCount start],
      k = (numbering (itemsOf (productions ++ [whole nonterminalCount start]))).getD
        (.ofProduction p) 0 := by
  have hfold (number : Item → Nat) (initials : List Item) (table : Array (List Nat))
      (h : k ∈ (initials.foldl (fun table i => table.modify i.head (number i :: ·)) table).getD n []) :
      k ∈ table.getD n [] ∨ ∃ i ∈ initials, k = number i := by
    induction initials generalizing table with
    | nil => exact .inl h
    | cons i initials ih =>
      rcases ih _ h with hk | ⟨j, hj, hk⟩
      · rcases getD_modify_cases table i.head n (number i :: ·) [] with heq | ⟨-, heq⟩
        · exact .inl (heq ▸ hk)
        · rcases List.mem_cons.1 (heq ▸ hk) with hk | hk
          · exact .inr ⟨i, .head _, hk⟩
          · exact .inl hk
      · exact .inr ⟨j, .tail _ hj, hk⟩
  rcases hfold _ _ _ h with hk | ⟨i, hi, hk⟩
  · rw [getD_replicate] at hk
    contradiction
  · obtain ⟨p, hp, rfl⟩ := List.mem_map.1 hi
    exact ⟨p, hp, hk⟩

/-- The catalogue of productions answers correctly about their items. -/
theorem isOf_ofProductions :
    (ofProductions terminalCount nonterminalCount start productions).IsOf
      (productions ++ [whole nonterminalCount start]) where
  item h := by
    obtain ⟨p, hp, hi⟩ := mem_itemsOf.1 (List.mem_of_getElem? (has_ofProductions_iff.1 h))
    exact ⟨p, hp, (Item.isOf_ofProduction p).of_mem_stages rfl hi⟩
  next {k i} h := by
    rw [getD_entries_ofProductions h, entryOf]
    cases i.next? <;> rfl
  successor {k i s j} h hnext := by
    obtain ⟨p, hp, hi⟩ := mem_itemsOf.1 (List.mem_of_getElem? (has_ofProductions_iff.1 h))
    rw [getD_entries_ofProductions h, entryOf, hnext]
    exact has_numbering (mem_itemsOf.2 ⟨p, hp, Item.next_mem_stages rfl hi hnext⟩)
  initial h := by
    obtain ⟨p, hp, rfl⟩ := mem_initial_ofProductions h
    exact ⟨p, hp, has_numbering (mem_itemsOf.2 ⟨p, hp, Item.mem_stages_self _ _⟩)⟩
  start := by
    have hmem : whole nonterminalCount start ∈ productions ++ [whole nonterminalCount start] :=
      List.mem_append_right _ (.head _)
    exact ⟨_, hmem, has_numbering (mem_itemsOf.2 ⟨_, hmem, Item.mem_stages_self _ _⟩)⟩

end Catalogue

end BareCallGraph.Grammar
