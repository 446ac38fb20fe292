import BareCallGraph.Grammar.Table
import BareCallGraph.Proofs.CatalogueItems

/-!
# The states of a table

A state of a table stands for a set of items. What moves are in the table can be said with these alone
(`Table.Tracks`): a phrase is closed only in a state with an item of which nothing is to come, and a
symbol leads from one state to another only if every item of the second is the start of a production or
has just passed that symbol in the first.
-/

namespace BareCallGraph.Grammar

namespace Kernel

/-- Inserting an item adds its number and no other. -/
theorem mem_insert {item k : Nat} {follow : TerminalSet} {kernel : Kernel}
    (h : k ∈ (Kernel.insert item follow kernel).map Prod.fst) :
    k = item ∨ k ∈ kernel.map Prod.fst := by
  induction kernel with
  | nil => exact .inl (List.mem_singleton.1 h)
  | cons a kernel ih =>
    obtain ⟨i, f⟩ := a
    simp only [insert] at h
    split at h
    · simpa using h
    · split at h
      · exact .inr h
      · rcases List.mem_cons.1 h with rfl | h
        · exact .inr (.head _)
        · rcases ih h with rfl | h
          · exact .inl rfl
          · exact .inr (.tail _ h)

end Kernel

namespace Catalogue

variable {c : Catalogue} {productions : List Production} {numbered : List (Nat × TerminalSet)}
  {kernel : Kernel} {i : Item}

/-- An item is among those with the given numbers. -/
def Among (c : Catalogue) (numbered : List (Nat × TerminalSet)) (i : Item) : Prop :=
  ∃ k ∈ numbered.map Prod.fst, c.Has k i

/-- The given numbers are numbers of items. -/
def Names (c : Catalogue) (numbered : List (Nat × TerminalSet)) : Prop :=
  ∀ k ∈ numbered.map Prod.fst, ∃ i, c.Has k i

/-- A number is that of one item. -/
theorem Has.unique {k : Nat} {j : Item} (h : c.Has k i) (h' : c.Has k j) : i = j :=
  Option.some.inj (h.symm.trans h')

/-- The items of a state are those of its kernel and productions that open there. -/
theorem mem_items {k : Nat} (h : k ∈ (c.items kernel).map Prod.fst) :
    k ∈ kernel.map Prod.fst ∨ ∃ n, k ∈ c.initial.getD n [] := by
  rw [items, List.map_append, List.mem_append] at h
  refine h.imp_right ?_
  intro h
  obtain ⟨⟨k, follow⟩, hmem, rfl⟩ := List.mem_map.1 h
  obtain ⟨⟨follow, n⟩, -, hmem⟩ := List.mem_flatMap.1 hmem
  dsimp only at hmem
  split at hmem
  · contradiction
  · obtain ⟨k, hk, heq⟩ := List.mem_map.1 hmem
    cases heq
    exact ⟨n, hk⟩

/-- The items of a state have numbers if those of its kernel have. -/
theorem IsOf.names_items (hc : c.IsOf productions) (h : c.Names kernel) : c.Names (c.items kernel) := by
  intro k hk
  rcases mem_items hk with hk | ⟨n, hk⟩
  · exact h k hk
  · obtain ⟨p, -, hp⟩ := hc.initial hk
    exact ⟨_, hp⟩

/-- An item of a state is one of its kernel, or a production that opens there. -/
theorem IsOf.among_items (hc : c.IsOf productions) (h : c.Among (c.items kernel) i) :
    c.Among kernel i ∨ ∃ p ∈ productions, i = .ofProduction p := by
  obtain ⟨k, hk, hi⟩ := h
  rcases mem_items hk with hk | ⟨n, hk⟩
  · exact .inl ⟨k, hk, hi⟩
  · obtain ⟨p, hp, hk⟩ := hc.initial hk
    exact .inr ⟨p, hp, hi.unique hk⟩

/-- The kernel that a symbol leads to has only successors of items that go on with the symbol. -/
theorem mem_successors {k place : Nat} (h : k ∈ ((c.successors numbered).getD place []).map Prod.fst) :
    ∃ m ∈ numbered.map Prod.fst, ∃ s, (c.entries.getD m default).next = some s ∧ c.place s = place ∧
      k = (c.entries.getD m default).successor := by
  -- one item changes the kernel of the symbol that it goes on with, and no other
  have hfold (step : Array Kernel → Nat × TerminalSet → Array Kernel)
      (hstep : ∀ kernels m follow, step kernels (m, follow) = kernels ∨
        ∃ s, (c.entries.getD m default).next = some s ∧ step kernels (m, follow) =
          kernels.modify (c.place s) (Kernel.insert (c.entries.getD m default).successor follow))
      (numbered : List (Nat × TerminalSet)) (kernels : Array Kernel)
      (h : k ∈ ((numbered.foldl step kernels).getD place []).map Prod.fst) :
      k ∈ (kernels.getD place []).map Prod.fst ∨
        ∃ m ∈ numbered.map Prod.fst, ∃ s, (c.entries.getD m default).next = some s ∧
          c.place s = place ∧ k = (c.entries.getD m default).successor := by
    induction numbered generalizing kernels with
    | nil => exact .inl h
    | cons a numbered ih =>
      obtain ⟨m, follow⟩ := a
      rw [List.foldl_cons] at h
      rcases ih _ h with hk | ⟨m', hm', hsymbol⟩
      · rcases hstep kernels m follow with hsame | ⟨s, hs, hmodify⟩
        · exact .inl (hsame ▸ hk)
        · rw [hmodify] at hk
          rcases getD_modify_cases kernels (c.place s) place
            (Kernel.insert (c.entries.getD m default).successor follow) [] with heq | ⟨hs', heq⟩
          · exact .inl (heq ▸ hk)
          · rcases Kernel.mem_insert (heq ▸ hk) with hk | hk
            · exact .inr ⟨m, .head _, s, hs, hs', hk⟩
            · exact .inl hk
      · exact .inr ⟨m', .tail _ hm', hsymbol⟩
  refine (hfold _ (fun kernels m follow => ?_) _ _ h).resolve_left ?_
  · dsimp only
    split
    · next s hs => exact .inr ⟨s, hs, rfl⟩
    · exact .inl rfl
  · rw [getD_replicate]
    exact List.not_mem_nil

/-- The item behind a number in the kernel that a symbol leads to has just passed the symbol. -/
theorem IsOf.has_successor (hc : c.IsOf productions) (h : c.Names numbered) {k place : Nat}
    (hk : k ∈ ((c.successors numbered).getD place []).map Prod.fst) :
    ∃ j s i, c.Among numbered j ∧ j.next? = some (s, i) ∧ c.place s = place ∧ c.Has k i := by
  obtain ⟨m, hm, s, hs, hplace, rfl⟩ := mem_successors hk
  obtain ⟨j, hj⟩ := h m hm
  obtain ⟨⟨s, i⟩, hnext, rfl⟩ := Option.map_eq_some_iff.1 ((hc.next hj).symm.trans hs)
  exact ⟨j, s, i, ⟨m, hm, hj⟩, hnext, hplace, hc.successor hj hnext⟩

/-- Where a symbol leads to, the items have numbers. -/
theorem IsOf.names_successors (hc : c.IsOf productions) (h : c.Names numbered) (place : Nat) :
    c.Names ((c.successors numbered).getD place []) := by
  intro k hk
  obtain ⟨_, _, i, -, -, -, hi⟩ := hc.has_successor h hk
  exact ⟨i, hi⟩

/-- An item where a symbol leads to has just passed a symbol with that place, and was there before. -/
theorem IsOf.among_successors (hc : c.IsOf productions) (h : c.Names numbered) {place : Nat}
    (hi : c.Among ((c.successors numbered).getD place []) i) :
    ∃ j s, c.Among numbered j ∧ j.next? = some (s, i) ∧ c.place s = place := by
  obtain ⟨k, hk, hi⟩ := hi
  obtain ⟨j, s, i', hj, hnext, hplace, hi'⟩ := hc.has_successor h hk
  cases hi.unique hi'
  exact ⟨j, s, hj, hnext, hplace⟩

/-- An item whose phrase can be closed is one of the given ones, and nothing of it is to come. -/
theorem IsOf.among_of_closable (hc : c.IsOf productions) (h : c.Names numbered) {t : Nat}
    (hi : i ∈ c.closable numbered t) : c.Among numbered i ∧ i.next? = none := by
  obtain ⟨⟨k, follow⟩, hmem, heq⟩ := List.mem_filterMap.1 hi
  have hk : k ∈ numbered.map Prod.fst := List.mem_map.2 ⟨_, hmem, rfl⟩
  obtain ⟨j, hj⟩ := h k hk
  dsimp only at heq
  split at heq
  · next hclosed =>
    cases heq
    rw [Bool.and_eq_true, hc.next hj, Option.isNone_map, Option.isNone_iff_eq_none] at hclosed
    rw [hj.getD_item]
    exact ⟨⟨k, hk, hj⟩, hclosed.1⟩
  · contradiction

end Catalogue

namespace Moves

variable {whole : Nat} {closing continuing : List Item} {shift : Option Nat}

/-- Some of the phrases that can be closed are kept. The whole text is set apart from them, and the
terminal can be taken only if it could be before. -/
theorem settle_eq (whole : Nat) (closing continuing : List Item) (shift : Option Nat) :
    ∃ kept : List Item, (∀ i ∈ kept, i ∈ closing) ∧
      (settle whole closing continuing shift).reductions =
        (kept.filter fun i => !(i.head == whole)).map Catalogue.reduction ∧
      (settle whole closing continuing shift).accepts = !(kept.filter (·.head == whole)).isEmpty ∧
      ∀ n, (settle whole closing continuing shift).shift = some n → shift = some n := by
  cases closing with
  | nil => exact ⟨[], fun _ hi => hi, rfl, rfl, fun n hn => hn⟩
  | cons i is =>
    simp only [settle, List.partition_eq_filter_filter]
    generalize (if shift.isNone = true then _ else _ : Verdict) = verdict
    refine ⟨_, ?_, rfl, rfl, ?_⟩
    · intro j hj
      split at hj
      · exact (List.mem_filter.1 hj).1
      · contradiction
    · intro n hn
      split at hn
      · exact hn
      · contradiction

/-- A reduction that is kept closes a phrase that could be closed and is not the whole text. -/
theorem mem_reductions_settle {r : Reduction}
    (h : r ∈ (settle whole closing continuing shift).reductions) :
    ∃ i ∈ closing, i.head ≠ whole ∧ r = Catalogue.reduction i := by
  obtain ⟨kept, hkept, hreductions, -⟩ := settle_eq whole closing continuing shift
  rw [hreductions] at h
  obtain ⟨i, hi, rfl⟩ := List.mem_map.1 h
  obtain ⟨hi, hhead⟩ := List.mem_filter.1 hi
  exact ⟨i, hkept i hi, by simpa using hhead, rfl⟩

/-- The whole text is accepted only where it could be closed. -/
theorem exists_of_accepts_settle (h : (settle whole closing continuing shift).accepts = true) :
    ∃ i ∈ closing, i.head = whole := by
  obtain ⟨kept, hkept, -, haccepts, -⟩ := settle_eq whole closing continuing shift
  rw [haccepts] at h
  obtain ⟨i, hi⟩ := List.exists_mem_of_ne_nil (kept.filter (·.head == whole)) (by simpa using h)
  obtain ⟨hi, hhead⟩ := List.mem_filter.1 hi
  exact ⟨i, hkept i hi, by simpa using hhead⟩

/-- A terminal is taken where it could be taken, and leads to the same state. -/
theorem shift_of_shift_settle {n : Nat}
    (h : (settle whole closing continuing shift).shift = some n) : shift = some n := by
  obtain ⟨_, -, -, -, hshift⟩ := settle_eq whole closing continuing shift
  exact hshift n h

end Moves

namespace Build

variable {c : Catalogue} {productions : List Production} {b : Build} {kernel : Kernel}

/-- States are found under the numbers that are kept for them, and their kernels have numbers of
items. -/
structure IsNumbered (c : Catalogue) (b : Build) : Prop where
  /-- A number that is kept for a kernel is its number. -/
  numbers : ∀ {kernel : Kernel} {n : Nat}, b.numbers[kernel]? = some n → b.kernels[n]? = some kernel
  /-- Kernels have numbers of items. -/
  names : ∀ {n : Nat} {kernel : Kernel}, b.kernels[n]? = some kernel → c.Names kernel

/-- States are added behind those that there are. -/
structure Grows (b b' : Build) : Prop where
  /-- The states that there are keep their numbers. -/
  kernels : ∀ {n : Nat} {kernel : Kernel},
    b.kernels[n]? = some kernel → b'.kernels[n]? = some kernel
  /-- No row is added. -/
  rows : b'.rows = b.rows

/-- A table grows by nothing. -/
theorem Grows.refl (b : Build) : b.Grows b := ⟨id, rfl⟩

/-- Growing twice is growing. -/
theorem Grows.trans {b b' b'' : Build} (h : b.Grows b') (h' : b'.Grows b'') : b.Grows b'' :=
  ⟨fun hn => h'.kernels (h.kernels hn), h'.rows.trans h.rows⟩

/-- An element of an array keeps its place when another one is added. -/
theorem getElem?_push_of_eq_some {α : Type} {xs : Array α} {n : Nat} {a x : α}
    (h : xs[n]? = some a) : (xs.push x)[n]? = some a := by
  obtain ⟨hn, -⟩ := Array.getElem?_eq_some_iff.1 h
  rw [Array.getElem?_push, if_neg (Nat.ne_of_lt hn), h]

/-- A kernel is found under the number that it gets. -/
theorem intern_spec (hb : b.IsNumbered c) (hkernel : c.Names kernel) :
    (b.intern kernel).2.IsNumbered c ∧ b.Grows (b.intern kernel).2 ∧
      (b.intern kernel).2.kernels[(b.intern kernel).1]? = some kernel := by
  unfold intern
  split
  · next n hn => exact ⟨hb, .refl b, hb.numbers hn⟩
  · refine ⟨⟨?_, ?_⟩, ⟨getElem?_push_of_eq_some, rfl⟩, by simp⟩
    · intro k n hn
      rw [Std.HashMap.getElem?_insert] at hn
      split at hn
      · next heq =>
        cases eq_of_beq heq
        cases hn
        simp
      · exact getElem?_push_of_eq_some (hb.numbers hn)
    · intro n k hn
      rw [Array.getElem?_push] at hn
      split at hn
      · cases hn
        exact hkernel
      · exact hb.names hn

/-- A target leads to the kernel in its place. -/
def TargetsFit (b : Build) (targets : Array (Option Nat)) (kernels : List Kernel) : Prop :=
  targets.size = kernels.length ∧
    ∀ place n : Nat, targets[place]? = some (some n) → ∃ kernel, kernels[place]? = some kernel ∧
      b.kernels[n]? = some kernel

/-- A further target fits if it leads to the next kernel. -/
theorem TargetsFit.push {b b' : Build} {targets : Array (Option Nat)} {done : List Kernel}
    (h : b.TargetsFit targets done) (hgrows : b.Grows b') {target : Option Nat}
    (htarget : ∀ n, target = some n → b'.kernels[n]? = some kernel) :
    b'.TargetsFit (targets.push target) (done ++ [kernel]) := by
  obtain ⟨hsize, hfit⟩ := h
  refine ⟨by simp [hsize], ?_⟩
  intro place n hn
  rw [Array.getElem?_push] at hn
  split at hn
  · next hplace =>
    refine ⟨kernel, ?_, htarget n (Option.some.inj hn)⟩
    rw [hplace, hsize, List.getElem?_concat_length]
  · obtain ⟨k, hk, hn⟩ := hfit place n hn
    obtain ⟨hlt, -⟩ := List.getElem?_eq_some_iff.1 hk
    exact ⟨k, by rw [List.getElem?_append_left hlt, hk], hgrows.kernels hn⟩

/-- All kernels get numbers under which they are found, one after the other. -/
theorem internAll_spec (hb : b.IsNumbered c) {kernels : Array Kernel}
    (hkernels : ∀ kernel ∈ kernels.toList, c.Names kernel) :
    (b.internAll kernels).2.IsNumbered c ∧ b.Grows (b.internAll kernels).2 ∧
      (b.internAll kernels).2.TargetsFit (b.internAll kernels).1 kernels.toList := by
  have hfold (step : Array (Option Nat) × Build → Kernel → Array (Option Nat) × Build)
      (hstep : ∀ targets b kernel, step (targets, b) kernel =
        if kernel.isEmpty then (targets.push none, b)
        else (targets.push (some (b.intern kernel).1), (b.intern kernel).2))
      (todo done : List Kernel) (targets : Array (Option Nat)) (b : Build) (hb : b.IsNumbered c)
      (hnames : ∀ kernel ∈ todo, c.Names kernel) (hfit : b.TargetsFit targets done) :
      (todo.foldl step (targets, b)).2.IsNumbered c ∧ b.Grows (todo.foldl step (targets, b)).2 ∧
        (todo.foldl step (targets, b)).2.TargetsFit (todo.foldl step (targets, b)).1
          (done ++ todo) := by
    induction todo generalizing done targets b with
    | nil => simpa using ⟨hb, .refl b, hfit⟩
    | cons kernel todo ih =>
      have hkernel := hnames kernel (.head _)
      have htodo := fun k hk => hnames k (.tail _ hk)
      rw [List.foldl_cons, hstep, List.append_cons]
      by_cases hempty : kernel.isEmpty = true
      · rw [if_pos hempty]
        exact ih _ _ b hb htodo (hfit.push (.refl b) (by simp))
      · obtain ⟨hb', hgrows, hfound⟩ := intern_spec hb hkernel
        have hpush : (b.intern kernel).2.TargetsFit (targets.push (some (b.intern kernel).1))
            (done ++ [kernel]) := hfit.push hgrows fun n hn => by cases hn; exact hfound
        rw [if_neg hempty]
        obtain ⟨hnumbered, hgrows', hfit'⟩ := ih _ _ _ hb' htodo hpush
        exact ⟨hnumbered, hgrows.trans hgrows', hfit'⟩
  rw [internAll, ← Array.foldl_toList]
  exact hfold _ (fun _ _ _ => rfl) kernels.toList [] _ b hb hkernels ⟨rfl, by simp⟩

/-- A row says of a state with the given kernel what its items say. -/
structure RowFits (c : Catalogue) (kernels : Array Kernel) (kernel : Kernel) (row : Row) : Prop where
  /-- Taking a terminal leads to the successors of the items that go on with it. -/
  shift : ∀ {t n}, (row.moves.getD t {}).shift = some n →
    kernels[n]? = some ((c.successors (c.items kernel)).getD t [])
  /-- A phrase is closed that an item has come to the end of. -/
  closes : ∀ {t r}, r ∈ (row.moves.getD t {}).reductions → ∃ i, c.Among (c.items kernel) i ∧
    i.next? = none ∧ i.head ≠ c.nonterminalCount - 1 ∧ r = Catalogue.reduction i
  /-- A text ends where an item has come to the end of it. -/
  accepts : ∀ {t}, (row.moves.getD t {}).accepts = true → ∃ i, c.Among (c.items kernel) i ∧
    i.next? = none ∧ i.head = c.nonterminalCount - 1
  /-- A closed phrase leads to the successors of the items that go on with it, or to the start. -/
  goto : ∀ n, row.gotos.getD n 0 = 0 ∨ kernels[row.gotos.getD n 0]? =
    some ((c.successors (c.items kernel)).getD (c.terminalCount + n) [])

/-- A row that fits fits while states are added. -/
theorem RowFits.mono {kernels kernels' : Array Kernel} {row : Row}
    (h : RowFits c kernels kernel row)
    (hgrows : ∀ {n : Nat} {k : Kernel}, kernels[n]? = some k → kernels'[n]? = some k) :
    RowFits c kernels' kernel row where
  shift ht := hgrows (h.shift ht)
  closes := h.closes
  accepts := h.accepts
  goto n := (h.goto n).imp_right hgrows

/-- An array of values of a function has these values, and the default behind them. -/
theorem getD_toArray_map_range {α : Type} (f : Nat → α) (count n : Nat) (d : α) :
    (((List.range count).map f).toArray).getD n d = d ∨
      (((List.range count).map f).toArray).getD n d = f n := by
  rw [Array.getD_eq_getD_getElem?, List.getElem?_toArray, List.getElem?_map]
  rcases Nat.lt_or_ge n count with hn | hn
  · right
    rw [List.getElem?_range hn]
    rfl
  · left
    rw [List.getElem?_eq_none (by simpa using hn)]
    rfl

/-- The moves in a state on a terminal, given where each symbol leads to. -/
def movesOf (c : Catalogue) (kernel : Kernel) (targets : Array (Option Nat)) (t : Nat) : Moves :=
  let closing := c.closable
    ((c.items kernel).filter fun (i, _) => (c.entries.getD i default).next.isNone) t
  Moves.settle (c.nonterminalCount - 1) closing
    (if closing.isEmpty then [] else c.continued kernel t) (targets.getD t none)

/-- The row of a state, given where each symbol leads to. -/
def rowOf (c : Catalogue) (kernel : Kernel) (targets : Array (Option Nat)) : Row where
  moves := ((List.range c.terminalCount).map (movesOf c kernel targets)).toArray
  gotos := ((List.range c.nonterminalCount).map fun n =>
    (targets.getD (c.terminalCount + n) none).getD 0).toArray

/-- Adding a row numbers the states that symbols lead to, and says where each of them leads. -/
theorem addRow_eq (c : Catalogue) (b : Build) (kernel : Kernel) :
    b.addRow c kernel =
      let targets := b.internAll (c.successors (c.items kernel))
      { targets.2 with rows := targets.2.rows.push (rowOf c kernel targets.1) } := rfl

/-- A phrase that can be closed in a state is that of an item of the state that has passed all its
symbols. -/
theorem among_of_closing (hc : c.IsOf productions) (hkernel : c.Names kernel) {t : Nat} {i : Item}
    (hi : i ∈ c.closable
      ((c.items kernel).filter fun (k, _) => (c.entries.getD k default).next.isNone) t) :
    c.Among (c.items kernel) i ∧ i.next? = none := by
  have hsub : ∀ k ∈ ((c.items kernel).filter fun (k, _) =>
      (c.entries.getD k default).next.isNone).map Prod.fst, k ∈ (c.items kernel).map Prod.fst := by
    intro k hk
    obtain ⟨a, ha, rfl⟩ := List.mem_map.1 hk
    exact List.mem_map.2 ⟨a, (List.mem_filter.1 ha).1, rfl⟩
  have hnames := hc.names_items hkernel
  obtain ⟨⟨k, hk, hi⟩, hnext⟩ := hc.among_of_closable (fun k hk => hnames k (hsub k hk)) hi
  exact ⟨⟨k, hsub k hk, hi⟩, hnext⟩

/-- The row of a state says what the items of the state say, if its targets do. -/
theorem rowFits_rowOf (hc : c.IsOf productions) (hkernel : c.Names kernel) {kernels : Array Kernel}
    {targets : Array (Option Nat)}
    (htarget : ∀ {place n : Nat}, targets.getD place none = some n →
      kernels[n]? = some ((c.successors (c.items kernel)).getD place [])) :
    RowFits c kernels kernel (rowOf c kernel targets) where
  shift {t n} h := by
    rcases getD_toArray_map_range (movesOf c kernel targets) c.terminalCount t {} with heq | heq
    · rw [rowOf, heq] at h
      contradiction
    · rw [rowOf, heq] at h
      exact htarget (Moves.shift_of_shift_settle h)
  closes {t r} h := by
    rcases getD_toArray_map_range (movesOf c kernel targets) c.terminalCount t {} with heq | heq
    · rw [rowOf, heq] at h
      contradiction
    · rw [rowOf, heq] at h
      obtain ⟨i, hi, hhead, rfl⟩ := Moves.mem_reductions_settle h
      obtain ⟨hamong, hnext⟩ := among_of_closing hc hkernel hi
      exact ⟨i, hamong, hnext, hhead, rfl⟩
  accepts {t} h := by
    rcases getD_toArray_map_range (movesOf c kernel targets) c.terminalCount t {} with heq | heq
    · rw [rowOf, heq] at h
      contradiction
    · rw [rowOf, heq] at h
      obtain ⟨i, hi, hhead⟩ := Moves.exists_of_accepts_settle h
      obtain ⟨hamong, hnext⟩ := among_of_closing hc hkernel hi
      exact ⟨i, hamong, hnext, hhead⟩
  goto n := by
    rcases getD_toArray_map_range (fun n => (targets.getD (c.terminalCount + n) none).getD 0)
      c.nonterminalCount n 0 with heq | heq
    · exact .inl heq
    · rw [rowOf, heq]
      cases htargets : targets.getD (c.terminalCount + n) none with
      | none => exact .inl rfl
      | some m => exact .inr (htarget htargets)

/-- A table under construction has rows that fit its states. -/
structure Fits (c : Catalogue) (b : Build) : Prop extends IsNumbered c b where
  /-- The rows are those of the first states. -/
  row : ∀ {n : Nat} {row : Row}, b.rows[n]? = some row →
    ∃ kernel, b.kernels[n]? = some kernel ∧ RowFits c b.kernels kernel row

/-- Adding the row of the next state keeps the states and what fits them. -/
theorem Fits.addRow (hc : c.IsOf productions) (hb : b.Fits c)
    (hkernel : b.kernels[b.rows.size]? = some kernel) :
    (b.addRow c kernel).Fits c ∧
      ∀ {n : Nat} {k : Kernel}, b.kernels[n]? = some k →
        (b.addRow c kernel).kernels[n]? = some k := by
  have hnames := hb.names hkernel
  have hsuccessors : ∀ k ∈ (c.successors (c.items kernel)).toList, c.Names k := by
    intro k hk
    obtain ⟨place, hplace⟩ := List.getElem?_of_mem hk
    have hplaced := hc.names_successors (hc.names_items hnames) place
    rwa [Array.getD_eq_getD_getElem?, ← Array.getElem?_toList, hplace] at hplaced
  obtain ⟨hnumbered, hgrows, -, hfit⟩ := internAll_spec hb.toIsNumbered hsuccessors
  rw [addRow_eq]
  refine ⟨⟨⟨hnumbered.numbers, hnumbered.names⟩, ?_⟩, hgrows.kernels⟩
  intro n row hrow
  rw [Array.getElem?_push, hgrows.rows] at hrow
  split at hrow
  · next hn =>
    cases hrow
    rw [hn]
    refine ⟨kernel, hgrows.kernels hkernel, rowFits_rowOf hc hnames ?_⟩
    intro place n htarget
    rw [Array.getD_eq_getD_getElem?, Option.getD_eq_iff] at htarget
    obtain ⟨k, hk, hn⟩ := hfit place n (htarget.resolve_right (by simp))
    rw [hn, Array.getD_eq_getD_getElem?, ← Array.getElem?_toList, hk]
    rfl
  · obtain ⟨k, hk, hrow⟩ := hb.row hrow
    exact ⟨k, hgrows.kernels hk, hrow.mono hgrows.kernels⟩

/-- A table that fits fits while it grows. By induction on the number of rows that may be added. -/
theorem Fits.grow (hc : c.IsOf productions) (hb : b.Fits c) (limit : Nat) :
    (b.grow c limit).Fits c ∧
      ∀ {n : Nat} {k : Kernel}, b.kernels[n]? = some k → (b.grow c limit).kernels[n]? = some k := by
  induction limit generalizing b with
  | zero => exact ⟨hb, id⟩
  | succ limit ih =>
    rw [Build.grow]
    split
    · exact ⟨hb, id⟩
    · next kernel hkernel =>
      obtain ⟨hadd, hkeeps⟩ := hb.addRow hc hkernel
      obtain ⟨hgrow, hkeeps'⟩ := ih hadd
      exact ⟨hgrow, fun hk => hkeeps' (hkeeps hk)⟩

end Build

/-- The number of a symbol among all symbols, when terminals have the numbers below `terminals`. -/
def Symbol.number (terminals : Nat) : Symbol → Nat
  | .terminal t => t
  | .nonterminal n => terminals + n

/-- The place of a symbol is its number. -/
theorem Catalogue.place_eq (c : Catalogue) (s : Symbol) : c.place s = s.number c.terminalCount := by
  cases s <;> rfl

/-- An item goes on with the first of the steps that are to come. -/
theorem Item.next?_eq_some_iff {j i : Item} {symbol : Symbol} :
    j.next? = some (symbol, i) ↔ ∃ s rest, j.rest = s :: rest ∧ s.symbol = symbol ∧ j.past s rest = i := by
  rw [Item.next?]
  cases j.rest with
  | nil => simp
  | cons s rest => simp [and_assoc]

/-- An item goes on with nothing if no steps are to come. -/
theorem Item.next?_eq_none_iff {i : Item} : i.next? = none ↔ i.rest = [] := by
  rw [Item.next?]
  cases i.rest <;> simp

/-- A symbol leads from one state to another: each item of the second is at its start or has just
passed the symbol as an item of the first. -/
def Leads (terminals : Nat) (holds : Nat → Item → Prop) (state symbol state' : Nat) : Prop :=
  ∀ i, holds state' i → i.passed = [] ∨
    ∃ j s rest, holds state j ∧ j.rest = s :: rest ∧ s.symbol.number terminals = symbol ∧
      i = j.past s rest

namespace Definition

variable {T N : Type} [BEq T] [LawfulBEq T] [BEq N] [LawfulBEq N] (g : Definition T N)

/-- The productions of a nonterminal have it as their head, and the steps of its alternatives. -/
theorem mem_productionsOf {head : Nat} {alternatives : List Alternative} {p : Production}
    (h : p ∈ productionsOf head alternatives) :
    p.head = head ∧ ∃ a ∈ alternatives, p.steps = a.steps := by
  obtain ⟨a, ha, rfl⟩ := List.mem_map.1 h
  exact ⟨rfl, a, List.mem_eraseDups.1 ha, rfl⟩

/-- The nonterminals of productions are numbered below those of all nonterminals and repetitions. -/
theorem head_lt_of_mem_productions {p : Production} (h : p ∈ g.productions) :
    p.head < g.nonterminals.length + g.repetitions.length := by
  rcases List.mem_append.1 h with h | h
  · obtain ⟨n, hn, hp⟩ := List.mem_flatMap.1 h
    have hlt : g.nonterminals.idxOf n < g.nonterminals.length := List.idxOf_lt_length_iff.2 hn
    rw [(mem_productionsOf hp).1]
    exact Nat.lt_add_right _ hlt
  · obtain ⟨body, hbody, hp⟩ := List.mem_flatMap.1 h
    have hlt : g.repetitions.idxOf body < g.repetitions.length := List.idxOf_lt_length_iff.2 hbody
    rw [(mem_productionsOf hp).1]
    exact Nat.add_lt_add_left hlt _

end Definition

namespace Table

variable {T N : Type} [BEq T] [BEq N] (g : Definition T N)

/-- The production for a whole text. -/
def wholeOf : Production :=
  Catalogue.whole (g.nonterminals.length + g.repetitions.length) (g.coding.nonterminal g.start)

/-- A table tracks a grammar: each of its states holds items of the grammar, and the moves in a state
are those that its items allow. -/
structure Tracks [Hashable T] (table : Table T) (holds : Nat → Item → Prop) : Prop where
  /-- The number of a terminal is its place among all terminals. -/
  number : ∀ {t : T} {n : Nat}, table.numbers[t]? = some n → g.terminals[n]? = some t
  /-- All terminals have numbers. -/
  size : table.numbers.size = g.terminals.length
  /-- The items are of productions of the grammar or of the one for a whole text. -/
  item : ∀ {state i}, holds state i → ∃ p, (p ∈ g.productions ∨ p = wholeOf g) ∧ i.IsOf p
  /-- The production for a whole text is the only one of its nonterminal. -/
  apart : ∀ p ∈ g.productions, p.head ≠ (wholeOf g).head
  /-- A phrase is closed that an item has come to the end of. -/
  closes : ∀ {state t r}, r ∈ (table.moves state t).reductions → ∃ i, holds state i ∧ i.rest = [] ∧
    i.head ≠ (wholeOf g).head ∧ r = Catalogue.reduction i
  /-- A text ends where an item has come to the end of it. -/
  accepts : ∀ {state t}, (table.moves state t).accepts = true → ∃ i, holds state i ∧ i.rest = [] ∧
    i.head = (wholeOf g).head
  /-- A terminal that is taken leads to the next state. -/
  shift : ∀ {state t state'}, (table.moves state t).shift = some state' →
    ∃ n, table.numbers[t]? = some n ∧ Leads g.terminals.length holds state n state'
  /-- A phrase that is closed leads to the next state. -/
  goto : ∀ state n,
    Leads g.terminals.length holds state (g.terminals.length + n) (table.goto state n)

/-- The items of the nonterminal for a whole text are of its production. -/
theorem Tracks.isOf_whole [Hashable T] {g : Definition T N} {table : Table T}
    {holds : Nat → Item → Prop} (ht : Tracks g table holds) {state : Nat} {i : Item}
    (hi : holds state i) (hhead : i.head = (wholeOf g).head) : i.IsOf (wholeOf g) := by
  obtain ⟨p, hp | rfl, hof⟩ := ht.item hi
  · exact absurd (hof.1.trans hhead) (ht.apart p hp)
  · exact hof

/-- The catalogue of a grammar. -/
def catalogueOf : Catalogue :=
  Catalogue.ofProductions g.terminals.length (g.nonterminals.length + g.repetitions.length)
    (g.coding.nonterminal g.start) g.productions

/-- The catalogue of a grammar is that of its productions and of the production for a whole text. -/
theorem isOf_catalogueOf : (catalogueOf g).IsOf (g.productions ++ [wholeOf g]) :=
  Catalogue.isOf_ofProductions

/-- The first state of the table of a grammar. -/
def firstKernel : Kernel :=
  [((catalogueOf g).start, TerminalSet.single (g.coding.terminal g.final))]

/-- The table of a grammar with all its states. -/
def buildOf (limit : Nat) : Build :=
  (Build.intern ⟨#[], ∅, #[]⟩ (firstKernel g)).2.grow (catalogueOf g) limit

/-- A state of the table of a grammar holds an item. -/
def Holds (limit state : Nat) (i : Item) : Prop :=
  ∃ kernel, (buildOf g limit).kernels[state]? = some kernel ∧
    (catalogueOf g).Among ((catalogueOf g).items kernel) i

/-- The table of a grammar fits, and its first state is the one for a whole text. -/
theorem fits_buildOf (limit : Nat) :
    (buildOf g limit).Fits (catalogueOf g) ∧ (buildOf g limit).kernels[0]? = some (firstKernel g) := by
  have hempty : Build.IsNumbered (catalogueOf g) ⟨#[], ∅, #[]⟩ := ⟨by simp, by simp⟩
  have hfirst : (catalogueOf g).Names (firstKernel g) := by
    obtain ⟨p, -, hp⟩ := (isOf_catalogueOf g).start
    intro k hk
    have hstart : k = (catalogueOf g).start := List.mem_singleton.1 hk
    exact ⟨_, hstart ▸ hp⟩
  obtain ⟨hnumbered, hgrows, -⟩ := Build.intern_spec hempty hfirst
  have hfits : (Build.intern ⟨#[], ∅, #[]⟩ (firstKernel g)).2.Fits (catalogueOf g) := by
    refine ⟨hnumbered, ?_⟩
    intro n row hrow
    rw [hgrows.rows] at hrow
    simp at hrow
  obtain ⟨hfits, hkeeps⟩ := hfits.grow (isOf_catalogueOf g) limit
  refine ⟨hfits, hkeeps ?_⟩
  simp [Build.intern]

/-- Nothing is passed of the items that the first state holds. -/
theorem passed_of_holds_zero {limit : Nat} {i : Item} (h : Holds g limit 0 i) : i.passed = [] := by
  obtain ⟨kernel, hkernel, hi⟩ := h
  cases (fits_buildOf g limit).2.symm.trans hkernel
  rcases (isOf_catalogueOf g).among_items hi with ⟨k, hk, hi⟩ | ⟨p, -, rfl⟩
  · obtain ⟨p, -, hp⟩ := (isOf_catalogueOf g).start
    rw [List.mem_singleton.1 hk] at hi
    cases hi.unique hp
    rfl
  · rfl

/-- A symbol leads to the state of the successors of the items that go on with it. -/
theorem leads_of_successors {limit state state' symbol : Nat} {kernel : Kernel}
    (hkernel : (buildOf g limit).kernels[state]? = some kernel)
    (hnext : (buildOf g limit).kernels[state']? =
      some (((catalogueOf g).successors ((catalogueOf g).items kernel)).getD symbol [])) :
    Leads g.terminals.length (Holds g limit) state symbol state' := by
  have hc := isOf_catalogueOf g
  have hnames := hc.names_items ((fits_buildOf g limit).1.names hkernel)
  intro i hi
  obtain ⟨_, hsuccessors, hi⟩ := hi
  cases hnext.symm.trans hsuccessors
  rcases hc.among_items hi with hi | ⟨p, -, rfl⟩
  · obtain ⟨j, s, hj, hnext, hplace⟩ := hc.among_successors hnames hi
    obtain ⟨step, rest, hrest, rfl, rfl⟩ := Item.next?_eq_some_iff.1 hnext
    rw [Catalogue.place_eq] at hplace
    exact .inr ⟨j, step, rest, ⟨kernel, hkernel, hj⟩, hrest, hplace, rfl⟩
  · exact .inl rfl

variable [Hashable T]

/-- The row of a state fits the items of the state. -/
theorem exists_row {limit state : Nat} {row : Row}
    (h : (ofDefinition g limit).rows[state]? = some row) :
    ∃ kernel, (buildOf g limit).kernels[state]? = some kernel ∧
      Build.RowFits (catalogueOf g) (buildOf g limit).kernels kernel row :=
  (fits_buildOf g limit).1.row h

/-- The moves in a state on a terminal are in the row of the state, which fits its items. -/
theorem moves_cases (limit state : Nat) (t : T) :
    (ofDefinition g limit).moves state t = {} ∨
      ∃ n kernel row, (ofDefinition g limit).numbers[t]? = some n ∧
        (buildOf g limit).kernels[state]? = some kernel ∧
        Build.RowFits (catalogueOf g) (buildOf g limit).kernels kernel row ∧
        (ofDefinition g limit).moves state t = row.moves.getD n {} := by
  rw [moves]
  cases hn : (ofDefinition g limit).numbers[t]? with
  | none => exact .inl rfl
  | some n =>
    simp only [Array.getD_eq_getD_getElem?]
    cases hrow : (ofDefinition g limit).rows[state]? with
    | none => exact .inl rfl
    | some row =>
      obtain ⟨kernel, hkernel, hfits⟩ := exists_row g hrow
      exact .inr ⟨n, kernel, row, rfl, hkernel, hfits, rfl⟩

/-- The table of a grammar tracks the productions of the grammar. -/
theorem tracks_ofDefinition [LawfulBEq T] [LawfulBEq N] (limit : Nat) :
    Tracks g (ofDefinition g limit) (Holds g limit) where
  number := getElem?_of_numbering
  size := size_numbering (nodup_eraseDups _)
  item := by
    intro state i hi
    obtain ⟨kernel, -, k, -, hi⟩ := hi
    obtain ⟨p, hp, hi⟩ := (isOf_catalogueOf g).item hi
    exact ⟨p, by simpa using hp, hi⟩
  apart p hp := Nat.ne_of_lt (g.head_lt_of_mem_productions hp)
  closes := by
    intro state t r hr
    rcases moves_cases g limit state t with heq | ⟨n, kernel, row, -, hkernel, hfits, heq⟩
    · rw [heq] at hr
      contradiction
    · rw [heq] at hr
      obtain ⟨i, hi, hnext, hhead, rfl⟩ := hfits.closes hr
      exact ⟨i, ⟨kernel, hkernel, hi⟩, Item.next?_eq_none_iff.1 hnext, hhead, rfl⟩
  accepts := by
    intro state t h
    rcases moves_cases g limit state t with heq | ⟨n, kernel, row, -, hkernel, hfits, heq⟩
    · rw [heq] at h
      contradiction
    · rw [heq] at h
      obtain ⟨i, hi, hnext, hhead⟩ := hfits.accepts h
      exact ⟨i, ⟨kernel, hkernel, hi⟩, Item.next?_eq_none_iff.1 hnext, hhead⟩
  shift := by
    intro state t state' h
    rcases moves_cases g limit state t with heq | ⟨n, kernel, row, hn, hkernel, hfits, heq⟩
    · rw [heq] at h
      contradiction
    · rw [heq] at h
      exact ⟨n, hn, leads_of_successors g hkernel (hfits.shift h)⟩
  goto state n := by
    have hzero : Leads g.terminals.length (Holds g limit) state (g.terminals.length + n) 0 :=
      fun i hi => .inl (passed_of_holds_zero g hi)
    have hget : (ofDefinition g limit).rows.getD state default =
        (ofDefinition g limit).rows[state]?.getD default := Array.getD_eq_getD_getElem?
    rw [goto, hget]
    cases hrow : (ofDefinition g limit).rows[state]? with
    | none => exact hzero
    | some row =>
      obtain ⟨kernel, hkernel, hfits⟩ := exists_row g hrow
      rcases hfits.goto n with heq | hnext
      · rw [Option.getD_some, heq]
        exact hzero
      · exact leads_of_successors g hkernel hnext

end Table

end BareCallGraph.Grammar
