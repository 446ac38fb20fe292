import BareCallGraph.NameTable

/-!
# What a name table remembers

The last binding of a name is the one that counts, and no qualified name is ever forgotten: a name that
was bound is still the binding of some bare name, or the table has a record of its replacement.
-/

namespace BareCallGraph.NameTable

theorem insertAll_cons (t : NameTable) (p : String × String) (ps : List (String × String)) :
    t.insertAll (p :: ps) = (t.insert p.1 p.2).insertAll ps := rfl

/-- Bindings in two lists are inserted list by list. -/
theorem insertAll_append (t : NameTable) (ps qs : List (String × String)) :
    t.insertAll (ps ++ qs) = (t.insertAll ps).insertAll qs := List.foldl_append

/-- After a run of bindings a name stands for the last of them that binds it, and for what it stood for
before if none does. -/
theorem resolve?_insertAll {t : NameTable} {bindings : List (String × String)} {b q : String} :
    (t.insertAll bindings).resolve? b = some q ↔
      (∃ before after, bindings = before ++ (b, q) :: after ∧ ∀ p ∈ after, p.1 ≠ b) ∨
      t.resolve? b = some q ∧ ∀ p ∈ bindings, p.1 ≠ b := by
  induction bindings generalizing t with
  | nil => simp [insertAll]
  | cons p ps ih =>
    rw [insertAll_cons, ih, resolve?_insert]
    constructor
    · intro h
      rcases h with ⟨before, after, rfl, hafter⟩ | ⟨hr, hps⟩
      · exact .inl ⟨p :: before, after, rfl, hafter⟩
      · split at hr
        · next hb =>
          refine .inl ⟨[], ps, ?_, hps⟩
          rw [← hb, ← Option.some.inj hr, List.nil_append]
        · next hb =>
          refine .inr ⟨hr, ?_⟩
          intro p' hp'
          rcases List.mem_cons.1 hp' with rfl | hp'
          · exact hb
          · exact hps p' hp'
    · intro h
      rcases h with ⟨before, after, hs, hafter⟩ | ⟨hr, hps⟩
      · cases before with
        | nil =>
          obtain ⟨rfl, rfl⟩ := List.cons.inj hs
          exact .inr ⟨by simp, hafter⟩
        | cons p' before =>
          obtain ⟨rfl, rfl⟩ := List.cons.inj hs
          exact .inl ⟨before, after, rfl, hafter⟩
      · have hp : p.1 ≠ b := hps p List.mem_cons_self
        exact .inr ⟨by rw [if_neg hp, hr], fun p' hp' => hps p' (List.mem_cons_of_mem p hp')⟩

/-- A run of bindings decides about the names that it binds, and leaves the others as they were. -/
theorem resolve?_insertAll_or (t : NameTable) (bindings : List (String × String)) (b : String) :
    (t.insertAll bindings).resolve? b =
      ((empty.insertAll bindings).resolve? b).or (t.resolve? b) := by
  induction bindings generalizing t with
  | nil => simp [insertAll]
  | cons p ps ih =>
    have hfirst : (t.insert p.1 p.2).resolve? b =
        ((empty.insert p.1 p.2).resolve? b).or (t.resolve? b) := by
      rw [resolve?_insert, resolve?_insert]
      split <;> simp
    rw [insertAll_cons, insertAll_cons, ih, ih (empty.insert p.1 p.2), hfirst, Option.or_assoc]

/-- The values of a table are those of its pairs. -/
theorem values_entries (t : NameTable) : t.entries.values = t.entries.toList.map Prod.snd := by
  have hfold : t.entries.values = t.entries.foldr (fun _ v vs => v :: vs) [] := rfl
  rw [hfold, Std.TreeMap.foldr_eq_foldr_toList]
  simp

/-- A table lists the qualified names that its bare names stand for. -/
theorem mem_qualifiedNames {t : NameTable} {q : String} :
    q ∈ t.qualifiedNames ↔ ∃ b, t.resolve? b = some q := by
  rw [qualifiedNames, List.mem_mergeSort, values_entries, List.mem_map]
  constructor
  · intro h
    obtain ⟨⟨b, q⟩, hmem, rfl⟩ := h
    exact ⟨b, Std.TreeMap.mem_toList_iff_getElem?_eq_some.1 hmem⟩
  · intro h
    obtain ⟨b, hb⟩ := h
    exact ⟨(b, q), Std.TreeMap.mem_toList_iff_getElem?_eq_some.2 hb, rfl⟩

/-- A table lists one qualified name for each bare name. -/
theorem length_qualifiedNames (t : NameTable) : t.qualifiedNames.length = t.size := by
  rw [qualifiedNames, List.length_mergeSort, values_entries, List.length_map,
    Std.TreeMap.length_toList, size]

/-- If no two bare names stand for the same, a table lists nothing twice. -/
theorem nodup_qualifiedNames {t : NameTable}
    (h : ∀ b c q, t.resolve? b = some q → t.resolve? c = some q → b = c) : t.qualifiedNames.Nodup := by
  have hvalues : (t.entries.toList.map Prod.snd).Nodup := by
    refine List.pairwise_map.2 (t.entries.distinct_keys_toList.imp_of_mem ?_)
    intro x y hx hy hne heq
    have hb : t.resolve? x.1 = some x.2 := Std.TreeMap.mem_toList_iff_getElem?_eq_some.1 hx
    have hc : t.resolve? y.1 = some y.2 := Std.TreeMap.mem_toList_iff_getElem?_eq_some.1 hy
    rw [h x.1 y.1 y.2 (heq ▸ hb) hc] at hne
    exact hne Std.ReflCmp.compare_self
  rw [qualifiedNames, values_entries]
  exact (List.mergeSort_perm _ _).nodup_iff.2 hvalues

/-- A table accounts for a qualified name: a bare name stands for it, or its replacement is recorded. -/
def AccountsFor (t : NameTable) (q : String) : Prop :=
  (∃ b, t.resolve? b = some q) ∨ ∃ s ∈ t.takeovers, s.replaced = q

/-- The empty table accounts for nothing. -/
theorem not_accountsFor_empty (q : String) : ¬ empty.AccountsFor q := by
  simp [AccountsFor]

/-- A name that stands for something else when it is bound anew leaves a record of it. -/
theorem mem_takeovers_insert {t : NameTable} {b q previous : String}
    (h : t.resolve? b = some previous) (hne : previous ≠ q) :
    ⟨b, previous, q⟩ ∈ (t.insert b q).takeovers := by
  rw [takeovers_insert, List.mem_append]
  right
  simp [takeover?, h, hne]

/-- Binding a name adds its qualified name to what a table accounts for, and takes nothing away. -/
theorem accountsFor_insert {t : NameTable} {b q r : String} :
    (t.insert b q).AccountsFor r ↔ r = q ∨ t.AccountsFor r := by
  constructor
  · intro h
    rcases h with ⟨a, ha⟩ | ⟨s, hs, rfl⟩
    · rw [resolve?_insert] at ha
      split at ha
      · exact .inl (Option.some.inj ha).symm
      · exact .inr (.inl ⟨a, ha⟩)
    · rw [takeovers_insert, List.mem_append, Option.mem_toList] at hs
      rcases hs with hs | hs
      · exact .inr (.inr ⟨s, hs, rfl⟩)
      · obtain ⟨previous, hprevious, hs⟩ := Option.bind_eq_some_iff.1 hs
        split at hs
        · contradiction
        · cases hs
          exact .inr (.inl ⟨b, hprevious⟩)
  · intro h
    rcases h with rfl | ⟨a, ha⟩ | ⟨s, hs, rfl⟩
    · exact .inl ⟨b, by simp [resolve?_insert]⟩
    · by_cases hab : b = a
      · subst hab
        by_cases hrq : r = q
        · exact .inl ⟨b, by simp [resolve?_insert, hrq]⟩
        · exact .inr ⟨_, mem_takeovers_insert ha hrq, rfl⟩
      · exact .inl ⟨a, by rw [resolve?_insert, if_neg hab, ha]⟩
    · refine .inr ⟨s, ?_, rfl⟩
      rw [takeovers_insert]
      exact List.mem_append_left _ hs

/-- After a run of bindings a table accounts for what it accounted for before and for every name that
the run bound, also for one that was replaced and has won again. -/
theorem accountsFor_insertAll {t : NameTable} {bindings : List (String × String)} {r : String} :
    (t.insertAll bindings).AccountsFor r ↔ (∃ p ∈ bindings, p.2 = r) ∨ t.AccountsFor r := by
  induction bindings generalizing t with
  | nil => simp [insertAll]
  | cons p ps ih =>
    rw [insertAll_cons, ih, accountsFor_insert]
    simp only [List.mem_cons, or_and_right, exists_or, exists_eq_left]
    grind

/-- A bare name went from one function to another at some time, and the table has a record of it. -/
def IsTakenOver (t : NameTable) (b : String) : Prop := ∃ s ∈ t.takeovers, s.bareName = b

/-- A run of bindings keeps the records that there are. -/
theorem mem_takeovers_insertAll {t : NameTable} {bindings : List (String × String)} {s : Takeover}
    (h : s ∈ t.takeovers) : s ∈ (t.insertAll bindings).takeovers := by
  induction bindings generalizing t with
  | nil => exact h
  | cons p ps ih =>
    refine ih ?_
    rw [takeovers_insert]
    exact List.mem_append_left _ h

/-- A name without a record stands for whatever it stood for and was bound to at any time. So a pattern
such as first one function, then another, then the first again never goes without a record. -/
theorem resolve?_insertAll_of_not_isTakenOver {t : NameTable} {bindings : List (String × String)}
    {b q : String} (h : ¬ (t.insertAll bindings).IsTakenOver b)
    (hq : t.resolve? b = some q ∨ (b, q) ∈ bindings) :
    (t.insertAll bindings).resolve? b = some q := by
  induction bindings generalizing t with
  | nil => exact hq.resolve_right List.not_mem_nil
  | cons p ps ih =>
    rw [insertAll_cons] at h
    refine ih h ?_
    rw [resolve?_insert]
    rcases hq with hq | hq
    · left
      split
      · next hb =>
        by_cases hsame : q = p.2
        · rw [hsame]
        · -- the first binding of the run replaces another one, and its record stays
          have hrecord : ⟨b, q, p.2⟩ ∈ (t.insert p.1 p.2).takeovers :=
            hb ▸ mem_takeovers_insert (hb ▸ hq) hsame
          exact absurd ⟨⟨b, q, p.2⟩, mem_takeovers_insertAll hrecord, rfl⟩ h
      · exact hq
    · rcases List.mem_cons.1 hq with rfl | hq
      · exact .inl (if_pos rfl)
      · exact .inr hq

end BareCallGraph.NameTable
