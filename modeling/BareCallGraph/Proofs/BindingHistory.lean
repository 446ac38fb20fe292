import BareCallGraph.Proofs.NameTables
import Mathlib.Data.List.Chain
import Mathlib.Data.List.Dedup
import Mathlib.Data.List.Induction

/-!
# What a run of bindings leaves in a table

A table that starts empty and binds names one after the other is known from the run alone. Of each name
only its own bindings matter, however those of other names come in between (`valuesOf`): the last of them
counts, and there is a record for every two neighbours that differ (`changes`), so a name that goes to
another function and comes back has two records. The records of all names together stand in the order of
the bindings that caused them (`causedAt`).
-/

namespace BareCallGraph.NameTable

/-- The qualified names that a run of bindings gives to a bare name, in order. -/
def valuesOf (bindings : List (String × String)) (b : String) : List String :=
  (bindings.filter (·.1 = b)).map Prod.snd

/-- The neighbours in a list that differ, from left to right. -/
def changes (values : List String) : List (String × String) :=
  (values.zip values.tail).filter fun p => p.1 ≠ p.2

/-- The records of a name, oldest first. -/
def takeoversOf (t : NameTable) (b : String) : List Takeover := t.takeovers.filter (·.bareName = b)

/-- The takeover that the binding at a place of a run causes: its name was bound before, and to something
else when it was bound last. -/
def causedAt (bindings : List (String × String)) (i : Nat) : Option Takeover :=
  bindings[i]?.bind fun p => (valuesOf (bindings.take i) p.1).getLast?.bind fun previous =>
    if previous = p.2 then none else some ⟨p.1, previous, p.2⟩

section Values

variable {bindings : List (String × String)} {b : String}

/-- One more binding gives one more value to its own name, and none to the others. -/
theorem valuesOf_concat (bindings : List (String × String)) (p : String × String) (b : String) :
    valuesOf (bindings ++ [p]) b =
      if p.1 = b then valuesOf bindings b ++ [p.2] else valuesOf bindings b := by
  rw [valuesOf, valuesOf, List.filter_append, List.map_append]
  split <;> simp_all

/-- A name has no values exactly if it is never bound. -/
theorem valuesOf_eq_nil_iff : valuesOf bindings b = [] ↔ b ∉ bindings.map Prod.fst := by
  rw [valuesOf, List.map_eq_nil_iff, List.filter_eq_nil_iff, List.mem_map]
  simp only [decide_eq_true_eq, not_exists, not_and]

end Values

section Changes

/-- One more value makes one more pair of neighbours, with the value that was the last. -/
theorem zip_tail_concat (values : List String) (q : String) :
    (values ++ [q]).zip (values ++ [q]).tail =
      values.zip values.tail ++ values.getLast?.toList.map (·, q) := by
  induction values with
  | nil => rfl
  | cons v values ih =>
    cases values with
    | nil => rfl
    | cons w values => simpa using ih

/-- One more value adds a change if it is not the value before. -/
theorem changes_concat (values : List String) (q : String) :
    changes (values ++ [q]) =
      changes values ++ (values.getLast?.toList.map (·, q)).filter fun p => p.1 ≠ p.2 := by
  rw [changes, zip_tail_concat, List.filter_append, changes]

/-- Each change starts from where the one before it led to, and the last one leads to the last value. -/
theorem changes_linked (values : List String) :
    (changes values).IsChain (fun p p' => p.2 = p'.1) ∧
      ∀ p ∈ (changes values).getLast?, values.getLast? = some p.2 := by
  induction values using List.reverseRecOn with
  | nil => simp [changes]
  | append_singleton values q ih =>
    rw [changes_concat, List.getLast?_concat]
    cases hlast : values.getLast? with
    | none =>
      rw [List.getLast?_eq_none_iff.1 hlast]
      simp [changes]
    | some v =>
      rw [hlast] at ih
      by_cases hv : v = q
      · subst hv
        simpa using ih
      · simp only [Option.toList_some, List.map_cons, List.map_nil, List.filter_cons, hv, ne_eq,
          not_false_eq_true, decide_true, if_true, List.filter_nil, List.getLast?_concat]
        refine ⟨List.isChain_append.2 ⟨ih.1, .singleton _, ?_⟩, by simp⟩
        intro p hp p' hp'
        obtain rfl : (v, q) = p' := by simpa using hp'
        exact (Option.some.inj (ih.2 p hp)).symm

end Changes

section Replay

variable (bindings : List (String × String)) (b : String)

/-- The last binding is inserted last. -/
theorem insertAll_concat (t : NameTable) (p : String × String) :
    t.insertAll (bindings ++ [p]) = (t.insertAll bindings).insert p.1 p.2 :=
  insertAll_append t bindings [p]

/-- A name stands for the last of its values. -/
theorem resolve?_eq_getLast? :
    (empty.insertAll bindings).resolve? b = (valuesOf bindings b).getLast? := by
  induction bindings using List.reverseRecOn with
  | nil => rfl
  | append_singleton bindings p ih =>
    rw [insertAll_concat, resolve?_insert, valuesOf_concat, ih]
    split
    · rw [List.getLast?_concat]
    · rfl

/-- What the next binding records follows from the values of its name. -/
theorem takeover?_eq (q : String) :
    (empty.insertAll bindings).takeover? b q = (valuesOf bindings b).getLast?.bind fun previous =>
      if previous = q then none else some ⟨b, previous, q⟩ := by
  rw [takeover?, resolve?_eq_getLast?]

/-- The records of a name are the changes of its values. -/
theorem takeoversOf_insertAll :
    (empty.insertAll bindings).takeoversOf b =
      (changes (valuesOf bindings b)).map fun p => ⟨b, p.1, p.2⟩ := by
  induction bindings using List.reverseRecOn with
  | nil => rfl
  | append_singleton bindings p ih =>
    rw [takeoversOf, insertAll_concat, takeovers_insert, List.filter_append, ← takeoversOf, ih,
      valuesOf_concat, takeover?_eq]
    split
    · next hb =>
      subst hb
      rw [changes_concat, List.map_append]
      congr 1
      cases (valuesOf bindings p.1).getLast? with
      | none => rfl
      | some previous => by_cases h : previous = p.2 <;> simp [h]
    · next hb =>
      -- the record of another name is no record of this one
      rw [List.append_right_eq_self, List.filter_eq_nil_iff]
      intro s hs
      obtain ⟨previous, -, hs⟩ := Option.bind_eq_some_iff.1 (Option.mem_toList.1 hs)
      split at hs
      · contradiction
      · cases hs
        simpa using hb

/-- Later bindings do not change what an earlier one has caused. -/
theorem causedAt_concat_of_lt (p : String × String) {i : Nat} (h : i < bindings.length) :
    causedAt (bindings ++ [p]) i = causedAt bindings i := by
  rw [causedAt, causedAt, List.getElem?_append_left h, List.take_append_of_le_length (Nat.le_of_lt h)]

/-- The last binding causes a takeover if its name was bound to something else before. -/
theorem causedAt_concat_length (p : String × String) :
    causedAt (bindings ++ [p]) bindings.length =
      (valuesOf bindings p.1).getLast?.bind fun previous =>
        if previous = p.2 then none else some ⟨p.1, previous, p.2⟩ := by
  rw [causedAt, List.getElem?_concat_length, List.take_left]
  rfl

/-- The records stand in the order of the bindings that caused them, and no binding causes two. -/
theorem takeovers_eq_filterMap_causedAt :
    (empty.insertAll bindings).takeovers = (List.range bindings.length).filterMap (causedAt bindings) := by
  induction bindings using List.reverseRecOn with
  | nil => rfl
  | append_singleton bindings p ih =>
    have hbefore : (List.range bindings.length).filterMap (causedAt (bindings ++ [p])) =
        (List.range bindings.length).filterMap (causedAt bindings) :=
      List.filterMap_congr fun i hi => causedAt_concat_of_lt bindings p (List.mem_range.1 hi)
    have hlast : [bindings.length].filterMap (causedAt (bindings ++ [p])) =
        ((empty.insertAll bindings).takeover? p.1 p.2).toList := by
      rw [List.filterMap_cons, causedAt_concat_length, ← takeover?_eq]
      cases (empty.insertAll bindings).takeover? p.1 p.2 <;> rfl
    rw [insertAll_concat, takeovers_insert, ih, List.length_append, List.length_singleton,
      List.range_succ, List.filterMap_append, hbefore, hlast]

/-- The names that a table binds are those of the run, each once. -/
theorem keys_perm_dedup :
    (empty.insertAll bindings).entries.keys.Perm (bindings.map Prod.fst).dedup := by
  refine (List.perm_ext_iff_of_nodup Std.TreeMap.nodup_keys (List.nodup_dedup _)).2 ?_
  intro b
  have hbound : b ∈ (empty.insertAll bindings).entries ↔
      ((empty.insertAll bindings).resolve? b).isSome := by
    rw [resolve?, Std.TreeMap.isSome_getElem?_iff_mem]
  rw [Std.TreeMap.mem_keys, hbound, resolve?_eq_getLast?, List.getLast?_isSome, ne_eq,
    valuesOf_eq_nil_iff, not_not, List.mem_dedup]

/-- A table has as many entries as different names were bound. -/
theorem size_eq_length_dedup :
    (empty.insertAll bindings).size = (bindings.map Prod.fst).dedup.length := by
  rw [size, ← Std.TreeMap.length_keys, (keys_perm_dedup bindings).length_eq]

/-- A table lists for each of its names what the name stands for. -/
theorem qualifiedNames_perm_keys (t : NameTable) :
    (t.qualifiedNames.map some).Perm (t.entries.keys.map t.resolve?) := by
  have hvalues : t.entries.values.map some = t.entries.keys.map t.resolve? := by
    rw [values_entries, ← Std.TreeMap.map_fst_toList_eq_keys, List.map_map, List.map_map]
    refine List.map_congr_left ?_
    intro x hx
    exact (Std.TreeMap.mem_toList_iff_getElem?_eq_some.1 hx).symm
  rw [← hvalues]
  exact (List.mergeSort_perm _ _).map some

end Replay

/-- A table that starts empty and binds names one after the other. A name stands for the last value that
it was bound to. Its records are the changes between one value and the next, in order, so each of them
starts from where the one before it led to, and the last one leads to what the name stands for. All
records together stand in the order of the bindings that caused them. The size is the number of different
names, and the table lists one value for each of them, the present one. -/
theorem binding_history (bindings : List (String × String)) :
    (∀ b, (empty.insertAll bindings).resolve? b = (valuesOf bindings b).getLast?) ∧
    (∀ b, (empty.insertAll bindings).takeoversOf b =
      (changes (valuesOf bindings b)).map fun p => ⟨b, p.1, p.2⟩) ∧
    (∀ b, ((empty.insertAll bindings).takeoversOf b).IsChain (fun s s' => s.winner = s'.replaced) ∧
      ∀ s ∈ ((empty.insertAll bindings).takeoversOf b).getLast?,
        (empty.insertAll bindings).resolve? b = some s.winner) ∧
    (empty.insertAll bindings).takeovers =
      (List.range bindings.length).filterMap (causedAt bindings) ∧
    (empty.insertAll bindings).size = (bindings.map Prod.fst).dedup.length ∧
    ((empty.insertAll bindings).qualifiedNames.map some).Perm
      ((bindings.map Prod.fst).dedup.map (empty.insertAll bindings).resolve?) := by
  refine ⟨resolve?_eq_getLast? bindings, takeoversOf_insertAll bindings, ?_,
    takeovers_eq_filterMap_causedAt bindings, size_eq_length_dedup bindings, ?_⟩
  · intro b
    obtain ⟨hchain, hlast⟩ := changes_linked (valuesOf bindings b)
    rw [takeoversOf_insertAll, List.isChain_map, List.getLast?_map, resolve?_eq_getLast?]
    refine ⟨hchain, ?_⟩
    intro s hs
    obtain ⟨p, hp, rfl⟩ := Option.map_eq_some_iff.1 hs
    exact hlast p hp
  · exact (qualifiedNames_perm_keys _).trans ((keys_perm_dedup bindings).map _)

/-- The name `f` goes to another function and comes back. It is bound to the other function twice, and
the name `g` is bound in between. -/
def roundTrip : List (String × String) :=
  [("f", "a.f"), ("g", "a.g"), ("f", "b.f"), ("f", "b.f"), ("f", "a.f")]

/-- In the sample the way there and the way back are recorded, and nothing else is. -/
theorem roundTrip_history :
    (empty.insertAll roundTrip).takeoversOf "f" = [⟨"f", "a.f", "b.f"⟩, ⟨"f", "b.f", "a.f"⟩] ∧
      ⟨"f", "b.f", "a.f"⟩ ∈ ((empty.insertAll roundTrip).takeoversOf "f").getLast? ∧
      (empty.insertAll roundTrip).resolve? "f" = some "a.f" ∧
      (empty.insertAll roundTrip).takeovers.length = 2 ∧ (empty.insertAll roundTrip).size = 2 := by
  obtain ⟨-, hrecords, hlinked, htakeovers, hsize, -⟩ := binding_history roundTrip
  have hf : (empty.insertAll roundTrip).takeoversOf "f" =
      [⟨"f", "a.f", "b.f"⟩, ⟨"f", "b.f", "a.f"⟩] := by
    rw [hrecords]
    decide +kernel
  have hlast : ⟨"f", "b.f", "a.f"⟩ ∈ ((empty.insertAll roundTrip).takeoversOf "f").getLast? := by
    rw [hf]
    rfl
  refine ⟨hf, hlast, (hlinked "f").2 _ hlast, ?_, ?_⟩
  · rw [htakeovers]
    decide +kernel
  · rw [hsize]
    decide +kernel

end BareCallGraph.NameTable
