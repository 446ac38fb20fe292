import BareCallGraph.Analysis.Analyzer
import Mathlib.Data.List.Forall2
import Mathlib.Data.List.Perm.Basic

/-!
# How runs of many tasks end

The outcome of a computation does not depend on what it tells on the way. Tasks that are run one after
the other yield what each of them yields, or end with the failure of the first one that fails. Tasks that
are run side by side yield the same in the same order, whenever each is done, and otherwise end with the
failure of one of them.
-/

namespace BareCallGraph

section Except

variable {α β ε : Type}

/-- A computation and what comes behind it succeed exactly if both do. -/
theorem bind_eq_ok_iff {x : Except ε α} {f : α → Except ε β} {r : β} :
    x >>= f = .ok r ↔ ∃ v, x = .ok v ∧ f v = .ok r := by
  cases x <;> simp [bind, Except.bind]

/-- The first of two computations that fails decides on the error. -/
theorem bind_eq_error_iff {x : Except ε α} {f : α → Except ε β} {e : ε} :
    x >>= f = .error e ↔ x = .error e ∨ ∃ v, x = .ok v ∧ f v = .error e := by
  cases x <;> simp [bind, Except.bind]

/-- A list of tasks succeeds with the list of what each of them yields. -/
theorem mapM_eq_ok_iff {f : α → Except ε β} {xs : List α} {ys : List β} :
    xs.mapM f = .ok ys ↔ List.Forall₂ (fun x y => f x = .ok y) xs ys := by
  induction xs generalizing ys with
  | nil =>
    rw [List.mapM_nil, List.forall₂_nil_left_iff]
    simp [pure, Except.pure, eq_comm]
  | cons x xs ih =>
    simp only [List.mapM_cons, bind_eq_ok_iff, ih, List.forall₂_cons_left_iff]
    constructor
    · intro h
      obtain ⟨v, hv, vs, hvs, h⟩ := h
      exact ⟨v, vs, hv, hvs, (Except.ok.inj h).symm⟩
    · intro h
      obtain ⟨v, vs, hv, hvs, rfl⟩ := h
      exact ⟨v, hv, vs, hvs, rfl⟩

/-- A list of tasks fails with the failure of the first one that fails. -/
theorem mapM_eq_error_iff {f : α → Except ε β} {xs : List α} {e : ε} :
    xs.mapM f = .error e ↔ ∃ before x after, xs = before ++ x :: after ∧
      (∀ y ∈ before, ∃ v, f y = .ok v) ∧ f x = .error e := by
  induction xs with
  | nil => simp [pure, Except.pure]
  | cons x xs ih =>
    have htail : ∀ vs : List β, ∀ v, ¬ (pure (v :: vs) : Except ε (List β)) = .error e := by
      intro vs v h
      cases h
    simp only [List.mapM_cons, bind_eq_error_iff, ih, htail, and_false, exists_false, or_false]
    constructor
    · intro h
      rcases h with hx | ⟨v, hv, before, y, after, rfl, hbefore, hy⟩
      · exact ⟨[], x, xs, rfl, by simp, hx⟩
      · refine ⟨x :: before, y, after, rfl, ?_, hy⟩
        intro z hz
        rcases List.mem_cons.1 hz with rfl | hz
        · exact ⟨v, hv⟩
        · exact hbefore z hz
    · intro h
      obtain ⟨before, y, after, hs, hbefore, hy⟩ := h
      cases before with
      | nil =>
        obtain ⟨rfl, rfl⟩ := List.cons.inj hs
        exact .inl hy
      | cons z before =>
        obtain ⟨rfl, rfl⟩ := List.cons.inj hs
        obtain ⟨v, hv⟩ := hbefore x List.mem_cons_self
        exact .inr ⟨v, hv, before, y, after, rfl,
          fun w hw => hbefore w (List.mem_cons_of_mem x hw), hy⟩

/-- If each of several things is related to something, they can be related in their order. -/
theorem exists_forall₂ {R : α → β → Prop} {xs : List α} (h : ∀ x ∈ xs, ∃ y, R x y) :
    ∃ ys, List.Forall₂ R xs ys := by
  induction xs with
  | nil => exact ⟨[], .nil⟩
  | cons x xs ih =>
    obtain ⟨y, hy⟩ := h x List.mem_cons_self
    obtain ⟨ys, hys⟩ := ih fun z hz => h z (List.mem_cons_of_mem x hz)
    exact ⟨y :: ys, .cons hy hys⟩

/-- Of two lists that are related in their order, each thing is related to one of the other list. -/
theorem exists_of_forall₂ {R : α → β → Prop} {xs : List α} {ys : List β}
    (h : List.Forall₂ R xs ys) : ∀ x ∈ xs, ∃ y ∈ ys, R x y := by
  induction h with
  | nil => simp
  | cons hxy _ ih =>
    intro z hz
    rcases List.mem_cons.1 hz with rfl | hz
    · exact ⟨_, List.mem_cons_self, hxy⟩
    · obtain ⟨y, hy, hzy⟩ := ih z hz
      exact ⟨y, List.mem_cons_of_mem _ hy, hzy⟩

end Except

namespace Traced

variable {α β : Type}

instance : LawfulMonad Traced := LawfulMonad.mk' _
  (fun x => by
    obtain ⟨events, outcome⟩ := x
    cases outcome <;> simp [Functor.map, andThen, value])
  (fun a f => by simp [pure, bind, andThen, value])
  (fun x f g => by
    obtain ⟨events, outcome⟩ := x
    cases outcome with
    | error e => rfl
    | ok a => cases h : (f a).outcome <;> simp [bind, andThen, h])

/-- What just returns a value succeeds with it. -/
@[simp]
theorem outcome_pure (a : α) : (pure a : Traced α).outcome = .ok a := rfl

/-- Telling events succeeds. -/
@[simp]
theorem outcome_tell (events : List Event) : (tell events).outcome = .ok () := rfl

/-- What is known already has that outcome. -/
@[simp]
theorem outcome_ofExcept (x : Except AnalysisError α) : (ofExcept x).outcome = x := rfl

/-- The outcome of two computations, one behind the other, is that of their outcomes. -/
@[simp]
theorem outcome_bind (x : Traced α) (f : α → Traced β) :
    (x >>= f).outcome = x.outcome >>= fun a => (f a).outcome := by
  obtain ⟨events, outcome⟩ := x
  cases outcome <;> rfl

/-- What follows a computation matters only at the value that the computation yields. -/
theorem bind_congr_of_outcome {x : Traced α} {f g : α → Traced β}
    (h : ∀ v, x.outcome = .ok v → f v = g v) : x >>= f = x >>= g := by
  obtain ⟨events, outcome⟩ := x
  cases outcome with
  | error e => rfl
  | ok v => simp only [bind, andThen, h v rfl]

/-- The outcome of several computations, one behind the other, is that of their outcomes. -/
@[simp]
theorem outcome_mapM (f : α → Traced β) (xs : List α) :
    (xs.mapM f).outcome = xs.mapM fun x => (f x).outcome := by
  induction xs with
  | nil => rfl
  | cons x xs ih =>
    simp only [List.mapM_cons, outcome_bind, outcome_pure, ih]
    rfl

end Traced

namespace Analyzer

variable {α : Type} {finishTime : Nat → Nat} {tasks : List (Traced α)}

/-- What is sorted by a key is in the order of the key. -/
theorem pairwise_mergeSort_key {β : Type} (key : β → Nat) (xs : List β) :
    (xs.mergeSort fun x y => key x ≤ key y).Pairwise fun x y => key x ≤ key y := by
  have h : (xs.mergeSort fun x y => key x ≤ key y).Pairwise
      fun x y => decide (key x ≤ key y) = true := by
    refine List.pairwise_mergeSort ?_ ?_ xs
    · intro x y z hxy hyz
      exact decide_eq_true (Nat.le_trans (of_decide_eq_true hxy) (of_decide_eq_true hyz))
    · intro x y
      simpa using Nat.le_total (key x) (key y)
  exact h.imp of_decide_eq_true

/-- Results that carry the places of their tasks are put back into the order of the tasks. -/
theorem sorted_by_place {results : List (α × Nat)} {values : List α}
    (h : results.Perm values.zipIdx) :
    (results.mergeSort fun x y => x.2 ≤ y.2).map Prod.fst = values := by
  have hplaces : values.zipIdx.Pairwise fun x y => x.2 ≤ y.2 := by
    have hlt : (values.zipIdx.map Prod.snd).Pairwise (· < ·) := by
      rw [List.zipIdx_map_snd]
      exact List.pairwise_lt_range'
    exact (List.pairwise_map.1 hlt).imp Nat.le_of_lt
  have hmerged := pairwise_mergeSort_key Prod.snd results
  have hperm := (List.mergeSort_perm results fun x y => x.2 ≤ y.2).trans h
  -- Two results of one place are the same result, since places come from one list of values.
  have hunique : ∀ x y, x ∈ values.zipIdx → y ∈ values.zipIdx → x.2 = y.2 → x = y := by
    intro x y hx hy hxy
    rw [List.mem_zipIdx_iff_getElem?] at hx hy
    rw [hxy, hy] at hx
    exact Prod.ext (Option.some.inj hx).symm hxy
  have hsorted : (results.mergeSort fun x y => x.2 ≤ y.2) = values.zipIdx := by
    refine hperm.eq_of_pairwise ?_ hmerged hplaces
    intro x y hx hy hxy hyx
    exact hunique x y (hperm.mem_iff.1 hx) hy (Nat.le_antisymm hxy hyx)
  rw [hsorted, List.zipIdx_map_fst]

/-- What a task at some place yields, together with the place. -/
def placed (p : Traced α × Nat) : Except AnalysisError (α × Nat) :=
  p.1.outcome >>= fun v => .ok (v, p.2)

/-- What is placed succeeds exactly as the task does, and at the same place. -/
theorem placed_eq_ok_iff {p : Traced α × Nat} {r : α × Nat} :
    placed p = .ok r ↔ p.1.outcome = .ok r.1 ∧ p.2 = r.2 := by
  rw [placed, bind_eq_ok_iff]
  constructor
  · intro h
    obtain ⟨v, hv, h⟩ := h
    cases h
    exact ⟨hv, rfl⟩
  · intro h
    obtain ⟨hv, hplace⟩ := h
    exact ⟨r.1, hv, by rw [hplace]⟩

/-- Side by side, tasks are taken in the order of their finishing times, and their results in that of
their places. -/
theorem outcome_sideBySide (finishTime : Nat → Nat) (tasks : List (Traced α)) :
    (sideBySide finishTime tasks).outcome =
      ((tasks.zipIdx.mergeSort fun x y => finishTime x.2 ≤ finishTime y.2).mapM placed) >>=
        fun results => .ok ((results.mergeSort fun x y => x.2 ≤ y.2).map Prod.fst) := by
  simp only [sideBySide, Traced.outcome_bind, Traced.outcome_mapM, Traced.outcome_pure]
  rfl

/-- Tasks that succeed also do so when they are placed. -/
theorem forall₂_placed {values : List α}
    (h : List.Forall₂ (fun task v => task.outcome = .ok v) tasks values) (start : Nat) :
    List.Forall₂ (fun p r => placed p = .ok r) (tasks.zipIdx start) (values.zipIdx start) := by
  induction h generalizing start with
  | nil => exact .nil
  | cons hv _ ih => exact .cons (placed_eq_ok_iff.2 ⟨hv, rfl⟩) (ih (start + 1))

/-- Tasks that all succeed yield their values in the order of the tasks, whenever each is done. -/
theorem sideBySide_of_forall₂ {values : List α} (finishTime : Nat → Nat)
    (h : List.Forall₂ (fun task v => task.outcome = .ok v) tasks values) :
    (sideBySide finishTime tasks).outcome = .ok values := by
  have horder := List.mergeSort_perm tasks.zipIdx fun x y => finishTime x.2 ≤ finishTime y.2
  obtain ⟨results, hresults, hperm⟩ := List.perm_comp_forall₂ horder (forall₂_placed h 0)
  rw [outcome_sideBySide, mapM_eq_ok_iff.2 hresults]
  show Except.ok _ = _
  rw [sorted_by_place hperm]

/-- Tasks side by side succeed exactly when each of them does. -/
theorem sideBySide_eq_ok_iff {values : List α} :
    (sideBySide finishTime tasks).outcome = .ok values ↔
      List.Forall₂ (fun task v => task.outcome = .ok v) tasks values := by
  constructor
  · intro h
    obtain ⟨results, hresults, -⟩ := bind_eq_ok_iff.1 (outcome_sideBySide finishTime tasks ▸ h)
    have hall : ∀ task ∈ tasks, ∃ v, task.outcome = .ok v := by
      intro task htask
      obtain ⟨i, hi⟩ := List.mem_iff_getElem?.1 htask
      have hmem : (task, i) ∈
          tasks.zipIdx.mergeSort fun x y => finishTime x.2 ≤ finishTime y.2 :=
        List.mem_mergeSort.2 (List.mk_mem_zipIdx_iff_getElem?.2 hi)
      obtain ⟨r, -, hr⟩ := exists_of_forall₂ (mapM_eq_ok_iff.1 hresults) _ hmem
      exact ⟨r.1, (placed_eq_ok_iff.1 hr).1⟩
    obtain ⟨others, hothers⟩ := exists_forall₂ hall
    have := h.symm.trans (sideBySide_of_forall₂ finishTime hothers)
    exact Except.ok.inj this ▸ hothers
  · exact sideBySide_of_forall₂ finishTime

/-- A run of tasks side by side fails with what some task fails with. -/
theorem exists_of_sideBySide_error {e : AnalysisError}
    (h : (sideBySide finishTime tasks).outcome = .error e) :
    ∃ task ∈ tasks, task.outcome = .error e := by
  rw [outcome_sideBySide, bind_eq_error_iff] at h
  rcases h with h | ⟨results, -, h⟩
  · obtain ⟨before, p, after, hs, -, hp⟩ := mapM_eq_error_iff.1 h
    have hmem : p ∈ tasks.zipIdx := by
      rw [← List.mem_mergeSort, hs]
      simp
    rcases bind_eq_error_iff.1 hp with hp | ⟨v, -, hp⟩
    · exact ⟨p.1, List.fst_mem_of_mem_zipIdx hmem, hp⟩
    · contradiction
  · contradiction

/-- Whichever task fails, it may be the first that is done. -/
theorem exists_sideBySide_error {task : Traced α} {e : AnalysisError} (htask : task ∈ tasks)
    (he : task.outcome = .error e) :
    ∃ finishTime, (sideBySide finishTime tasks).outcome = .error e := by
  obtain ⟨k, hk⟩ := List.mem_iff_getElem?.1 htask
  let finishTime (i : Nat) : Nat := if i = k then 0 else 1
  have hmem : (task, k) ∈ tasks.zipIdx.mergeSort fun x y => finishTime x.2 ≤ finishTime y.2 :=
    List.mem_mergeSort.2 (List.mk_mem_zipIdx_iff_getElem?.2 hk)
  obtain ⟨before, after, hsplit, hfirst⟩ := List.eq_append_cons_of_mem hmem
  have hbefore : before = [] := by
    refine List.eq_nil_iff_forall_not_mem.2 ?_
    intro p hp
    have hsorted := pairwise_mergeSort_key (fun p : Traced α × Nat => finishTime p.2) tasks.zipIdx
    rw [hsplit] at hsorted
    have hle : finishTime p.2 ≤ finishTime k :=
      (List.pairwise_append.1 hsorted).2.2 p hp (task, k) List.mem_cons_self
    have hplace : p.2 = k := by
      by_contra hne
      simp [finishTime, hne] at hle
    have hp' : p ∈ tasks.zipIdx := by
      rw [← List.mem_mergeSort, hsplit]
      exact List.mem_append_left _ hp
    rw [List.mem_zipIdx_iff_getElem?, hplace, hk] at hp'
    have heq : p = (task, k) := Prod.ext (Option.some.inj hp').symm hplace
    exact hfirst (heq ▸ hp)
  subst hbefore
  refine ⟨finishTime, ?_⟩
  rw [outcome_sideBySide, bind_eq_error_iff, mapM_eq_error_iff]
  refine .inl ⟨[], (task, k), after, hsplit, by simp, ?_⟩
  rw [placed, he]
  rfl

variable {a : Analyzer} {task : SourceFile → Traced α} {files : List SourceFile}

/-- Work on files succeeds exactly when it succeeds on each of them, and yields what it yields on them in
the order of the files. -/
theorem forEach_eq_ok_iff {values : List α} :
    (a.forEach finishTime task files).outcome = .ok values ↔
      List.Forall₂ (fun file v => (task file).outcome = .ok v) files values := by
  unfold forEach
  split
  · rw [sideBySide_eq_ok_iff, List.forall₂_map_left_iff]
  · rw [Traced.outcome_mapM, mapM_eq_ok_iff]

/-- Work on files fails with what it fails with on one of them. -/
theorem exists_of_forEach_error {e : AnalysisError}
    (h : (a.forEach finishTime task files).outcome = .error e) :
    ∃ file ∈ files, (task file).outcome = .error e := by
  unfold forEach at h
  split at h
  · obtain ⟨t, ht, he⟩ := exists_of_sideBySide_error h
    obtain ⟨file, hfile, rfl⟩ := List.mem_map.1 ht
    exact ⟨file, hfile, he⟩
  · rw [Traced.outcome_mapM] at h
    obtain ⟨before, file, after, rfl, -, he⟩ := mapM_eq_error_iff.1 h
    exact ⟨file, by simp, he⟩

/-- Work on files side by side may fail with what it fails with on any of them. -/
theorem exists_forEach_error (ha : a.configuration.parallel = true) {file : SourceFile}
    {e : AnalysisError} (hfile : file ∈ files) (he : (task file).outcome = .error e) :
    ∃ finishTime, (a.forEach finishTime task files).outcome = .error e := by
  simp only [forEach, ha, if_true]
  exact exists_sideBySide_error (List.mem_map_of_mem hfile) he

/-- Work on one file after the other fails with what it fails with on the first file that it fails
on. -/
theorem forEach_eq_error_iff (ha : a.configuration.parallel = false) {e : AnalysisError} :
    (a.forEach finishTime task files).outcome = .error e ↔
      ∃ before file after, files = before ++ file :: after ∧
        (∀ f ∈ before, ∃ v, (task f).outcome = .ok v) ∧ (task file).outcome = .error e := by
  rw [forEach, ha, if_neg Bool.false_ne_true, Traced.outcome_mapM, mapM_eq_error_iff]

end Analyzer

end BareCallGraph
