import BareCallGraph.Proofs.DiscoveredFiles
import Mathlib.Data.List.Sort
import Mathlib.Data.Set.Finite.Lattice

/-!
# Walks that follow links

A walk goes into a linked directory only if it is not open. So the directories that a walk has come
into through links differ from each other, and between two of them it goes down real directories: the
open directories are at most as many as the square of the number of all directories. With that a walk
comes to finitely many entries, also where links lead in circles or above the root.

What is found without following links is found with it too, in the same order.
-/

namespace BareCallGraph

/-- The entry is a link that leads to a directory. -/
def Encounter.IsDirectoryLink (t : FileTree) (v : Encounter) : Prop :=
  ∃ n target location es, v.entry = .link n target ∧
    t.resolve (v.here.path.child n).toPath = .ok (.directory location es)

/-- Of two sorted lists of paths, the one that has all members of the other is an extension of it. -/
theorem TreePath.sublist_of_sorted {paths more : List TreePath}
    (hpaths : paths.Pairwise fun p q => compare p.below q.below = .lt)
    (hmore : more.Pairwise fun p q => compare p.below q.below = .lt) (h : paths ⊆ more) :
    paths.Sublist more := by
  have hantisymm : Std.Antisymm fun p q : TreePath => compare p.below q.below = .lt := by
    constructor
    intro p q hpq hqp
    rw [Std.OrientedCmp.gt_of_lt hpq] at hqp
    contradiction
  have hsubperm := List.subperm_of_subset (nodup_of_sorted hpaths) h
  exact List.sublist_of_subperm_of_pairwise hsubperm hpaths hmore

namespace Walk

variable {w : Walk} {root : String} {v : Encounter}

/-! ## How deep a walk goes -/

/-- The locations at which a walk came into the open directories from elsewhere: that of the root, and
those that links led to. -/
structure Entrances (w : Walk) (v : Encounter) (entrances : List Location) : Prop where
  /-- They are locations of the tree. -/
  real : ∀ location ∈ entrances, location ∈ w.tree.locations
  /-- They are open. -/
  isOpen : ∀ location ∈ entrances, ∃ d ∈ v.here :: v.above, d.location = location
  /-- No two of them are the same. -/
  nodup : entrances.Nodup
  /-- From each of them on the walk went down less far than there are directories. -/
  depth : (v.here :: v.above).length + w.tree.locations.length ≤
    entrances.length * w.tree.locations.length + v.here.location.length + 1

/-- Every entry that a walk comes to has been reached through entrances. -/
theorem Meets.exists_entrances (h : w.Meets root v) :
    ∃ entrances, w.Entrances v entrances := by
  induction h using Meets.induct with
  | @first location es e hroot he =>
    have hreal := FileTree.mem_locations (FileTree.entriesAt_of_resolve hroot)
    refine ⟨[location], by simpa using hreal, by simp, by simp, ?_⟩
    simp only [List.length_singleton]
    omega
  | @next v d es e hv henters he ih =>
    obtain ⟨entrances, hentrances⟩ := ih
    obtain ⟨outer, houter, -⟩ := hv.leads
    have hdepth := hentrances.depth
    have hhere := FileTree.length_lt_of_entriesAt (FileTree.entriesAt_of_resolve houter)
    have hopen : ∀ location ∈ entrances, ∃ d' ∈ d :: v.here :: v.above, d'.location = location := by
      intro location hlocation
      obtain ⟨d', hd', heq⟩ := hentrances.isOpen location hlocation
      exact ⟨d', .tail _ hd', heq⟩
    cases henters with
    | directory included =>
      refine ⟨entrances, hentrances.real, hopen, hentrances.nodup, ?_⟩
      simp only [List.length_cons, List.length_append, List.length_nil] at hdepth ⊢
      omega
    | @link here above n target location es follows leads fresh included =>
      have hreal := FileTree.mem_locations (FileTree.entriesAt_of_resolve leads)
      refine ⟨location :: entrances, ?_, ?_, ?_, ?_⟩
      · simpa using ⟨hreal, hentrances.real⟩
      · intro location' hlocation'
        rcases List.mem_cons.1 hlocation' with rfl | hlocation'
        · exact ⟨_, .head _, rfl⟩
        · exact hopen location' hlocation'
      · refine List.nodup_cons.2 ⟨?_, hentrances.nodup⟩
        intro hmem
        obtain ⟨d, hd, heq⟩ := hentrances.isOpen location hmem
        exact fresh d hd heq
      · simp only [List.length_cons, Nat.succ_mul] at hdepth hhere ⊢
        omega

/-- The open directories are at most as many as the square of the number of all directories. -/
theorem Meets.length_le (h : w.Meets root v) :
    (v.here :: v.above).length ≤ w.tree.locations.length ^ 2 := by
  obtain ⟨entrances, hentrances⟩ := h.exists_entrances
  obtain ⟨es, hes, -⟩ := h.leads
  have hhere := FileTree.length_lt_of_entriesAt (FileTree.entriesAt_of_resolve hes)
  have hcount : entrances.length ≤ w.tree.locations.length :=
    (List.subperm_of_subset hentrances.nodup hentrances.real).length_le
  calc (v.here :: v.above).length
      ≤ entrances.length * w.tree.locations.length := by
        have := hentrances.depth
        omega
    _ ≤ w.tree.locations.length * w.tree.locations.length := Nat.mul_le_mul_right _ hcount
    _ = w.tree.locations.length ^ 2 := (Nat.pow_two _).symm

/-- From an entry a walk comes to finitely many entries in one step. -/
theorem finite_next (w : Walk) (v : Encounter) : {v' | w.Next v v'}.Finite := by
  by_cases h : ∃ d es, v.Enters w d es
  · obtain ⟨d, es, henters⟩ := h
    refine (es.map fun e => Encounter.mk d (v.here :: v.above) e).finite_toSet.subset ?_
    rintro v' ⟨d', es', henters', e, he, rfl⟩
    obtain ⟨rfl, rfl⟩ := henters.unique henters'
    exact List.mem_map.2 ⟨e, he, rfl⟩
  · refine Set.finite_empty.subset ?_
    rintro v' ⟨d, es, henters, -⟩
    exact h ⟨d, es, henters⟩

/-- The root of a walk holds finitely many entries. -/
theorem finite_first (w : Walk) (root : String) : {v | w.Meets root v ∧ v.above = []}.Finite := by
  by_cases h : ∃ location es,
      w.tree.resolve (TreePath.mk root []).toPath = .ok (.directory location es)
  · obtain ⟨location, es, hroot⟩ := h
    refine (es.map fun e => Encounter.mk ⟨⟨root, []⟩, location⟩ [] e).finite_toSet.subset ?_
    rintro v ⟨hv, habove⟩
    cases hv using Meets.induct with
    | first hroot' he =>
      rw [hroot] at hroot'
      cases hroot'
      exact List.mem_map.2 ⟨_, he, rfl⟩
    | next => contradiction
  · refine Set.finite_empty.subset ?_
    rintro v ⟨⟨location, es, hroot, -⟩, -⟩
    exact h ⟨location, es, hroot⟩

/-- A walk comes to finitely many entries. -/
theorem finite_meets (root : String) :
    {v | w.Meets root v}.Finite := by
  -- by induction on the depth, the entries of directories down to some depth are finitely many
  have hbounded (n : Nat) : {v | w.Meets root v ∧ v.above.length ≤ n}.Finite := by
    induction n with
    | zero =>
      refine (w.finite_first root).subset ?_
      rintro v ⟨hv, hlength⟩
      exact ⟨hv, List.length_eq_zero_iff.1 (Nat.le_zero.1 hlength)⟩
    | succ n ih =>
      refine ((w.finite_first root).union (ih.biUnion fun v _ => w.finite_next v)).subset ?_
      rintro v' ⟨hv', hlength⟩
      cases hv' using Meets.induct with
      | first hroot he => exact .inl ⟨meets_first hroot he, rfl⟩
      | next hv henters he =>
        refine .inr (Set.mem_biUnion ⟨hv, ?_⟩ ⟨_, _, henters, _, he, rfl⟩)
        exact Nat.le_of_succ_le_succ hlength
  refine (hbounded (w.tree.locations.length ^ 2)).subset ?_
  intro v hv
  have := hv.length_le
  rw [List.length_cons] at this
  exact ⟨hv, by omega⟩

/-! ## With and without following links -/

section Unfollowed

variable {t : FileTree} {follow : Bool} {excludes : FileName → Bool} {paths fewer : List TreePath}

/-- What a walk comes to without following links, it comes to in any case. -/
theorem Meets.of_unfollowed (h : Meets ⟨t, false, excludes⟩ root v) :
    Meets ⟨t, follow, excludes⟩ root v := by
  induction h using Meets.induct with
  | first hroot he => exact meets_first hroot he
  | next hv henters he ih =>
    cases henters with
    | directory included => exact ih.next (.directory included) he
    | link follows => contradiction

/-- Where no link leads to a directory there is nothing to follow. -/
theorem Meets.unfollowed
    (hlinks : ∀ v, Meets ⟨t, false, excludes⟩ root v → ¬ v.IsDirectoryLink t)
    (h : Meets ⟨t, follow, excludes⟩ root v) : Meets ⟨t, false, excludes⟩ root v := by
  induction h using Meets.induct with
  | first hroot he => exact meets_first hroot he
  | next hv henters he ih =>
    cases henters with
    | directory included => exact ih.next (.directory included) he
    | link follows leads => exact absurd ⟨_, _, _, _, rfl, leads⟩ (hlinks _ ih)

/-- A walk that succeeds lists what it lists without following links, among others. -/
theorem filesFrom_unfollowed (h : filesFrom ⟨t, follow, excludes⟩ root = .ok paths) :
    ∃ fewer, filesFrom ⟨t, false, excludes⟩ root = .ok fewer ∧ fewer.Sublist paths ∧
      ((∀ v, Meets ⟨t, false, excludes⟩ root v → ¬ v.IsDirectoryLink t) → fewer = paths) := by
  cases hroot : t.resolve (TreePath.mk root []).toPath with
  | error cause =>
    simp only [filesFrom, hroot] at h
    contradiction
  | ok target =>
    cases target with
    | file content =>
      simp only [filesFrom, hroot] at h ⊢
      exact ⟨_, h, .refl _, fun _ => rfl⟩
    | directory location es =>
      obtain ⟨fewer, hfewer⟩ := (filesFrom_ok_iff (w := ⟨t, false, excludes⟩) hroot).2
        fun v _ err => not_stops_of_unfollowed rfl
      have hsorted : paths.Pairwise fun p q => compare p.below q.below = .lt :=
        filesFrom_sorted (w := ⟨t, follow, excludes⟩) h
      have hsorted' : fewer.Pairwise fun p q => compare p.below q.below = .lt :=
        filesFrom_sorted (w := ⟨t, false, excludes⟩) hfewer
      have hmem := mem_filesFrom_iff (w := ⟨t, follow, excludes⟩) hroot h
      have hmem' := mem_filesFrom_iff (w := ⟨t, false, excludes⟩) hroot hfewer
      have hsubset : fewer ⊆ paths := by
        intro p hp
        obtain ⟨v, hv, hpath, hfile⟩ := (hmem' p).1 hp
        exact (hmem p).2 ⟨v, hv.of_unfollowed, hpath, hfile⟩
      have hsublist := TreePath.sublist_of_sorted hsorted' hsorted hsubset
      refine ⟨fewer, hfewer, hsublist, ?_⟩
      intro hlinks
      have hsubset' : paths ⊆ fewer := by
        intro p hp
        obtain ⟨v, hv, hpath, hfile⟩ := (hmem p).1 hp
        exact (hmem' p).2 ⟨v, hv.unfollowed hlinks, hpath, hfile⟩
      exact hsublist.antisymm (TreePath.sublist_of_sorted hsorted hsorted' hsubset')

end Unfollowed

end Walk

variable {c : Configuration} {t : FileTree} {root : String}

/-- Discovery succeeds if the root leads somewhere and nothing ends the walk. -/
theorem exists_discover_iff :
    (∃ files, discover c t root = .ok files) ↔
      (∃ target, t.resolve (Path.ofString root) = .ok target) ∧
        ∀ v err, (c.walk t).Meets root v → ¬ v.Stops (c.walk t) err := by
  have hfilesFrom : (∃ files, discover c t root = .ok files) ↔
      ∃ paths, (c.walk t).filesFrom root = .ok paths := by
    simp only [discover_eq_ok_iff]
    constructor
    · rintro ⟨files, paths, hpaths, -⟩
      exact ⟨paths, hpaths⟩
    · rintro ⟨paths, hpaths⟩
      exact ⟨_, paths, hpaths, rfl⟩
  rw [hfilesFrom, ← TreePath.toPath_root]
  cases hroot : t.resolve (TreePath.mk root []).toPath with
  | error cause => simp [Walk.filesFrom, Configuration.walk, hroot]
  | ok target =>
    cases target with
    | file content =>
      simp [Walk.filesFrom, Walk.Meets, Configuration.walk, hroot]
    | directory location es =>
      rw [Walk.filesFrom_ok_iff (w := c.walk t) hroot]
      constructor
      · intro h
        exact ⟨⟨_, rfl⟩, fun v err hv => h v hv err⟩
      · intro h v hv err
        exact h.2 v err hv

/-- If discovery fails, the root leads nowhere or the first entry that ends the walk is to blame. -/
theorem discover_eq_error {err : WalkError} (h : discover c t root = .error err) :
    (∃ cause, t.resolve (Path.ofString root) = .error cause ∧ err = .unreachable ⟨root, []⟩ cause) ∨
      ∃ v, (c.walk t).Meets root v ∧ v.Stops (c.walk t) err ∧
        ∀ v' err', (c.walk t).Meets root v' → v'.Stops (c.walk t) err' →
          (compare v.path.below v'.path.below).isLE = true := by
  have hwalk := discover_eq_error_iff.1 h
  rw [← TreePath.toPath_root]
  cases hroot : t.resolve (TreePath.mk root []).toPath with
  | error cause =>
    simp only [Walk.filesFrom, Configuration.walk, hroot] at hwalk
    exact .inl ⟨cause, rfl, (Except.error.inj hwalk).symm⟩
  | ok target =>
    cases target with
    | file content =>
      simp only [Walk.filesFrom, Configuration.walk, hroot] at hwalk
      contradiction
    | directory location es => exact .inr (Walk.filesFrom_error (w := c.walk t) hroot hwalk)

namespace CircularTree

/-! ## A tree with a circle

The directory `repo` has a file and a link that leads back to the directory. -/

/-- The link back. -/
def self : Entry := .link (.ofString "self") ⟨false, [.here]⟩

/-- What is in the directory `repo`. -/
def entries : List Entry := [self, .file (.ofString "a.py") .empty]

/-- No name in the sample occurs twice. -/
theorem distinct_entries :
    Entry.haveDistinctNames [.directory (.ofString "repo") entries] = true := by
  simp [Entry.haveDistinctNames, Entry.hasDistinctNames, entries, self, Entry.name]

/-- The tree that has the directory `repo`. -/
def tree : FileTree :=
  { entries := [.directory (.ofString "repo") entries], distinct := distinct_entries }

/-- Follows links. -/
def configuration : Configuration := { followLinks := true }

/-- The directory `repo`, as the walk opens it. -/
def repo : OpenDirectory := ⟨⟨"repo", []⟩, [.ofString "repo"]⟩

/-- The root of the sample is the directory `repo`. -/
theorem resolve_repo :
    tree.resolve repo.path.toPath = .ok (.directory repo.location entries) := by
  rw [repo, TreePath.toPath_repo, FileTree.resolve, FileTree.linkLimit, FileTree.follow]
  simp [Path.isEmpty, FileTree.take, FileTree.entriesAt, FileTree.entriesBelow, FileTree.startOf, tree,
    Entry.find?, Entry.name]

/-- The link of the sample leads back to the directory `repo`. -/
theorem resolve_self : tree.resolve (repo.path.child (.ofString "self")).toPath =
    .ok (.directory repo.location entries) := by
  rw [repo, TreePath.child, TreePath.toPath_repo, FileTree.resolve, FileTree.linkLimit,
    FileTree.follow]
  simp [Path.isEmpty, FileTree.take, FileTree.follow, FileTree.entriesAt, FileTree.entriesBelow,
    FileTree.startOf, tree, entries, self, Entry.find?, Entry.name]

/-- The sample has one link. -/
theorem eq_of_link_mem {n : FileName} {target : Path} (h : Entry.link n target ∈ entries) :
    n = .ofString "self" := by
  simp only [entries, self, List.mem_cons, List.not_mem_nil, or_false, Entry.link.injEq,
    reduceCtorEq] at h
  exact h.1

/-- The walk comes to the entries of the directory and no further. -/
theorem meets_iff {v : Encounter} :
    (configuration.walk tree).Meets "repo" v ↔ ∃ e ∈ entries, v = ⟨repo, [], e⟩ := by
  constructor
  · intro h
    induction h using Walk.Meets.induct with
    | first hroot he =>
      cases hroot.symm.trans resolve_repo
      exact ⟨_, he, rfl⟩
    | next hv henters he ih =>
      obtain ⟨e, hmem, rfl⟩ := ih
      cases henters with
      | directory => simp [entries, self] at hmem
      | link follows leads fresh =>
        rw [eq_of_link_mem hmem] at leads
        cases leads.symm.trans resolve_self
        exact absurd rfl (fresh repo (.head _))
  · rintro ⟨e, he, rfl⟩
    exact Walk.meets_first resolve_repo he

end CircularTree

/-- Discovery that may follow links ends, and following links only adds files. The walk comes to
finitely many entries, its depth is bounded, and it has a run that is subject to no bound. It fails only
if the root leads nowhere or it comes to a link that it cannot follow, and then at the first such link.
If it succeeds, it lists what is found without following links, in the same order, and nothing else
where no link leads to a directory. -/
theorem discover_following (c : Configuration) (t : FileTree) (root : String) :
    ({v | (c.walk t).Meets root v}.Finite ∧ (∀ v, (c.walk t).Meets root v →
        (v.here :: v.above).length ≤ t.locations.length ^ 2) ∧
      ∀ location es, t.resolve (Path.ofString root) = .ok (.directory location es) →
        (c.walk t).Run ⟨⟨root, []⟩, location⟩ [] (Entry.sortedByName es) ((c.walk t).filesFrom root)) ∧
    ((∃ files, discover c t root = .ok files) ↔
      (∃ target, t.resolve (Path.ofString root) = .ok target) ∧
        ∀ v err, (c.walk t).Meets root v → ¬ v.Stops (c.walk t) err) ∧
    (∀ err, discover c t root = .error err →
      (∃ cause, t.resolve (Path.ofString root) = .error cause ∧ err = .unreachable ⟨root, []⟩ cause) ∨
      ∃ v, (c.walk t).Meets root v ∧ v.Stops (c.walk t) err ∧
        ∀ v' err', (c.walk t).Meets root v' → v'.Stops (c.walk t) err' →
          (compare v.path.below v'.path.below).isLE = true) ∧
    ∀ files, discover c t root = .ok files →
      ∃ fewer, discover { c with followLinks := false } t root = .ok fewer ∧ fewer.Sublist files ∧
        ((∀ v, (Configuration.walk { c with followLinks := false } t).Meets root v →
          ¬ v.IsDirectoryLink t) → fewer = files) := by
  refine ⟨⟨Walk.finite_meets root, fun v hv => hv.length_le, ?_⟩, exists_discover_iff,
    fun err herr => discover_eq_error herr, ?_⟩
  · intro location es hroot
    rw [← TreePath.toPath_root] at hroot
    exact Walk.run_filesFrom hroot
  · intro files hfiles
    obtain ⟨paths, hpaths, rfl⟩ := discover_eq_ok_iff.1 hfiles
    obtain ⟨fewer, hfewer, hsublist, heq⟩ := Walk.filesFrom_unfollowed hpaths
    refine ⟨_, discover_eq_ok_iff.2 ⟨fewer, hfewer, rfl⟩, hsublist.filterMap _, ?_⟩
    intro hlinks
    rw [heq hlinks]

section CircularTree

open CircularTree

/-- In the sample the link leads to the directory that holds it. The error names both. -/
theorem circularTree_discover :
    discover configuration tree "repo" =
        .error (.loop ⟨"repo", [.ofString "self"]⟩ ⟨"repo", []⟩) := by
  obtain ⟨-, hok, herror, -⟩ := discover_following configuration tree "repo"
  cases hresult : discover configuration tree "repo" with
  | ok files =>
    have hstops : Encounter.Stops (configuration.walk tree) ⟨repo, [], self⟩
        (.loop (repo.path.child (.ofString "self")) repo.path) :=
      Walk.stops_of_find? rfl resolve_self (by simp)
    exact absurd hstops ((hok.1 ⟨files, hresult⟩).2 _ _ (meets_iff.2 ⟨self, .head _, rfl⟩))
  | error err =>
    rcases herror err hresult with ⟨cause, hcause, -⟩ | ⟨v, hv, hstops, -⟩
    · rw [← TreePath.toPath_root] at hcause
      cases hcause.symm.trans resolve_repo
    · obtain ⟨e, he, rfl⟩ := meets_iff.1 hv
      cases hstops with
      | unreachable follows leads =>
        rw [eq_of_link_mem he] at leads
        cases leads.symm.trans resolve_self
      | @loop _ ancestor _ inner outer n _ _ follows leads isOpen =>
        cases inner with
        | nil =>
          cases isOpen
          rw [eq_of_link_mem he]
          rfl
        | cons d inner => simp at isOpen

end CircularTree

end BareCallGraph
