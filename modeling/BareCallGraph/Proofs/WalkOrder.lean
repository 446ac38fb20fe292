import BareCallGraph.Discovery
import BareCallGraph.Proofs.TextBytes
import BareCallGraph.Proofs.Walks

/-!
# The order of a walk

The entries of each directory are visited in the order of their names, and a directory before what is in
it. In a tree with distinct names this is the lexicographic order of the names on the paths: a walk lists
its files in strictly increasing order, and it fails at the least path at which it can fail. Every walk
from a directory either lists all files that it comes to, or there is an entry that ends it.
-/

namespace BareCallGraph

/-- Lists of names that begin alike are in the order of the first names that differ. -/
theorem compare_append_cons {m n : FileName} (h : compare m n = .lt) (p r s : List FileName) :
    compare (p ++ m :: r) (p ++ n :: s) = .lt := by
  rw [compare_append_left, List.compare_cons_cons, h]
  rfl

/-- A list of names comes before every list that goes on from it. -/
theorem isLE_compare_append (p r : List FileName) : (compare p (p ++ r)).isLE = true := by
  have := compare_append_left p [] r
  rw [List.append_nil] at this
  rw [this]
  exact List.isLE_compare_nil_left

/-- Paths in strictly increasing order are different. -/
theorem TreePath.nodup_of_sorted {paths : List TreePath}
    (h : paths.Pairwise fun p q => compare p.below q.below = .lt) : paths.Nodup := by
  refine h.imp ?_
  rintro p q hpq rfl
  have hself : compare p.below p.below = .eq := Std.ReflCmp.compare_self
  rw [hself] at hpq
  contradiction

namespace Entry

/-- The entries of a list come in the order of their names, and all directories below have distinct
names. -/
structure InOrder (es : List Entry) : Prop where
  /-- Each entry comes before those of greater names. -/
  sorted : es.Pairwise fun e f => compare e.name f.name = .lt
  /-- No directory below has two entries of one name. -/
  distinct : ∀ e ∈ es, e.hasDistinctNames = true

/-- If entries have distinct names, what each of them holds has. -/
theorem hasDistinctNames_of_mem {e : Entry} {es : List Entry} (h : haveDistinctNames es = true)
    (hmem : e ∈ es) : e.hasDistinctNames = true := by
  induction es with
  | nil => contradiction
  | cons f es ih =>
    obtain ⟨hf, -, hes⟩ := haveDistinctNames_cons.1 h
    rcases List.mem_cons.1 hmem with rfl | hmem
    · exact hf
    · exact ih hes hmem

/-- Entries with distinct names are in order once they are sorted. -/
theorem inOrder_sortedByName {es : List Entry} (h : haveDistinctNames es = true) :
    InOrder (sortedByName es) where
  sorted := sortedByName_pairwise h
  distinct _ he := hasDistinctNames_of_mem h (mem_sortedByName.1 he)

/-- What follows the first of several entries in order is in order. -/
theorem InOrder.tail {e : Entry} {es : List Entry} (h : InOrder (e :: es)) : InOrder es where
  sorted := (List.pairwise_cons.1 h.sorted).2
  distinct f hf := h.distinct f (.tail _ hf)

end Entry

/-- What a walk goes into has distinct names. -/
theorem Encounter.Enters.haveDistinctNames {w : Walk} {v : Encounter} {d : OpenDirectory}
    {es : List Entry} (h : v.Enters w d es)
    (hv : v.entry.hasDistinctNames = true) : Entry.haveDistinctNames es = true := by
  cases h with
  | directory => exact hv
  | link _ leads => exact FileTree.distinct_at (FileTree.entriesAt_of_resolve leads)

namespace Walk

variable {w : Walk} {here : OpenDirectory} {above : List OpenDirectory} {e : Entry} {es : List Entry}
  {v v' : Encounter} {result : Except WalkError (List TreePath)} {files : List TreePath}
  {err : WalkError}

/-- What lies below an entry comes before what lies below the later ones. -/
theorem compare_below (h : Entry.InOrder (e :: es)) (hv : w.Reaches ⟨here, above, e⟩ v)
    (hv' : w.ReachesFrom here above es v') : compare v.path.below v'.path.below = .lt := by
  obtain ⟨-, rest, hrest⟩ := hv.path
  obtain ⟨-, f, hf, rest', hrest'⟩ := hv'.path
  have hlt : compare e.name f.name = .lt := (List.pairwise_cons.1 h.sorted).1 f hf
  have hbelow : v.path.below = here.path.below ++ e.name :: rest := by
    rw [hrest]
    simp [Encounter.path, TreePath.child]
  rw [hbelow, hrest']
  exact compare_append_cons hlt _ _ _

/-- A run lists files in strictly increasing order. -/
theorem Run.sorted (h : w.Run here above es result) (hok : result = .ok files)
    (hes : Entry.InOrder es) :
    files.Pairwise fun p q => compare p.below q.below = .lt := by
  induction h generalizing files with
  | done =>
    cases hok
    exact .nil
  | stop => contradiction
  | fail => contradiction
  | list isFile later ih =>
    obtain ⟨rest, hrest, rfl⟩ := map_eq_ok_iff.1 hok
    refine .cons ?_ (ih hrest hes.tail)
    intro q hq
    obtain ⟨v, hv, -, rfl⟩ := (later.mem_iff hrest q).1 hq
    exact compare_below hes .refl hv
  | pass notFile notEntered notStopped later ih => exact ih hok hes.tail
  | enter enters inside later ihInside ih =>
    obtain ⟨rest, hrest, rfl⟩ := map_eq_ok_iff.1 hok
    have hinner := enters.haveDistinctNames (hes.distinct _ (.head _))
    refine List.pairwise_append.2
      ⟨ihInside rfl (Entry.inOrder_sortedByName hinner), ih hrest hes.tail, ?_⟩
    intro p hp q hq
    obtain ⟨v, hv, -, rfl⟩ := (inside.mem_iff rfl p).1 hp
    obtain ⟨v', hv', -, rfl⟩ := (later.mem_iff hrest q).1 hq
    have hreaches := (reaches_of_enters enters).2 (.inr (reachesFrom_sortedByName.1 hv))
    exact compare_below hes hreaches hv'

/-- A run fails at the first entry that it comes to and that ends it. -/
theorem Run.le_of_stops (h : w.Run here above es result) (herror : result = .error err)
    (hes : Entry.InOrder es) {err' : WalkError}
    (hv : w.ReachesFrom here above es v) (hstops : v.Stops w err') :
    (compare err.path.below v.path.below).isLE = true := by
  induction h with
  | done => contradiction
  | @stop here above e es err stops =>
    cases herror
    obtain ⟨-, f, hf, rest, hrest⟩ := hv.path
    have herr : err.path.below = here.path.below ++ [e.name] := by
      rw [stops.path_eq]
      rfl
    rw [herr, hrest]
    rcases List.mem_cons.1 hf with rfl | hf
    · have := isLE_compare_append (here.path.below ++ [f.name]) rest
      rwa [List.append_assoc, List.singleton_append] at this
    · have hlt := (List.pairwise_cons.1 hes.sorted).1 f hf
      rw [compare_append_cons hlt]
      rfl
  | list isFile later ih =>
    rcases reachesFrom_cons.1 hv with hv | hv
    · rw [reaches_of_isFile isFile] at hv
      subst hv
      exact absurd hstops isFile.not_stops
    · exact ih (map_eq_error_iff.1 herror) hes.tail hv
  | pass notFile notEntered notStopped later ih =>
    rcases reachesFrom_cons.1 hv with hv | hv
    · rw [reaches_of_not_enters notEntered] at hv
      subst hv
      exact absurd hstops (notStopped err')
    · exact ih herror hes.tail hv
  | fail enters inside ih =>
    rcases reachesFrom_cons.1 hv with hv | hv
    · rcases (reaches_of_enters enters).1 hv with rfl | hv
      · exact absurd hstops enters.not_stops
      · have hinner := enters.haveDistinctNames (hes.distinct _ (.head _))
        exact ih herror (Entry.inOrder_sortedByName hinner) (reachesFrom_sortedByName.2 hv)
    · obtain ⟨u, hu, hu'⟩ := inside.exists_stops herror
      have hreaches := (reaches_of_enters enters).2 (.inr (reachesFrom_sortedByName.1 hu))
      rw [hu'.path_eq, compare_below hes hreaches hv]
      rfl
  | enter enters inside later ihInside ih =>
    rcases reachesFrom_cons.1 hv with hv | hv
    · rcases (reaches_of_enters enters).1 hv with rfl | hv
      · exact absurd hstops enters.not_stops
      · exact absurd hstops (inside.not_stops rfl v (reachesFrom_sortedByName.2 hv) err')
    · exact ih (map_eq_error_iff.1 herror) hes.tail hv

/-! ## Walks from a root -/

variable {root : String} {location : Location}

/-- From a directory a walk has a run, and yields what the run ends with. -/
theorem run_filesFrom
    (hroot : w.tree.resolve (TreePath.mk root []).toPath = .ok (.directory location es)) :
    w.Run ⟨⟨root, []⟩, location⟩ [] (Entry.sortedByName es) (w.filesFrom root) := by
  have hcovers : w.Covers [⟨⟨root, []⟩, location⟩] (w.tree.locations.erase location) := by
    intro other hother
    by_cases heq : other = location
    · exact .inr ⟨_, .head _, heq.symm⟩
    · exact .inl ((List.mem_erase_of_ne heq).2 hother)
  rw [filesFrom, hroot]
  exact w.run_visitAll.2 _ _ _ _ hcovers

/-- A walk from a directory comes to what it reaches from the sorted entries of the directory. -/
theorem meets_iff
    (hroot : w.tree.resolve (TreePath.mk root []).toPath = .ok (.directory location es)) :
    w.Meets root v ↔ w.ReachesFrom ⟨⟨root, []⟩, location⟩ [] (Entry.sortedByName es) v := by
  rw [reachesFrom_sortedByName]
  constructor
  · intro h
    obtain ⟨location', es', hroot', h⟩ := h
    rw [hroot] at hroot'
    cases hroot'
    exact h
  · intro h
    exact ⟨location, es, hroot, h⟩

/-- A walk from a directory succeeds exactly if it comes to nothing that ends it. -/
theorem filesFrom_ok_iff
    (hroot : w.tree.resolve (TreePath.mk root []).toPath = .ok (.directory location es)) :
    (∃ files, w.filesFrom root = .ok files) ↔ ∀ v, w.Meets root v → ∀ err, ¬ v.Stops w err := by
  constructor
  · intro h v hv
    obtain ⟨files, hfiles⟩ := h
    exact (run_filesFrom hroot).not_stops hfiles v ((meets_iff hroot).1 hv)
  · intro h
    cases hresult : w.filesFrom root with
    | ok files => exact ⟨files, rfl⟩
    | error err =>
      obtain ⟨v, hv, hstops⟩ := (run_filesFrom hroot).exists_stops hresult
      exact absurd hstops (h v ((meets_iff hroot).2 hv) err)

/-- A walk that succeeds lists the files that it comes to. -/
theorem mem_filesFrom
    (hroot : w.tree.resolve (TreePath.mk root []).toPath = .ok (.directory location es))
    (h : w.filesFrom root = .ok files) (p : TreePath) :
    p ∈ files ↔ ∃ v, w.Meets root v ∧ v.IsFile w ∧ p = v.path := by
  rw [(run_filesFrom hroot).mem_iff h]
  simp only [meets_iff hroot]

/-- A walk that fails does so at the first entry that ends it. -/
theorem filesFrom_error
    (hroot : w.tree.resolve (TreePath.mk root []).toPath = .ok (.directory location es))
    (h : w.filesFrom root = .error err) :
    ∃ v, w.Meets root v ∧ v.Stops w err ∧ ∀ v' err', w.Meets root v' → v'.Stops w err' →
      (compare v.path.below v'.path.below).isLE = true := by
  have hrun := run_filesFrom hroot
  have hes := Entry.inOrder_sortedByName (FileTree.distinct_at (FileTree.entriesAt_of_resolve hroot))
  obtain ⟨v, hv, hstops⟩ := hrun.exists_stops h
  refine ⟨v, (meets_iff hroot).2 hv, hstops, ?_⟩
  intro v' err' hv' hstops'
  rw [← hstops.path_eq]
  exact hrun.le_of_stops h hes ((meets_iff hroot).1 hv') hstops'

/-- A walk lists files in strictly increasing order of the names on their paths. -/
theorem filesFrom_sorted (h : w.filesFrom root = .ok files) :
    files.Pairwise fun p q => compare p.below q.below = .lt := by
  cases hroot : w.tree.resolve (TreePath.mk root []).toPath with
  | error cause =>
    simp only [filesFrom, hroot] at h
    contradiction
  | ok target =>
    cases target with
    | file content =>
      simp only [filesFrom, hroot] at h
      cases h
      exact List.pairwise_singleton _ _
    | directory location es =>
      have hes := Entry.inOrder_sortedByName (FileTree.distinct_at (FileTree.entriesAt_of_resolve hroot))
      exact (run_filesFrom hroot).sorted h hes

end Walk

end BareCallGraph
