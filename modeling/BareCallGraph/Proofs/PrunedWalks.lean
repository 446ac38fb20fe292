import BareCallGraph.Proofs.DiscoveredFiles

/-!
# Walks that leave directories out

A walk that leaves out more directories than another one comes to the same entries, as far as it comes:
it passes over a directory where the other one goes in, and everything that the other one lists from
there has the name of that directory on its path. So leaving directories out is the same as walking
through all of them and dropping the files that lie in them. If the other walk succeeds, this one does.
-/

namespace BareCallGraph

/-- Whether a path leads through no directory that is left out. The root of the path and the name that it
ends in do not count. -/
def TreePath.avoids (excludes : FileName → Bool) (p : TreePath) : Bool :=
  p.below.dropLast.all (!excludes ·)

namespace Walk

variable {w : Walk} {more : FileName → Bool}

/-- The same walk with other directories left out. -/
def excluding (w : Walk) (excludes : FileName → Bool) : Walk := { w with excludes := excludes }

end Walk

namespace Encounter

variable {w : Walk} {more : FileName → Bool} {v : Encounter}

/-- Leaving more out does not change what is a file. -/
theorem isFile_excluding : v.IsFile (w.excluding more) ↔ v.IsFile w := by
  constructor
  · intro h
    cases h with
    | file => exact .file
    | link leads => exact .link leads
  · intro h
    cases h with
    | file => exact .file
    | link leads => exact .link leads

/-- Leaving more out does not change what ends a walk. -/
theorem stops_excluding {err : WalkError} : v.Stops (w.excluding more) err ↔ v.Stops w err := by
  constructor
  · intro h
    cases h with
    | unreachable follows leads => exact .unreachable follows leads
    | loop follows leads isOpen innermost => exact .loop follows leads isOpen innermost
  · intro h
    cases h with
    | unreachable follows leads => exact .unreachable follows leads
    | loop follows leads isOpen innermost => exact .loop follows leads isOpen innermost

/-- A walk that leaves out more goes into a directory if the other one does and it is not left out. -/
theorem enters_excluding (hmore : ∀ n, w.excludes n = true → more n = true) {d : OpenDirectory}
    {es : List Entry} :
    v.Enters (w.excluding more) d es ↔ v.Enters w d es ∧ more v.entry.name = false := by
  have hless {n : FileName} (h : more n = false) : w.excludes n = false := by
    cases hn : w.excludes n with
    | false => rfl
    | true => rw [hmore n hn] at h; contradiction
  constructor
  · intro h
    cases h with
    | directory included => exact ⟨.directory (hless included), included⟩
    | link follows leads fresh included =>
      exact ⟨.link follows leads fresh (hless included), included⟩
  · rintro ⟨h, hincluded⟩
    cases h with
    | directory included => exact .directory hincluded
    | link follows leads fresh included => exact .link follows leads fresh hincluded

end Encounter

namespace Walk

variable {w : Walk} {here : OpenDirectory} {above : List OpenDirectory} {e : Entry} {es : List Entry}
  {result : Except WalkError (List TreePath)} {files : List TreePath} {more : FileName → Bool}

/-- The directories that lead to an open one are not left out. -/
def IsInside (more : FileName → Bool) (here : OpenDirectory) : Prop :=
  ∀ n ∈ here.path.below, more n = false

/-- What stands in a directory that is not left out has a path that avoids what is left out. -/
theorem IsInside.avoids_child (h : IsInside more here) (n : FileName) :
    (here.path.child n).avoids more = true := by
  refine List.all_eq_true.2 ?_
  intro m hm
  rw [TreePath.child, List.dropLast_concat] at hm
  rw [h m hm]
  rfl

/-- Going into an entry that is not left out leads to a directory that is not left out. -/
theorem IsInside.enter (h : IsInside more here) {d : OpenDirectory} {inner : List Entry}
    (henters : Encounter.Enters w ⟨here, above, e⟩ d inner) (hincluded : more e.name = false) :
    IsInside more d := by
  intro n hn
  rw [henters.path_eq] at hn
  rcases List.mem_append.1 hn with hn | hn
  · exact h n hn
  · rw [List.mem_singleton.1 hn]
    exact hincluded

/-- What is listed from a directory has the name of the directory on its path. -/
theorem Run.filter_eq_nil {d : OpenDirectory} {inner : List Entry}
    (h : w.Run d (here :: above) (Entry.sortedByName inner) (.ok files))
    (henters : Encounter.Enters w ⟨here, above, e⟩ d inner) (hexcluded : more e.name = true) :
    files.filter (·.avoids more) = [] := by
  refine List.filter_eq_nil_iff.2 ?_
  intro p hp havoids
  obtain ⟨v, hv, -, rfl⟩ := (h.mem_iff rfl p).1 hp
  obtain ⟨-, f, -, rest, hbelow⟩ := hv.path
  have hmem : e.name ∈ v.path.below.dropLast := by
    rw [hbelow, henters.path_eq, List.dropLast_append_of_ne_nil (List.cons_ne_nil _ _)]
    simp [Encounter.path, TreePath.child]
  have := List.all_eq_true.1 havoids e.name hmem
  simp [hexcluded] at this

/-- If a run ends well, a run that leaves out more does so too and lists what does not lie in the
directories that are left out. -/
theorem Run.pruned (hmore : ∀ n, w.excludes n = true → more n = true)
    (h : w.Run here above es result) (hok : result = .ok files) (hinside : IsInside more here)
    {result' : Except WalkError (List TreePath)} (h' : (w.excluding more).Run here above es result') :
    result' = .ok (files.filter (·.avoids more)) := by
  induction h generalizing files result' with
  | done =>
    cases hok
    cases h'
    rfl
  | stop => contradiction
  | fail => contradiction
  | list isFile later ih =>
    obtain ⟨rest, hrest, rfl⟩ := map_eq_ok_iff.1 hok
    obtain ⟨later', hlater', rfl⟩ := h'.of_isFile (Encounter.isFile_excluding.2 isFile)
    rw [ih hrest hinside hlater']
    simp [Except.map, hinside.avoids_child]
  | pass notFile notEntered notStopped later ih =>
    refine ih hok hinside (h'.of_passed ?_ ?_ ?_)
    · intro isFile
      exact notFile (Encounter.isFile_excluding.1 isFile)
    · intro d inner enters
      exact notEntered d inner ((Encounter.enters_excluding hmore).1 enters).1
    · intro err stops
      exact notStopped err (Encounter.stops_excluding.1 stops)
  | @enter here d above e es inner found result enters inside later ihInside ih =>
    obtain ⟨rest, hrest, rfl⟩ := map_eq_ok_iff.1 hok
    cases hname : more e.name with
    | true =>
      -- only the walk that leaves out less goes in
      have hpassed : (w.excluding more).Run here above es result' := by
        refine h'.of_passed ?_ ?_ ?_
        · intro isFile
          exact enters.not_isFile (Encounter.isFile_excluding.1 isFile)
        · intro d inner enters'
          exact absurd (((Encounter.enters_excluding hmore).1 enters').2.symm.trans hname) (by decide)
        · intro err stops
          exact enters.not_stops (Encounter.stops_excluding.1 stops)
      rw [ih hrest hinside hpassed, List.filter_append, inside.filter_eq_nil enters hname,
        List.nil_append]
    | false =>
      have enters' := (Encounter.enters_excluding hmore).2 ⟨enters, hname⟩
      rcases h'.of_enters enters' with ⟨err, inside', rfl⟩ | ⟨found', later', inside', hlater', rfl⟩
      · cases ihInside rfl (hinside.enter enters hname) inside'
      · cases ihInside rfl (hinside.enter enters hname) inside'
        rw [ih hrest hinside hlater', List.filter_append]
        rfl

/-- A walk that leaves out more lists what the other one lists outside of what is left out. -/
theorem filesFrom_excluding {root : String} (hmore : ∀ n, w.excludes n = true → more n = true)
    (h : w.filesFrom root = .ok files) :
    (w.excluding more).filesFrom root = .ok (files.filter (·.avoids more)) := by
  cases hroot : w.tree.resolve (TreePath.mk root []).toPath with
  | error cause =>
    simp only [filesFrom, hroot] at h
    contradiction
  | ok target =>
    cases target with
    | file content =>
      simp only [filesFrom, excluding, hroot] at h ⊢
      cases h
      rfl
    | directory location es =>
      have hrun := run_filesFrom (w := w.excluding more) hroot
      exact (run_filesFrom hroot).pruned hmore h (by simp [IsInside]) hrun

end Walk

/-- Whether none of the directories between the root and the file has a name of the list. -/
def SourceFile.liesOutside (f : SourceFile) (names : List String) : Bool :=
  f.path.below.dropLast.all fun n => names.all fun d => n ≠ .ofString d

variable {c : Configuration} {t : FileTree} {root : String}

/-- A file lies outside of directories if its path avoids the names that leave them out. -/
theorem SourceFile.liesOutside_eq (f : SourceFile) (names : List String) :
    f.liesOutside names =
      f.path.avoids (Configuration.excludes { c with excludedDirectories := names }) := by
  rw [Bool.eq_iff_iff]
  simp [liesOutside, TreePath.avoids, Configuration.excludes_eq_false_iff]

/-- Discovery that leaves out more finds what lies outside of it. -/
theorem discover_more {names more : List String} (hmore : names ⊆ more) {files : List SourceFile}
    (h : discover { c with excludedDirectories := names } t root = .ok files) :
    discover { c with excludedDirectories := more } t root =
      .ok (files.filter (·.liesOutside more)) := by
  obtain ⟨paths, hpaths, rfl⟩ := discover_eq_ok_iff.1 h
  have hexcludes (n : FileName)
      (hn : Configuration.excludes { c with excludedDirectories := names } n = true) :
      Configuration.excludes { c with excludedDirectories := more } n = true := by
    obtain ⟨d, hd, rfl⟩ := Configuration.excludes_iff.1 hn
    exact Configuration.excludes_iff.2 ⟨d, hmore hd, rfl⟩
  have hpruned := Walk.filesFrom_excluding hexcludes hpaths
  refine discover_eq_ok_iff.2 ⟨_, hpruned, ?_⟩
  rw [List.filterMap_filter, List.filter_filterMap]
  congr 1
  funext p
  cases hp : SourceFile.at? .python p with
  | none => simp
  | some f =>
    rw [← (SourceFile.at?_eq_some_iff.1 hp).1, ← SourceFile.liesOutside_eq]
    simp [Option.filter]

/-- Only the set of the names to be left out matters. -/
theorem discover_congr {names others : List String} (h : ∀ d, d ∈ names ↔ d ∈ others) :
    discover { c with excludedDirectories := names } t root =
      discover { c with excludedDirectories := others } t root := by
  have hexcludes : Configuration.excludes { c with excludedDirectories := names } =
      Configuration.excludes { c with excludedDirectories := others } := by
    funext n
    rw [Bool.eq_iff_iff, Configuration.excludes_iff, Configuration.excludes_iff]
    simp only [h]
  simp only [discover, Configuration.walk, hexcludes]

namespace VendoredTree

/-! ## A tree with a linked directory

The directory `repo` has a file, a directory with a file, and a link to that directory. -/

/-- What is in the directory `build`. -/
def inner : List Entry := [.file (.ofString "b.py") .empty]

/-- What is in the directory `repo`. -/
def entries : List Entry :=
  [.link (.ofString "vendor") ⟨false, [.name (.ofString "build")]⟩,
    .directory (.ofString "build") inner, .file (.ofString "a.py") .empty]

/-- No name in the sample occurs twice. -/
theorem distinct_entries :
    Entry.haveDistinctNames [.directory (.ofString "repo") entries] = true := by
  simp [Entry.haveDistinctNames, Entry.hasDistinctNames, entries, inner, Entry.name]

/-- The tree that has the directory `repo`. -/
def tree : FileTree :=
  { entries := [.directory (.ofString "repo") entries], distinct := distinct_entries }

/-- Follows links. -/
def configuration : Configuration := { followLinks := true }

/-- The root of the sample is the directory `repo`. -/
theorem resolve_repo :
    tree.resolve (TreePath.mk "repo" []).toPath = .ok (.directory [.ofString "repo"] entries) := by
  rw [TreePath.toPath_repo, FileTree.resolve, FileTree.linkLimit, FileTree.follow]
  simp [Path.isEmpty, FileTree.take, FileTree.entriesAt, FileTree.entriesBelow, FileTree.startOf, tree,
    Entry.find?, Entry.name]

/-- The link of the sample leads to the directory `build`. -/
theorem resolve_vendor : tree.resolve (TreePath.mk "repo" [.ofString "vendor"]).toPath =
    .ok (.directory [.ofString "repo", .ofString "build"] inner) := by
  rw [TreePath.toPath_repo, FileTree.resolve, FileTree.linkLimit, FileTree.follow]
  simp [Path.isEmpty, FileTree.take, FileTree.follow, FileTree.entriesAt, FileTree.entriesBelow,
    FileTree.startOf, tree, entries, Entry.find?, Entry.name]

/-- The file in the directory `repo`. -/
def fileA : SourceFile := ⟨⟨"repo", [.ofString "a.py"]⟩, "a"⟩

/-- The file in the directory of the given name. -/
def fileB (directory : String) : SourceFile :=
  ⟨⟨"repo", [.ofString directory, .ofString "b.py"]⟩, "b"⟩

/-- The order in which the walk takes the entries of the sample. -/
theorem sortedByName_entries : Entry.sortedByName entries =
    [.file (.ofString "a.py") .empty, .directory (.ofString "build") inner,
      .link (.ofString "vendor") ⟨false, [.name (.ofString "build")]⟩] := by
  have hnames : (compare (FileName.ofString "vendor") (FileName.ofString "build")).isLE = false ∧
      (compare (FileName.ofString "build") (FileName.ofString "a.py")).isLE = false := by
    decide +kernel
  simp [entries, Entry.sortedByName, List.mergeSort, List.MergeSort.Internal.splitInTwo, Entry.name,
    hnames]

/-- Without anything left out, the file in the directory is found twice. -/
theorem discover_repo :
    discover configuration tree "repo" = .ok [fileA, fileB "build", fileB "vendor"] := by
  have hlocations : tree.locations.erase [.ofString "repo"] =
      [[], [.ofString "repo", .ofString "build"]] := by decide +kernel
  have hinner : Entry.sortedByName inner = inner := by simp [Entry.sortedByName, inner]
  have hexcludes (n : FileName) : configuration.excludes n = false :=
    Configuration.excludes_eq_false_iff.2 (by simp [configuration])
  have hfollow : configuration.followLinks = true := rfl
  have hfresh : ([⟨⟨"repo", []⟩, [.ofString "repo"]⟩] : List OpenDirectory).find?
      (·.location == [.ofString "repo", .ofString "build"]) = none := by simp
  have hvisit (w : Walk) (here : OpenDirectory) (above : List OpenDirectory)
      (closed : List Location) :
      w.visitAll here above closed inner = .ok [here.path.child (.ofString "b.py")] := by
    simp only [inner, Walk.visitAll, Walk.visit, List.append_nil]
  have hfiles : (configuration.walk tree).filesFrom "repo" =
      .ok [fileA.path, (fileB "build").path, (fileB "vendor").path] := by
    simp only [Walk.filesFrom, Configuration.walk, resolve_repo, sortedByName_entries, Walk.visitAll,
      Walk.visit, hinner, TreePath.child, List.nil_append, resolve_vendor, hlocations, hexcludes,
      hfollow, hfresh]
    simp [hvisit, TreePath.child, fileA, fileB]
  have hmatching : [fileA.path, (fileB "build").path, (fileB "vendor").path].filterMap
      (SourceFile.at? .python) = [fileA, fileB "build", fileB "vendor"] := by decide +kernel
  rw [discover, hfiles]
  exact congrArg _ hmatching

end VendoredTree

/-- Leaving directories out is the same as dropping what lies in them. If discovery succeeds with nothing
left out, then it succeeds whatever is left out, and finds the files that lie outside, in the same order.
Only the set of the names to be left out matters, and with more of them fewer files are found. -/
theorem pruning_is_filtering (c : Configuration) (t : FileTree) (root : String) :
    (∀ files, discover { c with excludedDirectories := [] } t root = .ok files → ∀ names,
      discover { c with excludedDirectories := names } t root =
        .ok (files.filter (·.liesOutside names))) ∧
    (∀ names others, (∀ d, d ∈ names ↔ d ∈ others) →
      discover { c with excludedDirectories := names } t root =
        discover { c with excludedDirectories := others } t root) ∧
    ∀ names more, names ⊆ more → ∀ files,
      discover { c with excludedDirectories := names } t root = .ok files →
        ∃ fewer, discover { c with excludedDirectories := more } t root = .ok fewer ∧
          fewer = files.filter (·.liesOutside more) ∧ fewer.Sublist files := by
  refine ⟨?_, fun names others h => discover_congr h, ?_⟩
  · intro files h names
    exact discover_more (List.nil_subset names) h
  · intro names more hmore files h
    exact ⟨_, discover_more hmore h, rfl, List.filter_sublist⟩

section VendoredTree

open VendoredTree

/-- In the sample a file is dropped by the name of the link that leads to it, or by the name of the
directory, but not by both. -/
theorem vendoredTree_discover :
    discover { configuration with excludedDirectories := [] } tree "repo" =
        .ok [fileA, fileB "build", fileB "vendor"] ∧
      discover { configuration with excludedDirectories := ["build"] } tree "repo" =
        .ok [fileA, fileB "vendor"] ∧
      discover { configuration with excludedDirectories := ["vendor", "a.py"] } tree "repo" =
        .ok [fileA, fileB "build"] := by
  have hfilter := (pruning_is_filtering configuration tree "repo").1 _ discover_repo
  have hbuild : [fileA, fileB "build", fileB "vendor"].filter (·.liesOutside ["build"]) =
      [fileA, fileB "vendor"] := by decide +kernel
  have hvendor : [fileA, fileB "build", fileB "vendor"].filter (·.liesOutside ["vendor", "a.py"]) =
      [fileA, fileB "build"] := by decide +kernel
  refine ⟨discover_repo, ?_, ?_⟩
  · rw [hfilter, hbuild]
  · rw [hfilter, hvendor]

end VendoredTree

end BareCallGraph
