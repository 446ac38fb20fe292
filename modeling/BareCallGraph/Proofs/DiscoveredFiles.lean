import BareCallGraph.Proofs.WalkOrder
import Mathlib.Data.List.Induction

/-!
# Which files are discovered

A walk that follows no links comes to what real directories hold that are not left out, and to nothing
else, and nothing ends it. Of the entries that it comes to, those are listed whose paths lead to files.
So discovery lists exactly the source files below the root (`IsSourceBelow`), each of them once and in
the order of the names on their paths.
-/

namespace BareCallGraph

open FileTree (entriesBelow)

namespace Walk

variable {w : Walk} {root : String} {v : Encounter} {location : Location} {es : List Entry}

/-- From a directory that its path leads to, the walk goes into directories that their paths lead to. -/
theorem resolve_of_enters {d : OpenDirectory} {outer : List Entry} (h : v.Enters w d es)
    (houter : w.tree.resolve v.here.path.toPath = .ok (.directory v.here.location outer))
    (hmem : v.entry ∈ outer) : w.tree.resolve v.path.toPath = .ok (.directory d.location es) := by
  have hdistinct := FileTree.distinct_at (FileTree.entriesAt_of_resolve houter)
  cases h with
  | directory included =>
    exact FileTree.resolve_child_of_directory houter (Entry.find?_name hdistinct hmem)
  | link follows leads fresh included => exact leads

/-- A walk opens directories by paths that lead to them. -/
theorem Meets.leads (h : w.Meets root v) :
    ∃ es, w.tree.resolve v.here.path.toPath = .ok (.directory v.here.location es) ∧ v.entry ∈ es := by
  induction h using Meets.induct with
  | @first location es e hroot he => exact ⟨es, hroot, he⟩
  | @next v d inner f hv henters hf ih =>
    obtain ⟨outer, houter, hmem⟩ := ih
    refine ⟨inner, ?_, hf⟩
    rw [henters.path_eq]
    exact resolve_of_enters henters houter hmem

/-- An entry that a walk comes to is listed if its path leads to a file. -/
theorem isFile_iff (h : w.Meets root v) :
    v.IsFile w ↔ ∃ content, w.tree.resolve v.path.toPath = .ok (.file content) := by
  obtain ⟨es, hes, hmem⟩ := h.leads
  have hfind := Entry.find?_name (FileTree.distinct_at (FileTree.entriesAt_of_resolve hes)) hmem
  obtain ⟨here, above, e⟩ := v
  cases e with
  | file n content =>
    have hfile := FileTree.resolve_child_of_file hes hfind
    exact ⟨fun _ => ⟨content, hfile⟩, fun _ => .file⟩
  | directory n inner =>
    have hdirectory := FileTree.resolve_child_of_directory hes hfind
    constructor
    · intro hfile
      cases hfile
    · intro hfile
      obtain ⟨content, hcontent⟩ := hfile
      cases hdirectory.symm.trans hcontent
  | link n target =>
    constructor
    · intro hfile
      cases hfile with
      | link leads => exact ⟨_, leads⟩
    · intro hfile
      obtain ⟨content, hcontent⟩ := hfile
      exact .link hcontent

/-- A walk that succeeds lists what it comes to by a path that leads to a file. -/
theorem mem_filesFrom_iff {files : List TreePath}
    (hroot : w.tree.resolve (TreePath.mk root []).toPath = .ok (.directory location es))
    (h : w.filesFrom root = .ok files) (p : TreePath) :
    p ∈ files ↔ ∃ v, w.Meets root v ∧ p = v.path ∧
      ∃ content, w.tree.resolve p.toPath = .ok (.file content) := by
  rw [mem_filesFrom hroot h]
  constructor
  · rintro ⟨v, hv, hfile, rfl⟩
    exact ⟨v, hv, rfl, (isFile_iff hv).1 hfile⟩
  · rintro ⟨v, hv, rfl, hfile⟩
    exact ⟨v, hv, (isFile_iff hv).2 hfile, rfl⟩

/-- A walk comes to everything that real directories hold that are not left out. -/
theorem exists_meets
    (hroot : w.tree.resolve (TreePath.mk root []).toPath = .ok (.directory location es))
    {names : List FileName} {inner : List Entry} (hnames : entriesBelow es names = some inner)
    (hincluded : ∀ n ∈ names, w.excludes n = false) {e : Entry} (he : e ∈ inner) :
    ∃ v, w.Meets root v ∧ v.here.path = ⟨root, names⟩ ∧ v.entry = e := by
  induction names using List.reverseRecOn generalizing inner e with
  | nil =>
    cases hnames
    exact ⟨_, meets_first hroot he, rfl, rfl⟩
  | append_singleton names n ih =>
    rw [FileTree.entriesBelow_append, Option.bind_eq_some_iff] at hnames
    obtain ⟨outer, houter, hinner⟩ := hnames
    rw [entriesBelow] at hinner
    split at hinner
    · next m inner' hfind =>
      cases hinner
      obtain ⟨hmem, rfl⟩ := Entry.name_of_find? hfind
      obtain ⟨v, hv, hpath, hentry⟩ :=
        ih houter (fun n hn => hincluded n (List.mem_append_left _ hn)) hmem
      have henters : v.Enters w ⟨v.here.path.child m, v.here.location ++ [m]⟩ inner := by
        obtain ⟨here, above, entry⟩ := v
        cases hentry
        exact .directory (hincluded m (by simp [Entry.name]))
      refine ⟨_, hv.next henters he, ?_, rfl⟩
      rw [hpath]
      rfl
    · contradiction

/-- A walk that follows no links comes to nothing else. -/
theorem Meets.entriesBelow (hw : w.followLinks = false)
    (hroot : w.tree.resolve (TreePath.mk root []).toPath = .ok (.directory location es))
    (h : w.Meets root v) :
    ∃ names inner, v.here.path = ⟨root, names⟩ ∧ entriesBelow es names = some inner ∧
      v.entry ∈ inner ∧ ∀ n ∈ names, w.excludes n = false := by
  induction h using Meets.induct with
  | @first location' es' e hroot' he =>
    rw [hroot] at hroot'
    cases hroot'
    exact ⟨[], es, rfl, rfl, he, by simp⟩
  | @next v d inner f hv henters hf ih =>
    obtain ⟨names, outer, hpath, houter, hmem, hincluded⟩ := ih
    cases henters with
    | @directory here above n inner included =>
      have hdistinct : Entry.haveDistinctNames outer = true :=
        FileTree.haveDistinctNames_of_entriesBelow
          (FileTree.distinct_at (FileTree.entriesAt_of_resolve hroot)) houter
      refine ⟨names ++ [n], inner, ?_, ?_, hf, ?_⟩
      · rw [hpath]
        rfl
      · rw [FileTree.entriesBelow_append, houter]
        have hfind := Entry.find?_name hdistinct hmem
        simp only [Entry.name] at hfind
        simp [FileTree.entriesBelow, hfind]
      · intro m hm
        rcases List.mem_append.1 hm with hm | hm
        · exact hincluded m hm
        · rw [List.mem_singleton.1 hm]
          exact included
    | link follows => simp [hw] at follows

/-- Nothing ends a walk that follows no links. -/
theorem not_stops_of_unfollowed {err : WalkError} (hw : w.followLinks = false) : ¬ v.Stops w err := by
  intro h
  cases h with
  | unreachable follows => simp [hw] at follows
  | loop follows => simp [hw] at follows

/-- A walk that follows no links lists the paths that lead to files, from real directories that are not
left out. -/
theorem mem_filesFrom_of_unfollowed {files : List TreePath} (hw : w.followLinks = false)
    (hroot : w.tree.resolve (TreePath.mk root []).toPath = .ok (.directory location es))
    (h : w.filesFrom root = .ok files) (p : TreePath) :
    p ∈ files ↔ ∃ names n, p = ⟨root, names ++ [n]⟩ ∧ (entriesBelow es names).isSome ∧
      (∀ m ∈ names, w.excludes m = false) ∧
        ∃ content, w.tree.resolve p.toPath = .ok (.file content) := by
  rw [mem_filesFrom_iff hroot h]
  constructor
  · intro hp
    obtain ⟨v, hv, rfl, hfile⟩ := hp
    obtain ⟨names, inner, hpath, hinner, hmem, hincluded⟩ := hv.entriesBelow hw hroot
    refine ⟨names, v.entry.name, ?_, by simp [hinner], hincluded, hfile⟩
    rw [Encounter.path, hpath]
    rfl
  · intro hp
    obtain ⟨names, n, rfl, hinner, hincluded, content, hcontent⟩ := hp
    obtain ⟨inner, hinner⟩ := Option.isSome_iff_exists.1 hinner
    -- the path goes through real directories, so its last name stands in the last of them
    have hlast := FileTree.resolve_below hroot hinner
    obtain ⟨e, hfind⟩ := FileTree.exists_find?_of_resolve_child hlast hcontent
    obtain ⟨hmem, hname⟩ := Entry.name_of_find? hfind
    obtain ⟨v, hv, hpath, rfl⟩ := exists_meets hroot hinner hincluded hmem
    have hvpath : v.path = ⟨root, names ++ [n]⟩ := by
      rw [Encounter.path, hpath, hname]
      rfl
    exact ⟨v, hv, hvpath.symm, content, hcontent⟩

end Walk

/-! ## Source files -/

/-- A name without its extension, unless the extension is all of it. -/
theorem Path.stem_append (base : String) :
    Path.stem (base ++ ".py") = if base = "" then ".py" else base := by
  have hreversed : ((base ++ ".py").toList.reverse.dropWhile (· != '.')) =
      '.' :: base.toList.reverse := by
    simp [String.toList_append]
  rw [Path.stem, hreversed]
  cases hbase : base.toList.reverse with
  | nil =>
    obtain rfl : base = "" := by simpa using hbase
    rfl
  | cons c before =>
    have hne : base ≠ "" := by
      rintro rfl
      simp at hbase
    simp only [if_neg hne, ← hbase, List.reverse_reverse, String.ofList_toList]

/-- A name belongs to the language if it has the extension as its suffix. -/
theorem Language.matchesFileName_iff_suffix {name : String} :
    Language.python.matchesFileName name = true ↔ ".py".toList <:+ name.toList := by
  simp [matchesFileName, extensions]

/-- A name belongs to the language if it ends in the extension. -/
theorem Language.matchesFileName_iff {name : String} :
    Language.python.matchesFileName name = true ↔ ∃ base, name = base ++ ".py" := by
  rw [matchesFileName_iff_suffix]
  constructor
  · intro h
    obtain ⟨base, hbase⟩ := h
    refine ⟨String.ofList base, String.toList_inj.1 ?_⟩
    rw [String.toList_append, String.toList_ofList, hbase]
  · rintro ⟨base, rfl⟩
    exact ⟨base.toList, String.toList_append.symm⟩

/-- A file holds a module if its name has the extension, and the module has the name without it. -/
theorem Language.moduleOfFileName?_eq_some_iff {name module : String} :
    Language.python.moduleOfFileName? name = some module ↔
      ∃ base, name = base ++ ".py" ∧ module = if base = "" then ".py" else base := by
  rw [moduleOfFileName?, Option.ite_none_right_eq_some, matchesFileName_iff]
  constructor
  · rintro ⟨⟨base, rfl⟩, hmodule⟩
    rw [Path.stem_append] at hmodule
    exact ⟨base, rfl, (Option.some.inj hmodule).symm⟩
  · rintro ⟨base, rfl, rfl⟩
    exact ⟨⟨base, rfl⟩, by rw [Path.stem_append]⟩

/-- A configuration leaves out the directories that have a name of its list. -/
theorem Configuration.excludes_iff {c : Configuration} {n : FileName} :
    c.excludes n = true ↔ ∃ d ∈ c.excludedDirectories, n = .ofString d := by
  simp only [excludes, isExcluded, Option.any_eq_true, FileName.text?_eq_some_iff,
    List.contains_iff_mem]
  exact exists_congr fun d => and_comm

/-- A configuration goes into the directories that have no name of its list. -/
theorem Configuration.excludes_eq_false_iff {c : Configuration} {n : FileName} :
    c.excludes n = false ↔ ∀ d ∈ c.excludedDirectories, n ≠ .ofString d := by
  rw [← Bool.not_eq_true, excludes_iff]
  simp

/-- There is a source file at a path if the file name there has the extension. -/
theorem SourceFile.at?_eq_some_iff {path : TreePath} {f : SourceFile} :
    SourceFile.at? .python path = some f ↔ f.path = path ∧
      ∃ base, path.fileName? = some (base ++ ".py") ∧
        f.module = if base = "" then ".py" else base := by
  obtain ⟨p, module⟩ := f
  simp only [at?, Option.bind_eq_some_iff, Option.map_eq_some_iff, mk.injEq,
    Language.moduleOfFileName?_eq_some_iff]
  constructor
  · rintro ⟨_, hname, _, ⟨base, rfl, rfl⟩, rfl, rfl⟩
    exact ⟨rfl, base, hname, rfl⟩
  · rintro ⟨rfl, base, hname, rfl⟩
    exact ⟨_, hname, _, ⟨base, rfl, rfl⟩, rfl, rfl⟩

/-- The file name at the end of a path is the text of its last name. -/
theorem TreePath.fileName?_eq_some_iff {root : String} {names : List FileName} {n : FileName}
    {text : String} :
    (TreePath.mk root (names ++ [n])).fileName? = some text ↔ n = .ofString text := by
  rw [fileName?, List.getLast?_append, List.getLast?_singleton, Option.some_or,
    FileName.text?_eq_some_iff]

/-- The source files below a root directory with the given entries: real directories that are not left
out lead to the file, whose name has the extension, and the path leads to a file. -/
inductive IsSourceBelow (c : Configuration) (t : FileTree) (root : String) (es : List Entry) :
    SourceFile → Prop where
  | mk (names : List FileName) (base : String) {inner : List Entry} {content : ByteArray}
      (directories : entriesBelow es names = some inner)
      (included : ∀ n ∈ names, ∀ d ∈ c.excludedDirectories, n ≠ .ofString d)
      (leads : t.resolve (TreePath.mk root (names ++ [.ofString (base ++ ".py")])).toPath =
        .ok (.file content)) :
      IsSourceBelow c t root es
        ⟨⟨root, names ++ [.ofString (base ++ ".py")]⟩, if base = "" then ".py" else base⟩

variable {c : Configuration} {t : FileTree} {root : String}

/-- Discovery lists the source files among the files that the walk lists. -/
theorem discover_eq_ok_iff {files : List SourceFile} :
    discover c t root = .ok files ↔ ∃ paths, (c.walk t).filesFrom root = .ok paths ∧
      paths.filterMap (SourceFile.at? .python) = files := by
  rw [discover, Walk.map_eq_ok_iff]

/-- Discovery fails exactly where the walk does, and with its error. -/
theorem discover_eq_error_iff {err : WalkError} :
    discover c t root = .error err ↔ (c.walk t).filesFrom root = .error err := by
  rw [discover, Walk.map_eq_error_iff]

/-- The module of a discovered file is called like the file without its extension. -/
theorem module_of_mem_discover {files : List SourceFile} (h : discover c t root = .ok files)
    {f : SourceFile} (hf : f ∈ files) :
    ∃ base, f.path.fileName? = some (base ++ ".py") ∧ f.module = if base = "" then ".py" else base := by
  obtain ⟨paths, -, rfl⟩ := discover_eq_ok_iff.1 h
  obtain ⟨path, -, hat⟩ := List.mem_filterMap.1 hf
  obtain ⟨rfl, hmodule⟩ := SourceFile.at?_eq_some_iff.1 hat
  exact hmodule

/-- The discovered files come in strictly increasing order of the names on their paths. -/
theorem discover_sorted {files : List SourceFile} (h : discover c t root = .ok files) :
    files.Pairwise fun f g => compare f.path.below g.path.below = .lt := by
  obtain ⟨paths, hpaths, rfl⟩ := discover_eq_ok_iff.1 h
  have hsorted := Walk.filesFrom_sorted (w := c.walk t) hpaths
  rw [List.pairwise_filterMap]
  refine hsorted.imp ?_
  intro p q hpq f hf g hg
  rw [(SourceFile.at?_eq_some_iff.1 hf).1, (SourceFile.at?_eq_some_iff.1 hg).1]
  exact hpq

/-- Where links are not followed, the source files below the root are found, and nothing else. -/
theorem mem_discover_iff (hc : c.followLinks = false) {location : Location} {es : List Entry}
    (hroot : t.resolve (TreePath.mk root []).toPath = .ok (.directory location es))
    {files : List SourceFile} (h : discover c t root = .ok files) (f : SourceFile) :
    f ∈ files ↔ IsSourceBelow c t root es f := by
  obtain ⟨paths, hpaths, rfl⟩ := discover_eq_ok_iff.1 h
  have hmem := Walk.mem_filesFrom_of_unfollowed (w := c.walk t) hc hroot hpaths
  rw [List.mem_filterMap]
  constructor
  · rintro ⟨p, hp, hf⟩
    obtain ⟨names, n, rfl, hnames, hincluded, content, hcontent⟩ := (hmem p).1 hp
    obtain ⟨path, module⟩ := f
    obtain ⟨rfl, base, hname, rfl⟩ := SourceFile.at?_eq_some_iff.1 hf
    obtain rfl := TreePath.fileName?_eq_some_iff.1 hname
    obtain ⟨inner, hinner⟩ := Option.isSome_iff_exists.1 hnames
    refine .mk names base hinner ?_ hcontent
    intro m hm
    exact Configuration.excludes_eq_false_iff.1 (hincluded m hm)
  · intro hf
    cases hf with
    | mk names base directories included leads =>
      refine ⟨⟨root, names ++ [.ofString (base ++ ".py")]⟩, (hmem _).2 ?_, ?_⟩
      · exact ⟨names, _, rfl, by simp [directories],
          fun m hm => Configuration.excludes_eq_false_iff.2 (included m hm), _, leads⟩
      · exact SourceFile.at?_eq_some_iff.2 ⟨rfl, base, TreePath.fileName?_eq_some_iff.2 rfl, rfl⟩

namespace LinkedTree

/-! ## A tree with links

The directory `repo` has a directory and files, a link to a file, one to a directory and one that leads
nowhere. -/

/-- What is in the directory `repo`. -/
def entries : List Entry :=
  [.directory (.ofString "build") [.file (.ofString "b.py") .empty],
    .directory (.ofString "a") [.file (.ofString "b.py") .empty],
    .file (.ofString "a.py") .empty,
    .file (.ofString "setup.py") .empty,
    .link (.ofString "alias.py") ⟨false, [.name (.ofString "a.py")]⟩,
    .link (.ofString "copy") ⟨false, [.name (.ofString "a")]⟩,
    .link (.ofString "gone.py") ⟨false, [.name (.ofString "c.py")]⟩]

/-- No name in the sample occurs twice. -/
theorem distinct_entries :
    Entry.haveDistinctNames [.directory (.ofString "repo") entries] = true := by
  simp [Entry.haveDistinctNames, Entry.hasDistinctNames, entries, Entry.name]

/-- The tree that has the directory `repo`. -/
def tree : FileTree :=
  { entries := [.directory (.ofString "repo") entries], distinct := distinct_entries }

/-- Leaves out directories that are called `build` or `setup.py`. -/
def configuration : Configuration := { excludedDirectories := ["build", "setup.py"] }

/-- The root of the sample is the directory `repo`. -/
theorem resolve_repo :
    tree.resolve (Path.ofString "repo") = .ok (.directory [.ofString "repo"] entries) := by
  rw [← TreePath.toPath_root, TreePath.toPath_repo, FileTree.resolve, FileTree.linkLimit,
    FileTree.follow]
  simp [Path.isEmpty, FileTree.take, FileTree.entriesAt, FileTree.entriesBelow, FileTree.startOf, tree,
    Entry.find?, Entry.name]

/-- Whether a path leads to a file. -/
def leadsToFile (p : TreePath) : Bool :=
  match tree.resolve p.toPath with
  | .ok (.file _) => true
  | _ => false

/-- The test by evaluation says where paths of the sample lead to files. -/
theorem leadsToFile_iff {p : TreePath} :
    leadsToFile p = true ↔ ∃ content, tree.resolve p.toPath = .ok (.file content) := by
  rw [leadsToFile]
  split <;> simp_all

end LinkedTree

/-- Discovery without following links is exact. From a directory it lists the source files below, each
of them once and in the order of the names on their paths; from a file it lists that file, if its name
has the extension; and it fails where the root leads nowhere. -/
theorem discover_exact (c : Configuration) (t : FileTree) (root : String)
    (hc : c.followLinks = false) :
    match t.resolve (Path.ofString root) with
    | .ok (.directory _ es) => ∃ files, discover c t root = .ok files ∧
        (∀ f, f ∈ files ↔ IsSourceBelow c t root es f) ∧ (files.map (·.path)).Nodup ∧
        files.Pairwise fun f g => compare f.path.below g.path.below = .lt
    | .ok (.file _) =>
        (∀ base, Path.fileName? root = some (base ++ ".py") →
          discover c t root = .ok [⟨⟨root, []⟩, if base = "" then ".py" else base⟩]) ∧
        ((∀ base, Path.fileName? root ≠ some (base ++ ".py")) → discover c t root = .ok [])
    | .error cause => discover c t root = .error (.unreachable ⟨root, []⟩ cause) := by
  rw [← TreePath.toPath_root]
  cases hroot : t.resolve (TreePath.mk root []).toPath with
  | error cause =>
    refine discover_eq_error_iff.2 ?_
    simp only [Walk.filesFrom, Configuration.walk, hroot]
  | ok target =>
    cases target with
    | file content =>
      have hfiles : (c.walk t).filesFrom root = .ok [⟨root, []⟩] := by
        simp only [Walk.filesFrom, Configuration.walk, hroot]
      constructor
      · intro base hbase
        have hat : SourceFile.at? .python ⟨root, []⟩ =
            some ⟨⟨root, []⟩, if base = "" then ".py" else base⟩ :=
          SourceFile.at?_eq_some_iff.2 ⟨rfl, base, hbase, rfl⟩
        refine discover_eq_ok_iff.2 ⟨_, hfiles, ?_⟩
        rw [List.filterMap_cons_some hat, List.filterMap_nil]
      · intro hname
        refine discover_eq_ok_iff.2 ⟨_, hfiles, List.filterMap_eq_nil_iff.2 ?_⟩
        intro p hp
        obtain rfl := List.mem_singleton.1 hp
        refine Option.eq_none_iff_forall_ne_some.2 ?_
        intro f hf
        obtain ⟨-, base, hbase, -⟩ := SourceFile.at?_eq_some_iff.1 hf
        exact hname base hbase
    | directory location es =>
      obtain ⟨paths, hpaths⟩ := (Walk.filesFrom_ok_iff (w := c.walk t) hroot).2
        fun v _ err => Walk.not_stops_of_unfollowed hc
      have hfiles := discover_eq_ok_iff.2 ⟨paths, hpaths, rfl⟩
      have hsorted := discover_sorted hfiles
      have hnodup := TreePath.nodup_of_sorted (List.pairwise_map.2 hsorted)
      exact ⟨_, hfiles, mem_discover_iff hc hroot hfiles, hnodup, hsorted⟩

section LinkedTree

open LinkedTree

/-- In the sample a file is found below a directory and one through a link, and one that has the name of
a directory to leave out. Nothing is found below such a directory, nor through the link that leads
nowhere. -/
theorem linkedTree_discover :
    configuration.followLinks = false ∧
      ∃ files, discover configuration tree "repo" = .ok files ∧
        ⟨⟨"repo", [.ofString "a", .ofString "b.py"]⟩, "b"⟩ ∈ files ∧
        ⟨⟨"repo", [.ofString "alias.py"]⟩, "alias"⟩ ∈ files ∧
        ⟨⟨"repo", [.ofString "setup.py"]⟩, "setup"⟩ ∈ files ∧
        ∀ f ∈ files, f.path.below ≠ [.ofString "build", .ofString "b.py"] ∧
          f.path.below ≠ [.ofString "gone.py"] := by
  have h := discover_exact configuration tree "repo" rfl
  rw [resolve_repo] at h
  obtain ⟨files, hfiles, hmem, -, -⟩ := h
  refine ⟨rfl, files, hfiles, (hmem _).2 ?_, (hmem _).2 ?_, (hmem _).2 ?_, ?_⟩
  · obtain ⟨content, hleads⟩ := leadsToFile_iff.1
      (show leadsToFile ⟨"repo", [.ofString "a", .ofString "b.py"]⟩ = true by decide +kernel)
    have hdirectory : entriesBelow entries [.ofString "a"] =
        some [.file (.ofString "b.py") .empty] := by
      simp [entriesBelow, entries, Entry.find?, Entry.name]
    exact .mk [.ofString "a"] "b" hdirectory (by simp [configuration]) hleads
  · obtain ⟨content, hleads⟩ := leadsToFile_iff.1
      (show leadsToFile ⟨"repo", [.ofString "alias.py"]⟩ = true by decide +kernel)
    exact .mk [] "alias" rfl (by simp) hleads
  · obtain ⟨content, hleads⟩ := leadsToFile_iff.1
      (show leadsToFile ⟨"repo", [.ofString "setup.py"]⟩ = true by decide +kernel)
    exact .mk [] "setup" rfl (by simp) hleads
  · intro f hf
    obtain ⟨names, base, -, included, leads⟩ := (hmem f).1 hf
    constructor
    · intro hpath
      have hnames : names = [.ofString "build"] := by simpa using congrArg List.dropLast hpath
      exact included (.ofString "build") (by simp [hnames]) "build" (by simp [configuration]) rfl
    · intro hpath
      have hpath : names ++ [.ofString (base ++ ".py")] = [.ofString "gone.py"] := hpath
      rw [hpath] at leads
      have hfile := leadsToFile_iff.2 ⟨_, leads⟩
      exact absurd hfile (by decide +kernel)

end LinkedTree

end BareCallGraph
