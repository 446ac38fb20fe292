import BareCallGraph.FileTree.Edit
import BareCallGraph.Proofs.DiscoveredFiles
import BareCallGraph.Proofs.LinkLimit
import BareCallGraph.Proofs.Passes

/-!
# Spellings of a root

A root is part of the path of every file below it and of nothing else. Walks from two roots that lead to
one directory meet the same entries by the same names, and end alike, if what they meet leads to the same
from both roots. This is so for roots that differ in dots and slashes only. It is so for all other roots
too as long as the limit of links makes no difference: a root that is itself reached through links leaves
fewer of them for what is below.
-/

namespace BareCallGraph

/-! ## Paths below a root -/

namespace TreePath

/-- The same names below another root. -/
def rerooted (p : TreePath) (root : String) : TreePath := { p with root := root }

/-- The path without its root, as it appears in messages. -/
def relative (p : TreePath) : String := (TreePath.mk "" p.below).shown

/-- What stands between a path and a name that is added to it. -/
def separator (path : String) : String :=
  if path = "" ∨ path.toList.getLast? = some '/' then "" else "/"

/-- Joining puts a separator between a path and a name, if one is needed. -/
theorem join_eq (path name : String) : join path name = path ++ separator path ++ name := by
  simp only [join, separator, String.isEmpty_iff]
  split <;> simp

/-- Whether a separator is needed depends on what comes last. -/
theorem separator_append (path : String) {name : String} (h : name ≠ "") :
    separator (path ++ name) = separator name := by
  have hlist : name.toList ≠ [] := by simpa using h
  simp only [separator, String.toList_append, List.getLast?_append_of_ne_nil _ hlist, h, false_or]
  simp [h]

/-- No separator is needed behind a separator. -/
theorem separator_separated (path : String) : separator (path ++ separator path) = "" := by
  by_cases h : path = "" ∨ path.toList.getLast? = some '/'
  · simp [separator, h]
  · rw [separator, separator, if_neg h]
    simp

/-- It does not matter in which order names are joined. -/
theorem join_assoc (a b c : String) : join (join a b) c = join a (join b c) := by
  simp only [join_eq]
  by_cases hb : b = ""
  · have hnone : separator "" = "" := rfl
    rw [hb, String.append_empty, separator_separated, hnone]
    simp
  · rw [separator_append _ hb]
    simp only [String.append_assoc]

/-- A path is its root, a slash unless the root ends in one, and what is below. -/
theorem shown_eq_join {p : TreePath} (h : p.below ≠ []) : p.shown = join p.root p.relative := by
  obtain ⟨root, below⟩ := p
  obtain ⟨n, ns, rfl⟩ := List.exists_cons_of_ne_nil h
  have hfold (path : String) : ns.foldl (fun path n => join path n.shown) (join root path) =
      join root (ns.foldl (fun path n => join path n.shown) path) := by
    induction ns generalizing path with
    | nil => rfl
    | cons m ns ih => rw [List.foldl_cons, List.foldl_cons, join_assoc, ih (by simp)]
  have hfirst : join "" n.shown = n.shown := by simp [join]
  rw [relative, shown, shown, List.foldl_cons, List.foldl_cons, hfirst]
  exact hfold n.shown

/-- A path is shown as the root, a slash unless the root ends in one, and the path relative to the root.
-/
theorem shown_eq {root : String} {names : List FileName} (hroot : root ≠ "") (hnames : names ≠ []) :
    (TreePath.mk root names).shown =
      (if root.toList.getLast? = some '/' then root else root ++ "/") ++
        (TreePath.mk root names).relative := by
  rw [shown_eq_join hnames, join_eq, separator]
  simp only [hroot, false_or]
  split <;> simp

end TreePath

/-- The same directory, reached from another root. -/
def OpenDirectory.rerooted (d : OpenDirectory) (root : String) : OpenDirectory :=
  { d with path := d.path.rerooted root }

/-- The same error, met from another root. -/
def WalkError.rerooted (root : String) : WalkError → WalkError
  | unreachable path cause => .unreachable (path.rerooted root) cause
  | loop path ancestor => .loop (path.rerooted root) (ancestor.rerooted root)

/-- The same file, found from another root. -/
def SourceFile.rerooted (f : SourceFile) (root : String) : SourceFile :=
  { f with path := f.path.rerooted root }

namespace Encounter

variable {w : Walk} {v : Encounter} {root : String}

/-- The same entry, met from another root. -/
def rerooted (v : Encounter) (root : String) : Encounter :=
  ⟨v.here.rerooted root, v.above.map (·.rerooted root), v.entry⟩

/-- What an entry leads to is the same from another root. -/
def LeadsAlike (w : Walk) (root : String) (v : Encounter) : Prop :=
  w.tree.resolve (v.path.rerooted root).toPath = w.tree.resolve v.path.toPath

/-- An entry that leads to the same from another root is a file from both. -/
theorem isFile_rerooted (h : v.LeadsAlike w root) : (v.rerooted root).IsFile w ↔ v.IsFile w := by
  obtain ⟨here, above, e⟩ := v
  constructor
  · intro hfile
    cases e with
    | file n content => exact .file
    | directory n es => cases hfile
    | link n target =>
      cases hfile with
      | link leads => exact .link (h.symm.trans leads)
  · intro hfile
    cases hfile with
    | file => exact .file
    | link leads => exact .link (h.trans leads)

/-- A walk goes into an entry from another root too, if the entry leads to the same. -/
theorem Enters.rerooted {d : OpenDirectory} {es : List Entry} (h : v.LeadsAlike w root)
    (henters : v.Enters w d es) : (v.rerooted root).Enters w (d.rerooted root) es := by
  cases henters with
  | directory included => exact .directory included
  | link follows leads fresh included =>
    refine .link follows (h.trans leads) ?_ included
    simpa [OpenDirectory.rerooted] using fresh

/-- What a walk goes into from another root it goes into from the first, if the entry leads to the same.
-/
theorem exists_enters_of_rerooted {d : OpenDirectory} {es : List Entry} (h : v.LeadsAlike w root)
    (henters : (v.rerooted root).Enters w d es) : ∃ d', v.Enters w d' es := by
  obtain ⟨here, above, e⟩ := v
  cases e with
  | file n content => cases henters
  | directory n inner =>
    cases henters with
    | directory included => exact ⟨_, .directory included⟩
  | link n target =>
    cases henters with
    | link follows leads fresh included =>
      refine ⟨_, .link follows (h.symm.trans leads) ?_ included⟩
      simpa [OpenDirectory.rerooted] using fresh

/-- An entry ends a walk from another root with the same error. -/
theorem stops_rerooted {err : WalkError} (h : v.LeadsAlike w root) :
    (v.rerooted root).Stops w err ↔ ∃ err', v.Stops w err' ∧ err = err'.rerooted root := by
  obtain ⟨here, above, e⟩ := v
  cases e with
  | file n content =>
    constructor
    · intro hstops
      cases hstops
    · rintro ⟨err', hstops, -⟩
      cases hstops
  | directory n es =>
    constructor
    · intro hstops
      cases hstops
    · rintro ⟨err', hstops, -⟩
      cases hstops
  | link n target =>
    have hleads : w.tree.resolve ((here.rerooted root).path.child n).toPath =
        w.tree.resolve (here.path.child n).toPath := h
    have hfind (location : Location) :
        (here.rerooted root :: above.map (·.rerooted root)).find? (·.location == location) =
          ((here :: above).find? (·.location == location)).map (·.rerooted root) := by
      have hmap : ((here :: above).map (·.rerooted root)).find? (·.location == location) = _ :=
        List.find?_map
      exact hmap
    rw [rerooted, stops_link_iff, hleads]
    constructor
    · rintro ⟨follows, ⟨cause, leads, rfl⟩ | ⟨location, es, ancestor, leads, hancestor, rfl⟩⟩
      · exact ⟨_, stops_link_iff.2 ⟨follows, .inl ⟨cause, leads, rfl⟩⟩, rfl⟩
      · rw [hfind, Option.map_eq_some_iff] at hancestor
        obtain ⟨d, hd, rfl⟩ := hancestor
        exact ⟨_, stops_link_iff.2 ⟨follows, .inr ⟨location, es, d, leads, hd, rfl⟩⟩, rfl⟩
    · rintro ⟨err', hstops, rfl⟩
      rw [stops_link_iff] at hstops
      obtain ⟨follows, ⟨cause, leads, rfl⟩ | ⟨location, es, ancestor, leads, hancestor, rfl⟩⟩ := hstops
      · exact ⟨follows, .inl ⟨cause, leads, rfl⟩⟩
      · refine ⟨follows, .inr ⟨location, es, ancestor.rerooted root, leads, ?_, rfl⟩⟩
        rw [hfind, hancestor, Option.map_some]

end Encounter

namespace Walk

/-- What a walk ends with from another root. -/
def resultFrom (root : String) :
    Except WalkError (List TreePath) → Except WalkError (List TreePath)
  | .error err => .error (err.rerooted root)
  | .ok files => .ok (files.map (·.rerooted root))

/-- Files that are listed before are listed from the other root too. -/
theorem resultFrom_map_append (root : String) (files : List TreePath)
    (result : Except WalkError (List TreePath)) :
    resultFrom root (result.map (files ++ ·)) =
      (resultFrom root result).map (files.map (·.rerooted root) ++ ·) := by
  cases result with
  | error err => rfl
  | ok later => simp [resultFrom, Except.map]

variable {w : Walk} {here : OpenDirectory} {above : List OpenDirectory} {es : List Entry}
  {result result' : Except WalkError (List TreePath)} {root : String}

/-- What is reached inside a directory that is entered is reached. -/
theorem reachesFrom_of_inside {d : OpenDirectory} {e : Entry} {inner : List Entry} {v : Encounter}
    (enters : Encounter.Enters w ⟨here, above, e⟩ d inner)
    (h : w.ReachesFrom d (here :: above) (Entry.sortedByName inner) v) :
    w.ReachesFrom here above (e :: es) v := by
  refine reachesFrom_cons.2 (.inl ?_)
  exact (reaches_of_enters enters).2 (.inr (reachesFrom_sortedByName.1 h))

/-- A run from another root ends alike, if all that is met leads to the same. -/
theorem Run.rerooted (h : w.Run here above es result)
    (halike : ∀ v, w.ReachesFrom here above es v → v.LeadsAlike w root)
    (h' : w.Run (here.rerooted root) (above.map (·.rerooted root)) es result') :
    result' = resultFrom root result := by
  induction h generalizing result' with
  | done =>
    cases h'
    rfl
  | @stop here above e es err stops =>
    have hfirst := halike ⟨here, above, e⟩ (reachesFrom_cons.2 (.inl .refl))
    exact h'.of_stops ((Encounter.stops_rerooted hfirst).2 ⟨err, stops, rfl⟩)
  | @list here above e es result isFile later ih =>
    have hfirst := halike ⟨here, above, e⟩ (reachesFrom_cons.2 (.inl .refl))
    obtain ⟨later', hlater', rfl⟩ := h'.of_isFile ((Encounter.isFile_rerooted hfirst).2 isFile)
    rw [ih (fun v hv => halike v (reachesFrom_cons.2 (.inr hv))) hlater', resultFrom_map_append]
    rfl
  | @pass here above e es result notFile notEntered notStopped later ih =>
    have hfirst := halike ⟨here, above, e⟩ (reachesFrom_cons.2 (.inl .refl))
    refine ih (fun v hv => halike v (reachesFrom_cons.2 (.inr hv))) (h'.of_passed ?_ ?_ ?_)
    · intro isFile
      exact notFile ((Encounter.isFile_rerooted hfirst).1 isFile)
    · intro d inner enters
      obtain ⟨d', henters⟩ := Encounter.exists_enters_of_rerooted hfirst enters
      exact notEntered d' inner henters
    · intro err stops
      obtain ⟨err', hstops, -⟩ := (Encounter.stops_rerooted hfirst).1 stops
      exact notStopped err' hstops
  | @fail here d above e es inner err enters inside ih =>
    have hfirst := halike ⟨here, above, e⟩ (reachesFrom_cons.2 (.inl .refl))
    have hinside := fun v hv => halike v (reachesFrom_of_inside enters hv)
    rcases h'.of_enters (enters.rerooted hfirst) with ⟨err', inside', rfl⟩ | ⟨files, later, inside', -, rfl⟩
    · exact ih hinside inside'
    · cases ih hinside inside'
  | @enter here d above e es inner files result enters inside later ihInside ih =>
    have hfirst := halike ⟨here, above, e⟩ (reachesFrom_cons.2 (.inl .refl))
    have hinside := fun v hv => halike v (reachesFrom_of_inside enters hv)
    rcases h'.of_enters (enters.rerooted hfirst) with
      ⟨err', inside', rfl⟩ | ⟨files', later', inside', hlater', rfl⟩
    · cases ihInside hinside inside'
    · cases ihInside hinside inside'
      rw [ih (fun v hv => halike v (reachesFrom_cons.2 (.inr hv))) hlater', resultFrom_map_append]

/-- The limit of links makes no difference between two roots: none of the entries that the walk meets
runs into it from one of them only. -/
def LimitedAlike (w : Walk) (root root' : String) : Prop :=
  ∀ v, w.Meets root v → (w.tree.resolve v.path.toPath = .error .tooManyLinks ↔
    w.tree.resolve (v.path.rerooted root').toPath = .error .tooManyLinks)

variable {v : Encounter} {root' : String} {location : Location}

/-- What a walk comes to has a path below the root. -/
theorem Meets.path_eq (h : w.Meets root v) : ∃ names, names ≠ [] ∧ v.path = ⟨root, names⟩ := by
  obtain ⟨location, es, -, hreaches⟩ := h
  obtain ⟨hroot, e, -, rest, hbelow⟩ := hreaches.path
  refine ⟨v.path.below, by simp [hbelow], ?_⟩
  exact congrArg (TreePath.mk · v.path.below) hroot

/-- Spellings that differ in dots and slashes only run into the limit of links alike. -/
theorem limitedAlike_of_sameButForDots (h : Path.SameButForDots root root') :
    w.LimitedAlike root root' := by
  intro v hv
  obtain ⟨names, hnames, hpath⟩ := hv.path_eq
  rw [hpath, TreePath.rerooted, FileTree.resolve_eq_of_sameButForDots h hnames]

section

variable (h : w.tree.resolve (TreePath.mk root []).toPath = .ok (.directory location es))
  (h' : w.tree.resolve (TreePath.mk root' []).toPath = .ok (.directory location es))
  (hlimit : w.LimitedAlike root root')

include h h' hlimit

/-- From spellings that run into the limit alike, what a walk comes to leads to the same. -/
theorem leadsAlike_of_meets (hv : w.Meets root v) : v.LeadsAlike w root' := by
  obtain ⟨names, -, hpath⟩ := hv.path_eq
  have hlimit := hlimit v hv
  rw [hpath] at hlimit
  rw [Encounter.LeadsAlike, hpath]
  exact FileTree.resolve_eq_of_tooManyLinks_iff h h' hlimit

/-- A walk from another root that leads to the same directory ends alike. -/
theorem filesFrom_rerooted : w.filesFrom root' = resultFrom root' (w.filesFrom root) := by
  refine (run_filesFrom h).rerooted ?_ (run_filesFrom h')
  intro v hv
  exact leadsAlike_of_meets h h' hlimit ((meets_iff h).2 hv)

end

end Walk

/-! ## Discovery and analysis -/

/-- A file holds the same module from another root. -/
theorem SourceFile.at?_rerooted {l : Language} {path : TreePath} (h : path.below ≠ [])
    (root : String) :
    SourceFile.at? l (path.rerooted root) = (SourceFile.at? l path).map (·.rerooted root) := by
  have hname : (path.rerooted root).fileName? = path.fileName? := by
    obtain ⟨n, hn⟩ := List.getLast?_isSome.2 h |> Option.isSome_iff_exists.1
    rw [TreePath.fileName?, TreePath.fileName?, TreePath.rerooted, hn]
  rw [at?, at?, hname, Option.map_bind]
  congr 1
  funext name
  rw [Function.comp_apply, Option.map_map]
  rfl

/-- Relations that agree on the members of a list relate the same lists to it. -/
theorem forall₂_congr_of_mem {α β : Type} {R S : α → β → Prop} {xs : List α} {ys : List β}
    (h : ∀ x ∈ xs, ∀ y, R x y ↔ S x y) : List.Forall₂ R xs ys ↔ List.Forall₂ S xs ys := by
  simp only [List.forall₂_iff_zip]
  refine and_congr_right fun _ => ⟨fun hR x y hxy => ?_, fun hS x y hxy => ?_⟩
  · exact (h x (List.of_mem_zip hxy).1 y).1 (hR hxy)
  · exact (h x (List.of_mem_zip hxy).1 y).2 (hS hxy)

/-- A parser makes the same of a text wherever the root of its file is. -/
def Parser.IgnoresRoots (p : Parser) : Prop :=
  ∀ file root source m, p (file.rerooted root) source = .ok m ↔ p file source = .ok m

/-- The parser of Python looks at the name of a module and not at the root. -/
theorem Python.parser_ignoresRoots : Python.parser.IgnoresRoots := by
  intro file root source m
  rw [Python.parser_eq_ok_iff, Python.parser_eq_ok_iff]
  rfl

section

variable {t : FileTree} {c : Configuration} {root root' : String} {location : Location}
  {es : List Entry} {files : List SourceFile}

/-- A source file below a directory is an entry that the walk meets. -/
theorem exists_meets_of_mem_discover
    (h : t.resolve (TreePath.mk root []).toPath = .ok (.directory location es))
    (hfiles : discover c t root = .ok files) {f : SourceFile} (hf : f ∈ files) :
    ∃ v, (c.walk t).Meets root v ∧ f.path = v.path := by
  obtain ⟨paths, hpaths, rfl⟩ := discover_eq_ok_iff.1 hfiles
  obtain ⟨p, hp, hat⟩ := List.mem_filterMap.1 hf
  obtain ⟨v, hv, -, rfl⟩ := (Walk.mem_filesFrom (w := c.walk t) h hpaths p).1 hp
  exact ⟨v, hv, (SourceFile.at?_eq_some_iff.1 hat).1⟩

variable (h : t.resolve (TreePath.mk root []).toPath = .ok (.directory location es))
  (h' : t.resolve (TreePath.mk root' []).toPath = .ok (.directory location es))
  (hlimit : (c.walk t).LimitedAlike root root')

include h h' hlimit

/-- Discovery from another root that leads to the same directory fails alike or finds the same files. -/
theorem discover_rerooted :
    (∃ err, discover c t root = .error err ∧ discover c t root' = .error (err.rerooted root')) ∨
    ∃ files, discover c t root = .ok files ∧
      discover c t root' = .ok (files.map (·.rerooted root')) := by
  have hwalk : (c.walk t).filesFrom root' = Walk.resultFrom root' ((c.walk t).filesFrom root) :=
    Walk.filesFrom_rerooted h h' hlimit
  cases hpaths : (c.walk t).filesFrom root with
  | error err =>
    rw [hpaths] at hwalk
    exact .inl ⟨err, by rw [discover, hpaths]; rfl, by rw [discover, hwalk]; rfl⟩
  | ok paths =>
    rw [hpaths] at hwalk
    have hbelow : ∀ p ∈ paths, p.below ≠ [] := by
      intro p hp
      obtain ⟨v, hv, -, rfl⟩ := (Walk.mem_filesFrom (w := c.walk t) h hpaths p).1 hp
      obtain ⟨names, hnames, hpath⟩ := hv.path_eq
      rwa [hpath]
    have hfiles : (paths.map (·.rerooted root')).filterMap (SourceFile.at? .python) =
        (paths.filterMap (SourceFile.at? .python)).map (·.rerooted root') := by
      rw [List.filterMap_map, List.map_filterMap]
      refine List.filterMap_congr ?_
      intro p hp
      exact SourceFile.at?_rerooted (hbelow p hp) root'
    exact .inr ⟨_, discover_eq_ok_iff.2 ⟨paths, hpaths, rfl⟩,
      discover_eq_ok_iff.2 ⟨_, hwalk, hfiles⟩⟩

/-- A discovered file parses to the same from another root. -/
theorem parsesTo_rerooted {a : Analyzer} (ha : a.parser.IgnoresRoots)
    (hfiles : discover c t root = .ok files) {f : SourceFile} (hf : f ∈ files) (m : ParsedModule) :
    a.ParsesTo t (f.rerooted root') m ↔ a.ParsesTo t f m := by
  obtain ⟨v, hv, hpath⟩ := exists_meets_of_mem_discover h hfiles hf
  have hleads : t.resolve (f.rerooted root').path.toPath = t.resolve f.path.toPath := by
    rw [SourceFile.rerooted, hpath]
    exact Walk.leadsAlike_of_meets (w := c.walk t) h h' hlimit hv
  have hread : t.readText (f.rerooted root').path.toPath = t.readText f.path.toPath := by
    rw [FileTree.readText, FileTree.readText, hleads]
  simp only [Analyzer.ParsesTo, hread, ha f root']

/-- An analysis reads the same modules from another root. -/
theorem exists_reads_rerooted {a : Analyzer} (hc : a.configuration = c) (ha : a.parser.IgnoresRoots)
    (P : List ParsedModule → Prop) :
    (∃ files modules, a.Reads t root' files modules ∧ P modules) ↔
      ∃ files modules, a.Reads t root files modules ∧ P modules := by
  subst hc
  rcases discover_rerooted h h' hlimit with ⟨err, herr, herr'⟩ | ⟨files, hfiles, hfiles'⟩
  · constructor
    · rintro ⟨files, modules, hreads, -⟩
      cases hreads.discovered.symm.trans herr'
    · rintro ⟨files, modules, hreads, -⟩
      cases hreads.discovered.symm.trans herr
  · have hparsed (modules : List ParsedModule) :
        List.Forall₂ (a.ParsesTo t) (files.map (·.rerooted root')) modules ↔
          List.Forall₂ (a.ParsesTo t) files modules := by
      rw [List.forall₂_map_left_iff]
      exact forall₂_congr_of_mem fun f hf m => parsesTo_rerooted h h' hlimit ha hfiles hf m
    constructor
    · rintro ⟨others, modules, hreads, hmodules⟩
      cases hreads.discovered.symm.trans hfiles'
      exact ⟨files, modules, ⟨hfiles, (hparsed modules).1 hreads.parsed⟩, hmodules⟩
    · rintro ⟨others, modules, hreads, hmodules⟩
      cases hreads.discovered.symm.trans hfiles
      exact ⟨_, modules, ⟨hfiles', (hparsed modules).2 hreads.parsed⟩, hmodules⟩

end

/-! ## A root behind many links

The link `s` leads to the directory that it is in, so a path may go through it any number of times. The
directory `d` holds a link that leads to a file and goes through `s` on its way. -/

namespace LinkedRoots

/-- Steps through the link `s`, so many times. -/
def detour (times : Nat) : String := String.join (List.replicate times "s/")

/-- What is in the directory. Its link leads to the file through 24 further links. -/
def inner : List Entry := [.link (.ofString "a.py") (.ofString ("../" ++ detour 24 ++ "c"))]

/-- The directory, the file and the link. -/
def entries : List Entry :=
  [.directory (.ofString "d") inner, .file (.ofString "c") "".toUTF8,
    .link (.ofString "s") (.ofString ".")]

/-- No name in the sample occurs twice. -/
theorem distinct_entries :
    Entry.haveDistinctNames [.directory (.ofString "repo") entries] = true := by
  simp [Entry.haveDistinctNames, Entry.hasDistinctNames, entries, inner, Entry.name]

/-- The tree with the directory, the file and the link. -/
def tree : FileTree :=
  { entries := [.directory (.ofString "repo") entries], distinct := distinct_entries }

/-- The directory, reached through the link `s` so many times. -/
def root (times : Nat) : String := "repo/" ++ detour times ++ "d"

/-- Where the directory stands. -/
def location : Location := [.ofString "repo", .ofString "d"]

/-- The link in the directory, from a root. -/
def linkFrom (r : String) : SourceFile := ⟨⟨r, [.ofString "a.py"]⟩, "a"⟩

theorem rerooted_linkFrom (r r' : String) : (linkFrom r).rerooted r' = linkFrom r' := rfl

/-- The roots lead to one directory. From there the link leads to the file, unless there are more than
40 links in all. -/
theorem leads_up_to_limit :
    (∀ times ∈ [0, 15, 16], (Path.ofString (root times)).absolute = false ∧
      tree.locationFrom [] (Path.ofString (root times)).steps = location) ∧
    (∀ times ∈ [0, 15], tree.readText (linkFrom (root times)).path.toPath = .ok "" ∧
      SourceFile.at? .python (linkFrom (root times)).path = some (linkFrom (root times))) ∧
    tree.readText (linkFrom (root 16)).path.toPath = .error .tooManyLinks := by
  decide +kernel

/-- The directory of the sample holds the link. -/
theorem entriesAt_location : tree.entriesAt location = some inner := by
  simp [tree, entries, location, FileTree.entriesAt, FileTree.entriesBelow, Entry.find?, Entry.name]

/-- The spellings of the root lead to the directory, through up to 16 links. -/
theorem resolve_root {times : Nat} (htimes : times ∈ [0, 15, 16]) :
    tree.resolve (.ofString (root times)) = .ok (.directory location inner) := by
  obtain ⟨habsolute, h⟩ := leads_up_to_limit.1 times htimes
  have hempty : ¬ (Path.ofString (root times)).isEmpty = true := by
    have hne : root times ≠ "" := by simp [root]
    simp [Path.isEmpty_ofString hne]
  have hfollow : ∃ es, tree.follow FileTree.linkLimit [] (Path.ofString (root times)).steps =
      .ok (.directory location es) := by
    rw [FileTree.locationFrom] at h
    split at h
    · next l es hfollow =>
      rw [h] at hfollow
      exact ⟨es, hfollow⟩
    · contradiction
  obtain ⟨es, hes⟩ := hfollow
  cases entriesAt_location.symm.trans (FileTree.entriesAt_of_follow hes)
  rw [FileTree.resolve, if_neg hempty, FileTree.startOf, habsolute]
  exact hes

/-- Through up to 15 links of the root the link leads to the file. -/
theorem exists_file {times : Nat} (htimes : times ∈ [0, 15]) :
    ∃ content, tree.resolve (linkFrom (root times)).path.toPath = .ok (.file content) := by
  have h := (leads_up_to_limit.2.1 times htimes).1
  rw [FileTree.readText] at h
  split at h
  · contradiction
  · contradiction
  · next content hfile => exact ⟨content, hfile⟩

/-- Through 16 links of the root the link leads nowhere: there are too many links. -/
theorem tooManyLinks : tree.resolve (linkFrom (root 16)).path.toPath = .error .tooManyLinks := by
  have h := leads_up_to_limit.2.2
  rw [FileTree.readText] at h
  split at h
  · next e herror =>
    cases h
    exact herror
  · contradiction
  · split at h <;> contradiction

/-- There is one entry to sort. -/
theorem sortedByName_inner : Entry.sortedByName inner = inner := by
  simp [Entry.sortedByName, inner]

/-- If the limit is kept from a root, the link is found. -/
theorem discover_root {times : Nat} (htimes : times ∈ [0, 15]) :
    discover {} tree (root times) = .ok [linkFrom (root times)] := by
  obtain ⟨content, hfile⟩ := exists_file htimes
  have hroot : tree.resolve (TreePath.mk (root times) []).toPath = .ok (.directory location inner) := by
    rw [TreePath.toPath_root]
    exact resolve_root (List.mem_append_left [16] htimes)
  have hlink : tree.resolve ((TreePath.mk (root times) []).child (.ofString "a.py")).toPath = _ := hfile
  refine discover_eq_ok_iff.2 ⟨[(linkFrom (root times)).path], ?_, ?_⟩
  · simp only [Walk.filesFrom, Configuration.walk, hroot, sortedByName_inner]
    simp only [inner, Walk.visitAll, Walk.visit, hlink]
    rfl
  · rw [List.filterMap_cons_some (leads_up_to_limit.2.1 times htimes).2, List.filterMap_nil]

/-- If the limit is exceeded from a root, nothing is found. -/
theorem discover_excessive : discover {} tree (root 16) = .ok [] := by
  have hroot : tree.resolve (TreePath.mk (root 16) []).toPath = .ok (.directory location inner) := by
    rw [TreePath.toPath_root]
    exact resolve_root (by simp)
  have hlink : tree.resolve ((TreePath.mk (root 16) []).child (.ofString "a.py")).toPath = _ :=
    tooManyLinks
  refine discover_eq_ok_iff.2 ⟨[], ?_, rfl⟩
  simp only [Walk.filesFrom, Configuration.walk, hroot, sortedByName_inner]
  simp only [inner, Walk.visitAll, Walk.visit, hlink]
  rfl

/-- The walk from the directory meets the link and nothing else. -/
theorem eq_of_meets {v : Encounter} (h : (Configuration.walk {} tree).Meets (root 0) v) :
    v.path = (linkFrom (root 0)).path := by
  obtain ⟨l, es, hroot, e, he, hreaches⟩ := h
  rw [TreePath.toPath_root] at hroot
  cases (resolve_root (.head _)).symm.trans hroot
  cases List.mem_singleton.1 he
  rw [Walk.reaches_of_not_enters ?_] at hreaches
  · rw [hreaches]
    rfl
  · intro d es henters
    cases henters with
    | link follows => contradiction

end LinkedRoots

/-- The spelling of a root does not matter, except through the limit of links. A dot and a slash in front,
a slash behind, and a slash and a dot behind lead to the same directory, and the limit makes no difference
between them. Two roots that lead to one directory, and between which the limit makes no difference, let
discovery fail alike or find the same files, each under its own root. An analysis of both has the same
table and the same graph, with the parser of the language or any other that looks at no roots. The paths
of the files are the root, a slash unless the root ends in one, and the names below. -/
theorem root_spelling :
    (∀ (t : FileTree) (root root' : String) (location : Location) (es : List Entry),
      t.resolve (.ofString root) = .ok (.directory location es) →
      root.toList.head? ≠ some '/' ∧ root' = "./" ++ root ∨ root' = root ++ "/" ∨
        root' = root ++ "/." →
      t.resolve (.ofString root') = .ok (.directory location es) ∧
        ∀ c : Configuration, (c.walk t).LimitedAlike root root') ∧
    Python.parser.IgnoresRoots ∧
    ∀ (t : FileTree) (c : Configuration) (root root' : String) (location : Location)
      (es : List Entry), t.resolve (.ofString root) = .ok (.directory location es) →
      t.resolve (.ofString root') = .ok (.directory location es) →
      (c.walk t).LimitedAlike root root' →
      ((∃ err, discover c t root = .error err ∧ discover c t root' = .error (err.rerooted root')) ∨
        ∃ files, discover c t root = .ok files ∧
          discover c t root' = .ok (files.map (·.rerooted root')) ∧
          ∀ f ∈ files, f.path.shown =
            (if root.toList.getLast? = some '/' then root else root ++ "/") ++ f.path.relative ∧
            (f.rerooted root').path.shown =
              (if root'.toList.getLast? = some '/' then root' else root' ++ "/") ++
                f.path.relative) ∧
      ∀ a : Analyzer, a.configuration = c → a.parser.IgnoresRoots →
        (∀ table, (a.collectDefinitions t root').outcome = .ok table ↔
          (a.collectDefinitions t root).outcome = .ok table) ∧
        ∀ graph, (a.buildCallGraph t root').outcome = .ok graph ↔
          (a.buildCallGraph t root).outcome = .ok graph := by
  refine ⟨?_, Python.parser_ignoresRoots, ?_⟩
  · intro t root root' location es h hspelling
    have hne := FileTree.ne_empty_of_resolve h
    have hdots : Path.SameButForDots root root' := by
      rcases hspelling with ⟨hrelative, rfl⟩ | rfl | rfl
      · exact Path.sameButForDots_dotSlash hrelative
      · simpa using Path.sameButForDots_slash hne "" rfl
      · simpa [String.append_assoc] using Path.sameButForDots_slash hne "." rfl
    have hne' : root' ≠ "" := by
      rcases hspelling with ⟨-, rfl⟩ | rfl | rfl <;> simp
    exact ⟨FileTree.resolve_of_sameButForDots hdots hne' h,
      fun c => Walk.limitedAlike_of_sameButForDots hdots⟩
  · intro t c root root' location es h h' hlimit
    have hne := FileTree.ne_empty_of_resolve h
    have hne' := FileTree.ne_empty_of_resolve h'
    rw [← TreePath.toPath_root] at h h'
    constructor
    · rcases discover_rerooted h h' hlimit with herror | ⟨files, hfiles, hfiles'⟩
      · exact .inl herror
      · refine .inr ⟨files, hfiles, hfiles', ?_⟩
        intro f hf
        obtain ⟨v, hv, hpath⟩ := exists_meets_of_mem_discover h hfiles hf
        obtain ⟨names, hnames, hv⟩ := hv.path_eq
        rw [SourceFile.rerooted, hpath, hv]
        exact ⟨TreePath.shown_eq hne hnames, TreePath.shown_eq hne' hnames⟩
    · intro a hc ha
      have hreads := exists_reads_rerooted h h' hlimit hc ha
      simp only [Analyzer.collectDefinitions_eq_ok_iff, Analyzer.buildCallGraph_eq_ok_iff]
      exact ⟨fun table => hreads _, fun graph => hreads _⟩

section LinkedRoots

open LinkedRoots

/-- The directory is found to hold a file or not, depending on how many links lead to it. -/
theorem linkedRoots_differ :
    tree.resolve (.ofString (root 0)) = .ok (.directory location inner) ∧
      tree.resolve (.ofString (root 16)) = .ok (.directory location inner) ∧
      discover {} tree (root 0) = .ok [linkFrom (root 0)] ∧ discover {} tree (root 16) = .ok [] :=
  ⟨resolve_root (.head _), resolve_root (by simp), discover_root (.head _), discover_excessive⟩

/-- The file is found from the directory with a dot and a slash in front, and through as many links as
the limit leaves. -/
theorem linkedRoots_agree :
    tree.resolve (.ofString ("./" ++ root 0)) = .ok (.directory location inner) ∧
      tree.resolve (.ofString (root 15)) = .ok (.directory location inner) ∧
      (Configuration.walk {} tree).LimitedAlike (root 0) (root 15) ∧
      discover {} tree (root 0) = .ok [linkFrom (root 0)] ∧
      discover {} tree ("./" ++ root 0) = .ok [linkFrom ("./" ++ root 0)] ∧
      discover {} tree (root 15) = .ok [linkFrom (root 15)] ∧
      (linkFrom (root 15)).path.shown = root 15 ++ "/" ++ (linkFrom (root 0)).path.relative := by
  obtain ⟨content, hfile⟩ := exists_file (.head _)
  obtain ⟨content', hfile'⟩ := exists_file (.tail 0 (.head _))
  have hdirect := resolve_root (.head _)
  have hlinked := resolve_root (.tail 0 (.head _))
  have hfound := discover_root (.head _)
  have hlimit : (Configuration.walk {} tree).LimitedAlike (root 0) (root 15) := by
    intro v hv
    rw [eq_of_meets hv]
    constructor
    · intro h
      cases hfile.symm.trans h
    · intro h
      cases hfile'.symm.trans h
  obtain ⟨hspelling, -, hroots⟩ := root_spelling
  obtain ⟨hdot, hdots⟩ := hspelling tree (root 0) ("./" ++ root 0) location inner hdirect
    (.inl ⟨by simp [root], rfl⟩)
  obtain ⟨⟨err, herr, -⟩ | ⟨files, hfiles, hfiles', -⟩, -⟩ :=
    hroots tree {} (root 0) ("./" ++ root 0) location inner hdirect hdot (hdots {})
  · cases hfound.symm.trans herr
  obtain ⟨⟨err, herr, -⟩ | ⟨others, hothers, hothers', hshown⟩, -⟩ :=
    hroots tree {} (root 0) (root 15) location inner hdirect hlinked hlimit
  · cases hfound.symm.trans herr
  cases hfound.symm.trans hfiles
  cases hfound.symm.trans hothers
  have hslash : ¬ (root 15).toList.getLast? = some '/' := by
    rw [root, String.toList_append, List.getLast?_append_of_ne_nil _ (by simp)]
    decide
  have hshown := (hshown _ (.head _)).2
  rw [if_neg hslash, rerooted_linkFrom] at hshown
  rw [List.map_singleton, rerooted_linkFrom] at hfiles' hothers'
  exact ⟨hdot, hlinked, hlimit, hfound, hfiles', hothers', hshown⟩

end LinkedRoots

end BareCallGraph
