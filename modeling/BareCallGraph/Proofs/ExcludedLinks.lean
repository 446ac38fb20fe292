import BareCallGraph.Proofs.FollowedLinks
import BareCallGraph.Proofs.LackingWalks
import BareCallGraph.Proofs.LinkTrails
import BareCallGraph.Proofs.PrunedWalks
import BareCallGraph.Proofs.RootSpellings

/-!
# Links that are left out

A walk that follows links finds out where a link leads before it looks at the name. So a link whose name
is to be left out is not always as good as not there: it ends the walk if it leads to a directory that
is open, or if the path to it has met too many links by then.

Apart from that it is as good as not there. The walk goes into no directory by way of the link, and so it
compares with a walk through the tree without the link: both meet the same entries otherwise, and each of
them leads to the same. This needs that nothing else depends on the link: no other link leads through it
(`FileTree.IsLoneLink`), nor does the root.
-/

namespace BareCallGraph

open FileTree (Place)

/-- A link to the directory at a location. No other link of the tree leads through it. -/
structure FileTree.IsLoneLink (t : FileTree) (p : Place) (location : Location) : Prop where
  /-- A link stands at the place. -/
  stands : ∃ target, t.standingAt p = some (.link target)
  /-- It leads to the directory. -/
  leads : ∃ es, t.follow linkLimit p.location [.name p.name] = .ok (.directory location es)
  /-- Following any other link does not meet it. -/
  unused : ∀ q target, q ≠ p → t.standingAt q = some (.link target) →
    p ∉ t.trail linkLimit q.location [.name q.name]

namespace FileTree.IsLoneLink

variable {t : FileTree} {p q : Place} {location here : Location} {path : TreePath} {es : List Entry}

/-- A link stands at the place. -/
theorem exists_linkAt? (h : t.IsLoneLink p location) : ∃ target, t.linkAt? p = some target := by
  obtain ⟨target, htarget⟩ := h.stands
  exact ⟨target, linkAt?_eq_some_iff.2 htarget⟩

/-- The name of anything else does not touch the link. -/
theorem not_mem_touched (h : t.IsLoneLink p location) (hq : q ≠ p) :
    p ∉ t.touched linkLimit q.location [.name q.name] := by
  intro hmem
  obtain ⟨target, hlink⟩ := exists_linkAt?_of_touched hmem hq.symm
  obtain ⟨_, hp⟩ := h.exists_linkAt?
  exact h.unused q target hq (linkAt?_eq_some_iff.1 hlink) ((mem_trail_iff hp).2 hmem)

/-- A path that does not touch the link does not touch it by going on to another place. -/
theorem avoids_child (h : t.IsLoneLink p location)
    (hpath : t.resolve path.toPath = .ok (.directory here es)) (havoids : t.Avoids [p] path.toPath)
    {n : FileName} (hn : (⟨here, n⟩ : Place) ≠ p) : t.Avoids [p] (path.child n).toPath := by
  intro q hq hmem
  rcases mem_touchedBy_child hpath hq with hbefore | hbehind
  · exact havoids q hbefore hmem
  · rw [List.mem_singleton.1 hmem] at hbehind
    exact h.not_mem_touched hn hbehind

/-- A path that goes on to the link leads where the link leads, or it has met too many links. -/
theorem leadsTo_child (h : t.IsLoneLink p location)
    (hpath : t.resolve path.toPath = .ok (.directory p.location es)) :
    t.leadsTo (path.child p.name).toPath = .error .tooManyLinks ∨
      t.leadsTo (path.child p.name).toPath = .ok (.directory location) := by
  obtain ⟨left, hleft, hchild⟩ := touchedBy_child hpath
  obtain ⟨inner, hinner⟩ := h.leads
  rw [leadsTo_eq_error_iff, leadsTo_eq_directory_iff, (hchild p.name).1]
  rcases follow_eq_or_tooManyLinks hleft p.location [.name p.name] with hlimit | heq
  · exact .inl hlimit
  · exact .inr ⟨inner, heq.symm.trans hinner⟩

/-- A path avoids the link if the link is not on its trail. -/
theorem avoids_iff (h : t.IsLoneLink p location) {path : Path} :
    t.Avoids [p] path ↔ p ∉ t.trailOf path := by
  obtain ⟨_, hp⟩ := h.exists_linkAt?
  rw [mem_trailOf_iff hp]
  constructor
  · intro havoids hmem
    exact havoids p hmem (List.mem_singleton_self p)
  · intro hnot q hq hmem
    rw [List.mem_singleton.1 hmem] at hq
    exact hnot hq

end FileTree.IsLoneLink

namespace Walk

/-! ## Walks that come to the link -/

variable {w : Walk} {v : Encounter} {err : WalkError} {root : String} {p : Place} {location : Location}

/-- A walk opens no directory by a path that touches a link that is left out, if the path of the root does
not touch it. -/
theorem Meets.avoids (hp : w.tree.IsLoneLink p location) (hexcluded : w.excludes p.name = true)
    (hroot : w.tree.Avoids [p] (TreePath.mk root []).toPath) (h : w.Meets root v) :
    w.tree.Avoids [p] v.here.path.toPath := by
  induction h using Meets.induct with
  | first => exact hroot
  | next hv henters he ih =>
    obtain ⟨es, hes, -⟩ := hv.leads
    rw [henters.path_eq]
    refine hp.avoids_child hes ih ?_
    rintro rfl
    exact absurd (henters.included.symm.trans hexcluded) (by decide)

/-- A walk that does not touch the link otherwise comes to it where its path touches it. -/
theorem Meets.place_eq (hp : w.tree.IsLoneLink p location) (hexcluded : w.excludes p.name = true)
    (hroot : w.tree.Avoids [p] (TreePath.mk root []).toPath) (h : w.Meets root v)
    (htouches : ¬ w.tree.Avoids [p] v.path.toPath) : v.place = p := by
  by_cases hplace : v.place = p
  · exact hplace
  · obtain ⟨es, hes, -⟩ := h.leads
    exact absurd (hp.avoids_child hes (h.avoids hp hexcluded hroot) hplace) htouches

/-- The link ends a walk if it leads to an open directory, or if the path to it meets too many links. -/
theorem Meets.stops_iff (hp : w.tree.IsLoneLink p location) (hfollow : w.followLinks = true)
    (h : w.Meets root v) (hv : v.place = p) :
    v.Stops w err ↔
      w.tree.leadsTo v.path.toPath = .error .tooManyLinks ∧
          err = .unreachable v.path .tooManyLinks ∨
        w.tree.leadsTo v.path.toPath = .ok (.directory location) ∧
          ∃ d, (v.here :: v.above).find? (·.location == location) = some d ∧
            err = .loop v.path d.path := by
  have hentry := h.entryAt?
  obtain ⟨es, hes, -⟩ := h.leads
  obtain ⟨target, htarget⟩ := hp.stands
  subst hv
  obtain ⟨here, above, e⟩ := v
  rw [FileTree.standingAt_eq, hentry] at htarget
  cases e <;> cases htarget
  next n =>
  have hpath : Encounter.path ⟨here, above, .link n target⟩ = here.path.child n := rfl
  have hchild : w.tree.leadsTo (here.path.child n).toPath = .error .tooManyLinks ∨
      w.tree.leadsTo (here.path.child n).toPath = .ok (.directory location) := hp.leadsTo_child hes
  rw [Encounter.stops_link_iff, hpath]
  rcases hchild with hlimit | hleads
  · have hresolve := FileTree.leadsTo_eq_error_iff.1 hlimit
    simp [hfollow, hlimit, hresolve]
  · obtain ⟨inner, hresolve⟩ := FileTree.leadsTo_eq_directory_iff.1 hleads
    simp [hfollow, hleads, hresolve]

/-- The link is never listed. -/
theorem Meets.not_isFile (hp : w.tree.IsLoneLink p location) (h : w.Meets root v)
    (hv : v.place = p) : ¬ v.IsFile w := by
  obtain ⟨es, hes, -⟩ := h.leads
  subst hv
  rw [isFile_iff h]
  intro hfile
  obtain ⟨content, hcontent⟩ := hfile
  have hfile := FileTree.leadsTo_eq_file_iff.2 hcontent
  rcases hp.leadsTo_child hes with hlimit | hleads
  · cases hlimit.symm.trans hfile
  · cases hleads.symm.trans hfile

end Walk

namespace FileTree.IsLoneLink

/-! ## Walks with and without the link -/

variable {t : FileTree} {follow : Bool} {excludes : FileName → Bool} {root : String} {p : Place}
  {location top : Location} {es : List Entry} {v : Encounter} {err : WalkError}

/-- The tree without the link lacks it and nothing else. -/
theorem lacks (h : t.IsLoneLink p location) : t.Lacks [p] (t.without p) := by
  obtain ⟨target, htarget⟩ := h.stands
  refine lacks_without ?_
  rw [htarget]
  simp

/-- A link that is left out hides from walks whose root is not reached through it. -/
theorem hiddenPlaces (h : t.IsLoneLink p location) (hexcluded : excludes p.name = true)
    (hroot : t.Avoids [p] (TreePath.mk root []).toPath) :
    HiddenPlaces t (t.without p) [p] follow excludes root where
  lacks := h.lacks
  avoided := hroot
  closed := by
    intro v d es hv henters
    obtain ⟨outer, houter, -⟩ := hv.leads
    have hhere : t.Avoids [p] v.here.path.toPath :=
      Walk.Meets.avoids (w := ⟨t, follow, excludes⟩) h hexcluded hroot hv
    refine h.avoids_child houter hhere ?_
    intro hplace
    have hincluded : excludes v.entry.name = false := henters.included
    rw [← hplace] at hexcluded
    exact absurd (hincluded.symm.trans hexcluded) (by decide)

/-- The paths that a walk lists do not touch the link. -/
theorem avoiding_filesFrom (h : t.IsLoneLink p location) (hexcluded : excludes p.name = true)
    (hroot : t.Avoids [p] (TreePath.mk root []).toPath)
    (hresolve : t.resolve (TreePath.mk root []).toPath = .ok (.directory top es)) :
    (Walk.filesFrom ⟨t, follow, excludes⟩ root).map (t.avoiding [p]) =
      Walk.filesFrom ⟨t, follow, excludes⟩ root := by
  cases hresult : Walk.filesFrom ⟨t, follow, excludes⟩ root with
  | error err => rfl
  | ok files =>
    rw [Except.map, Except.ok.injEq, avoiding, List.filter_eq_self]
    intro path hpath
    obtain ⟨v, hv, hfile, rfl⟩ :=
      (Walk.mem_filesFrom (w := ⟨t, follow, excludes⟩) hresolve hresult path).1 hpath
    refine decide_eq_true ?_
    by_contra htouches
    have hplace : v.place = p :=
      Walk.Meets.place_eq (w := ⟨t, follow, excludes⟩) h hexcluded hroot hv htouches
    exact Walk.Meets.not_isFile (w := ⟨t, follow, excludes⟩) h hv hplace hfile

/-- Without the link a walk from the root ends alike, unless the link ends it. -/
theorem filesFrom_eq (h : t.IsLoneLink p location) (hexcluded : excludes p.name = true)
    (hroot : t.Avoids [p] (TreePath.mk root []).toPath) (follow : Bool)
    (hresolve : t.resolve (TreePath.mk root []).toPath = .ok (.directory top es)) :
    Walk.filesFrom ⟨t, follow, excludes⟩ root = Walk.filesFrom ⟨t.without p, follow, excludes⟩ root ∨
      ∃ v err, Walk.Meets ⟨t, follow, excludes⟩ root v ∧ v.place = p ∧
        v.Stops ⟨t, follow, excludes⟩ err ∧
        Walk.filesFrom ⟨t, follow, excludes⟩ root = .error err := by
  have hplace {v : Encounter} (hv : Walk.Meets ⟨t, follow, excludes⟩ root v)
      (htouches : ¬ t.Avoids [p] v.path.toPath) : v.place = p :=
    Walk.Meets.place_eq (w := ⟨t, follow, excludes⟩) h hexcluded hroot hv htouches
  have hhidden : HiddenPlaces t (t.without p) [p] follow excludes root :=
    h.hiddenPlaces hexcluded hroot
  rcases hhidden.filesFrom with
    ⟨v, err, hv, htouches, hstops, herror⟩ | hsame | ⟨v, hv, hbroken, -⟩
  · exact .inr ⟨v, err, hv, hplace hv htouches, hstops, herror⟩
  · rw [h.avoiding_filesFrom hexcluded hroot hresolve] at hsame
    exact .inl hsame.symm
  · exact absurd (List.mem_singleton.2 (hplace hv hbroken.touches)) hbroken.place

/-- Without the link no walk ends with the error of the link. -/
theorem filesFrom_ne (h : t.IsLoneLink p location) (hexcluded : excludes p.name = true)
    (hroot : t.Avoids [p] (TreePath.mk root []).toPath)
    (hresolve : t.resolve (TreePath.mk root []).toPath = .ok (.directory top es))
    (hv : Walk.Meets ⟨t, follow, excludes⟩ root v) (hplace : v.place = p)
    (hstops : v.Stops ⟨t, follow, excludes⟩ err) :
    Walk.filesFrom ⟨t.without p, follow, excludes⟩ root ≠ .error err := by
  intro herror
  obtain ⟨es', hresolve'⟩ := leadsTo_eq_directory_iff.1
    ((h.lacks.leadsTo_of_avoids hroot).trans (leadsTo_eq_directory_iff.2 ⟨es, hresolve⟩))
  obtain ⟨v', hv', hstops', -⟩ :=
    Walk.filesFrom_error (w := ⟨t.without p, follow, excludes⟩) hresolve' herror
  obtain ⟨hhere, hname⟩ := TreePath.child_inj (hstops'.path_eq.symm.trans hstops.path_eq)
  -- the paths of the directories are the same, and so are the directories
  obtain ⟨inner, hinner, -⟩ := hv.leads
  obtain ⟨inner', hinner', -⟩ := hv'.leads
  have hhidden : HiddenPlaces t (t.without p) [p] follow excludes root :=
    h.hiddenPlaces hexcluded hroot
  have hleads := h.lacks.leadsTo_of_avoids (hhidden.avoids hv)
  rw [leadsTo_eq_directory_iff.2 ⟨inner, hinner⟩, ← hhere,
    leadsTo_eq_directory_iff.2 ⟨inner', hinner'⟩] at hleads
  have hlocation : v'.here.location = v.here.location :=
    Destination.directory.inj (Except.ok.inj hleads)
  have hplace' : v'.place = p := by
    rw [← hplace, Encounter.place, Encounter.place, hlocation, hname]
  exact h.lacks.not_mem hv'.entryAt? (List.mem_singleton.2 hplace')

end FileTree.IsLoneLink

/-! ## Discovery -/

/-- From a directory discovery fails below the root or not at all. -/
theorem discover_ne_unreachable_root {c : Configuration} {t : FileTree} {root : String}
    {top : Location} {es : List Entry}
    (hroot : t.resolve (TreePath.mk root []).toPath = .ok (.directory top es)) (cause : FileError) :
    discover c t root ≠ .error (.unreachable ⟨root, []⟩ cause) := by
  intro h
  obtain ⟨v, hv, hstops, -⟩ :=
    Walk.filesFrom_error (w := c.walk t) hroot (discover_eq_error_iff.1 h)
  obtain ⟨names, hnames, hpath⟩ := hv.path_eq
  rw [← hstops.path_eq, WalkError.path, TreePath.mk.injEq] at hpath
  exact hnames hpath.2.symm

namespace VendoredTree

/-- The place of the link. -/
def vendor : Place := ⟨[.ofString "repo"], .ofString "vendor"⟩

/-- Follows links and leaves the link out. -/
def withoutVendor : Configuration := { configuration with excludedDirectories := ["vendor"] }

/-- The link stands there, leads to the directory `build`, and is the only one. -/
theorem isLoneLink_vendor : tree.IsLoneLink vendor [.ofString "repo", .ofString "build"] where
  stands := by
    refine ⟨⟨false, [.name (.ofString "build")]⟩, ?_⟩
    simp [FileTree.standingAt, FileTree.standingBelow, FileTree.entriesBelow, tree, vendor, entries,
      Entry.find?, Entry.name, Entry.standing]
  leads := by
    refine ⟨inner, ?_⟩
    rw [FileTree.linkLimit, FileTree.follow]
    simp [FileTree.take, FileTree.follow, FileTree.entriesAt, FileTree.entriesBelow, FileTree.startOf,
      tree, entries, vendor, Entry.find?, Entry.name]
  unused q target hq h := by
    have hplaces : tree.linkPlaces = [vendor] := rfl
    have hmem := FileTree.mem_linkPlaces h
    rw [hplaces, List.mem_singleton] at hmem
    exact absurd hmem hq

/-- With the link left out, both modules are discovered, the second one under `build` only. -/
theorem discover_withoutVendor :
    discover withoutVendor tree "repo" = .ok [fileA, fileB "build"] := by
  have hmore := discover_more (c := configuration) (List.nil_subset ["vendor"]) discover_repo
  have hfilter : [fileA, fileB "build", fileB "vendor"].filter (·.liesOutside ["vendor"]) =
      [fileA, fileB "build"] := by decide +kernel
  rw [hfilter] at hmore
  exact hmore

end VendoredTree

/-- A link that is left out is as good as not there, unless the root is reached through it or it ends the
walk. It ends the walk where it leads to a directory that is open there, or where the path to it has met
too many links. -/
theorem excluded_link_hidden_iff (c : Configuration) (t : FileTree) (root : String) (p : Place)
    (location top : Location) (es : List Entry)
    (hc : c.followLinks = true) (hexcluded : c.excludes p.name = true)
    (hp : t.IsLoneLink p location)
    (hroot : t.resolve (Path.ofString root) = .ok (.directory top es)) :
    (discover c t root = discover c (t.without p) root ↔
      p ∉ t.trailOf (Path.ofString root) ∧
        ∀ v err, (c.walk t).Meets root v → v.place = p → v.Stops (c.walk t) err →
          discover c t root ≠ .error err) ∧
    ∀ v err, (c.walk t).Meets root v → v.place = p → (v.Stops (c.walk t) err ↔
      t.leadsTo v.path.toPath = .error .tooManyLinks ∧ err = .unreachable v.path .tooManyLinks ∨
        t.leadsTo v.path.toPath = .ok (.directory location) ∧
          ∃ d, (v.here :: v.above).find? (·.location == location) = some d ∧
            err = .loop v.path d.path) := by
  rw [← TreePath.toPath_root] at hroot ⊢
  refine ⟨⟨?_, ?_⟩, fun v err hv hplace => hv.stops_iff hp hc hplace⟩
  · intro hsame
    have havoided : t.Avoids [p] (TreePath.mk root []).toPath := by
      by_contra htouches
      refine discover_ne_unreachable_root hroot .notFound (hsame.trans ?_)
      refine discover_eq_error_iff.2 ?_
      simp only [Walk.filesFrom, Configuration.walk, hp.lacks.resolve_of_touches htouches]
    refine ⟨hp.avoids_iff.1 havoided, ?_⟩
    intro v err hv hplace hstops herror
    have herror' := discover_eq_error_iff.1 (hsame.symm.trans herror)
    exact hp.filesFrom_ne hexcluded havoided hroot hv hplace hstops herror'
  · intro hhidden
    obtain ⟨havoided, hends⟩ := hhidden
    rcases hp.filesFrom_eq hexcluded (hp.avoids_iff.2 havoided) c.followLinks hroot with
      hsame | ⟨v, err, hv, hplace, hstops, herror⟩
    · exact congrArg (Except.map (·.filterMap (SourceFile.at? c.language))) hsame
    · exact absurd (discover_eq_error_iff.2 herror) (hends v err hv hplace hstops)

section VendoredTree

open VendoredTree

/-- In the sample nothing ends the walk, and so the same files are found without the link. -/
theorem vendoredTree_hidden :
    withoutVendor.followLinks = true ∧
      withoutVendor.excludes vendor.name = true ∧
      tree.IsLoneLink vendor [.ofString "repo", .ofString "build"] ∧
      discover withoutVendor (tree.without vendor) "repo" = .ok [fileA, fileB "build"] := by
  have hexcluded : withoutVendor.excludes vendor.name = true := by decide +kernel
  have hroot := resolve_repo
  rw [TreePath.toPath_root] at hroot
  obtain ⟨hiff, -⟩ := excluded_link_hidden_iff withoutVendor tree "repo" vendor _ _ _ rfl hexcluded
    isLoneLink_vendor hroot
  refine ⟨rfl, hexcluded, isLoneLink_vendor, ?_⟩
  rw [← hiff.2, discover_withoutVendor]
  refine ⟨by decide +kernel, ?_⟩
  intro v err hv hplace hstops
  have hends := (exists_discover_iff.1 ⟨_, discover_withoutVendor⟩).2 v err hv
  exact absurd hstops hends

end VendoredTree

namespace CircularTree

/-- The place of the link back. -/
def back : Place := ⟨[.ofString "repo"], .ofString "self"⟩

/-- Follows links and leaves the link back out. -/
def withoutSelf : Configuration := { configuration with excludedDirectories := ["self"] }

/-- The tree without the link back has distinct names. -/
theorem distinct_straight : Entry.haveDistinctNames
    [.directory (.ofString "repo") [.file (.ofString "a.py") .empty]] = true := by
  simp [Entry.haveDistinctNames, Entry.hasDistinctNames]

/-- The tree that does not have the link back. -/
def straightTree : FileTree :=
  { entries := [.directory (.ofString "repo") [.file (.ofString "a.py") .empty]]
    distinct := distinct_straight }

/-- Removing the link back gives the other tree. -/
theorem without_back : tree.without back = straightTree := by
  simp [FileTree.without, FileTree.removeAt, FileTree.changeAt, Entry.changeBelow, Entry.remove, tree,
    straightTree, back, entries, self, Entry.name]

/-- The link back stands there, leads to its own directory, and is the only one. -/
theorem isLoneLink_back : tree.IsLoneLink back repo.location where
  stands := by
    refine ⟨⟨false, [.here]⟩, ?_⟩
    simp [FileTree.standingAt, FileTree.standingBelow, FileTree.entriesBelow, tree, back, entries, self,
      Entry.find?, Entry.name, Entry.standing]
  leads := by
    refine ⟨entries, ?_⟩
    rw [FileTree.linkLimit, FileTree.follow]
    simp [FileTree.take, FileTree.follow, FileTree.entriesAt, FileTree.entriesBelow, FileTree.startOf,
      tree, entries, self, back, repo, Entry.find?, Entry.name]
  unused q target hq h := by
    have hplaces : tree.linkPlaces = [back] := rfl
    have hmem := FileTree.mem_linkPlaces h
    rw [hplaces, List.mem_singleton] at hmem
    exact absurd hmem hq

/-- The module comes before the link back. -/
theorem sortedByName_entries :
    Entry.sortedByName entries = [.file (.ofString "a.py") .empty, self] := by
  have hsa : (compare (FileName.ofString "self") (FileName.ofString "a.py")).isLE = false := by
    decide +kernel
  simp [entries, self, Entry.sortedByName, List.mergeSort, List.MergeSort.Internal.splitInTwo,
    Entry.name, hsa]

/-- Without the link back the root is still the directory, with the module in it. -/
theorem resolve_straight : straightTree.resolve repo.path.toPath =
    .ok (.directory repo.location [.file (.ofString "a.py") .empty]) := by
  rw [repo, TreePath.toPath_repo, FileTree.resolve, FileTree.linkLimit, FileTree.follow]
  simp [Path.isEmpty, FileTree.take, FileTree.entriesAt, FileTree.entriesBelow, FileTree.startOf,
    straightTree, Entry.find?, Entry.name]

end CircularTree

section CircularTree

open CircularTree

/-- A link back to the directory that holds it ends the walk although it is to be left out. Without the
link the file is found. -/
theorem excluded_loop_ends_walk :
    withoutSelf.followLinks = true ∧
      withoutSelf.excludes back.name = true ∧ tree.IsLoneLink back [.ofString "repo"] ∧
      discover withoutSelf tree "repo" =
        .error (.loop ⟨"repo", [.ofString "self"]⟩ ⟨"repo", []⟩) ∧
      discover withoutSelf (tree.without back) "repo" =
        .ok [⟨⟨"repo", [.ofString "a.py"]⟩, "a"⟩] := by
  have hroot : tree.resolve (TreePath.mk "repo" []).toPath =
      .ok (.directory [.ofString "repo"] entries) := resolve_repo
  have hself : tree.resolve (TreePath.mk "repo" [.ofString "self"]).toPath =
      .ok (.directory [.ofString "repo"] entries) := resolve_self
  have hstraight : straightTree.resolve (TreePath.mk "repo" []).toPath =
      .ok (.directory [.ofString "repo"] [.file (.ofString "a.py") .empty]) := resolve_straight
  have hfollow : withoutSelf.followLinks = true := rfl
  refine ⟨rfl, by decide +kernel, isLoneLink_back, ?_, ?_⟩
  · refine discover_eq_error_iff.2 ?_
    simp only [Walk.filesFrom, Configuration.walk, hroot, sortedByName_entries, self, Walk.visitAll,
      Walk.visit, TreePath.child, List.nil_append, hself, hfollow]
    simp
  · refine discover_eq_ok_iff.2 ⟨[⟨"repo", [.ofString "a.py"]⟩], ?_, by decide +kernel⟩
    simp [without_back, Walk.filesFrom, Configuration.walk, hstraight, Entry.sortedByName,
      Walk.visitAll, Walk.visit, TreePath.child]

end CircularTree

end BareCallGraph
