import BareCallGraph.Proofs.DiscoveredFiles
import BareCallGraph.Proofs.LackingTrees
import Mathlib.Data.List.Sort

/-!
# Walks through a tree that lacks something

A walk may come to files and links that another tree lacks. As long as it goes into no directory by way
of them, a walk through the other tree opens the same directories. It comes to the namesakes of what the
first walk comes to, and the path of each of them leads to the same, unless it touches something that is
lacking.

So the second walk lists what the first one lists, without the paths that touch something that is lacking
(`HiddenPlaces.filesFrom`). There are two exceptions, and both are due to a path that touches something
that is lacking: the first walk may end there, and the second one ends at a link there that it is to
follow and that leads nowhere now.
-/

namespace BareCallGraph

open FileTree (Place)

/-- A path determines the directory path and the name that it is made of. -/
theorem TreePath.child_inj {p q : TreePath} {m n : FileName} (h : p.child m = q.child n) :
    p = q ∧ m = n := by
  obtain ⟨root, below⟩ := p
  obtain ⟨root', below'⟩ := q
  simp only [child, TreePath.mk.injEq] at h
  obtain ⟨rfl, hbelow⟩ := h
  obtain ⟨rfl, hname⟩ := List.append_inj' hbelow rfl
  exact ⟨rfl, List.singleton_inj.1 hname⟩

/-- Lists of entries in the strict order of names are the same if they have the same members. -/
theorem Entry.eq_of_sorted {es fs : List Entry}
    (hes : es.Pairwise fun e f => compare e.name f.name = .lt)
    (hfs : fs.Pairwise fun e f => compare e.name f.name = .lt) (h : ∀ e, e ∈ es ↔ e ∈ fs) : es = fs := by
  have hantisymm : Std.Antisymm fun e f : Entry => compare e.name f.name = .lt := by
    constructor
    intro e f hef hfe
    rw [Std.OrientedCmp.gt_of_lt hef] at hfe
    contradiction
  have hirrefl : Std.Irrefl fun e f : Entry => compare e.name f.name = .lt := by
    constructor
    intro e he
    have hself : compare e.name e.name = .eq := Std.ReflCmp.compare_self
    rw [hself] at he
    contradiction
  exact hes.eq_of_mem_iff hfs h

namespace Encounter

/-- The place of the entry. -/
def place (v : Encounter) : Place := ⟨v.here.location, v.entry.name⟩

variable {w : Walk} {v v' : Encounter} {d : OpenDirectory} {es : List Entry}

/-- What the walk goes into is not left out. -/
theorem Enters.included (h : v.Enters w d es) : w.excludes v.entry.name = false := by
  cases h with
  | directory included => exact included
  | link _ _ _ included => exact included

/-- The walk goes into a directory by way of what it holds. -/
theorem Enters.entriesAt (h : v.Enters w d es) (hv : w.tree.entryAt? v.place = some v.entry) :
    w.tree.entriesAt d.location = some es := by
  cases h with
  | directory => exact FileTree.entriesAt_of_directory hv
  | link _ leads => exact FileTree.entriesAt_of_resolve leads

/-! ## Entries that look the same -/

/-- In two trees, walks have come the same way to entries of one name that are of one kind and lead to
the same. -/
structure SeenAlike (t t' : FileTree) (v v' : Encounter) : Prop where
  here : v'.here = v.here
  above : v'.above = v.above
  name : v'.entry.name = v.entry.name
  standing : v'.entry.standing = v.entry.standing
  leads : t'.leadsTo v'.path.toPath = t.leadsTo v.path.toPath

namespace SeenAlike

variable {t t' : FileTree} {follow : Bool} {excludes : FileName → Bool}

/-- Looking the same goes both ways. -/
theorem symm (h : SeenAlike t t' v v') : SeenAlike t' t v' v :=
  ⟨h.here.symm, h.above.symm, h.name.symm, h.standing.symm, h.leads.symm⟩

/-- If one of the entries is listed, so is the other. -/
theorem isFile (h : SeenAlike t t' v v') (hfile : v.IsFile ⟨t, follow, excludes⟩) :
    v'.IsFile ⟨t', follow, excludes⟩ := by
  obtain ⟨here, above, e⟩ := v
  obtain ⟨here', above', e'⟩ := v'
  obtain ⟨rfl, rfl, hname, hstanding, hleads⟩ := h
  cases hfile with
  | file =>
    cases e' <;> cases hstanding
    exact .file
  | link leads =>
    cases e' <;> cases hstanding
    exact .link (FileTree.leadsTo_eq_file_iff.1 (hleads.trans (FileTree.leadsTo_eq_file_iff.2 leads)))

/-- If a walk goes into one of the entries, so it does into the other. -/
theorem enters (h : SeenAlike t t' v v') (henters : v.Enters ⟨t, follow, excludes⟩ d es) :
    ∃ es', v'.Enters ⟨t', follow, excludes⟩ d es' := by
  obtain ⟨here, above, e⟩ := v
  obtain ⟨here', above', e'⟩ := v'
  obtain ⟨rfl, rfl, hname, hstanding, hleads⟩ := h
  cases henters with
  | directory included =>
    cases e' <;> cases hstanding
    cases hname
    exact ⟨_, .directory included⟩
  | link follows leads fresh included =>
    cases e' <;> cases hstanding
    cases hname
    obtain ⟨es', hes'⟩ := FileTree.leadsTo_eq_directory_iff.1
      (hleads.trans (FileTree.leadsTo_eq_directory_iff.2 ⟨_, leads⟩))
    exact ⟨es', .link follows hes' fresh included⟩

/-- If a walk ends at one of the entries, it ends at the other with the same error. -/
theorem stops (h : SeenAlike t t' v v') {err : WalkError}
    (hstops : v.Stops ⟨t, follow, excludes⟩ err) : v'.Stops ⟨t', follow, excludes⟩ err := by
  obtain ⟨here, above, e⟩ := v
  obtain ⟨here', above', e'⟩ := v'
  obtain ⟨rfl, rfl, hname, hstanding, hleads⟩ := h
  cases hstops with
  | unreachable follows leads =>
    cases e' <;> cases hstanding
    cases hname
    exact .unreachable follows
      (FileTree.leadsTo_eq_error_iff.1 (hleads.trans (FileTree.leadsTo_eq_error_iff.2 leads)))
  | loop follows leads isOpen innermost =>
    cases e' <;> cases hstanding
    cases hname
    obtain ⟨es', hes'⟩ := FileTree.leadsTo_eq_directory_iff.1
      (hleads.trans (FileTree.leadsTo_eq_directory_iff.2 ⟨_, leads⟩))
    exact .loop follows hes' isOpen innermost

end SeenAlike

end Encounter

/-- A walk comes to what stands at a place. -/
theorem Walk.Meets.entryAt? {w : Walk} {root : String} {v : Encounter} (h : w.Meets root v) :
    w.tree.entryAt? v.place = some v.entry := by
  obtain ⟨es, hes, hmem⟩ := h.leads
  exact FileTree.entryAt?_of_mem (FileTree.entriesAt_of_resolve hes) hmem

namespace FileTree

/-- What has the names of the given entries in the directory at a location. -/
def namesakes (t : FileTree) (here : Location) (es : List Entry) : List Entry :=
  es.filterMap fun e => t.entryAt? ⟨here, e.name⟩

/-- The paths that touch none of the given places. -/
def avoiding (t : FileTree) (ps : List Place) (paths : List TreePath) : List TreePath :=
  paths.filter fun path => t.Avoids ps path.toPath

variable {t t' : FileTree} {ps : List Place} {here : Location} {e e' : Entry} {es es' : List Entry}

/-- An entry that has a namesake comes with it. -/
theorem namesakes_cons_some (h : t.entryAt? ⟨here, e.name⟩ = some e') :
    t.namesakes here (e :: es) = e' :: t.namesakes here es :=
  List.filterMap_cons_some h

/-- An entry that has no namesake is left out. -/
theorem namesakes_cons_none (h : t.entryAt? ⟨here, e.name⟩ = none) :
    t.namesakes here (e :: es) = t.namesakes here es :=
  List.filterMap_cons_none h

/-- A namesake is found under the name of an entry. -/
theorem mem_namesakes :
    e' ∈ t.namesakes here es ↔ ∃ e ∈ es, t.entryAt? ⟨here, e.name⟩ = some e' :=
  List.mem_filterMap

/-- A path that touches none of the places is kept. -/
theorem avoiding_singleton {path : TreePath} (h : t.Avoids ps path.toPath) :
    t.avoiding ps [path] = [path] := by
  simp [avoiding, h]

/-- A path that touches one of the places is dropped. -/
theorem avoiding_singleton_eq_nil {path : TreePath} (h : ¬ t.Avoids ps path.toPath) :
    t.avoiding ps [path] = [] := by
  simp [avoiding, h]

/-- The directories of a tree that lacks something hold the namesakes of what they hold in the other. -/
theorem Lacks.namesakes_sortedByName (h : t.Lacks ps t') (hes : t.entriesAt here = some es)
    (hes' : t'.entriesAt here = some es') :
    t'.namesakes here (Entry.sortedByName es) = Entry.sortedByName es' := by
  refine Entry.eq_of_sorted ?_ (Entry.sortedByName_pairwise (distinct_at hes')) ?_
  · rw [namesakes, List.pairwise_filterMap]
    refine (Entry.sortedByName_pairwise (distinct_at hes)).imp ?_
    intro e f hef e' he' f' hf'
    rw [name_of_entryAt? he', name_of_entryAt? hf']
    exact hef
  · intro e'
    rw [mem_namesakes, Entry.mem_sortedByName]
    constructor
    · intro hmem
      obtain ⟨e, -, he'⟩ := hmem
      rw [FileTree.entryAt?, hes', Option.bind_some] at he'
      exact (Entry.name_of_find? he').1
    · intro hmem
      have hentry := entryAt?_of_mem hes' hmem
      obtain ⟨e, he⟩ := h.exists_of_entryAt? hentry
      have hname : e.name = e'.name := name_of_entryAt? he
      rw [FileTree.entryAt?, hes, Option.bind_some] at he
      exact ⟨e, Entry.mem_sortedByName.2 (Entry.name_of_find? he).1, by rw [hname]; exact hentry⟩

end FileTree

/-- A tree and one that lacks something, which walks from a root go into no directory by way of. -/
structure HiddenPlaces (t t' : FileTree) (ps : List Place) (follow : Bool)
    (excludes : FileName → Bool) (root : String) : Prop where
  /-- The second tree has nothing at the places. -/
  lacks : t.Lacks ps t'
  /-- The path of the root does not touch them. -/
  avoided : t.Avoids ps (TreePath.mk root []).toPath
  /-- No path by which the walk goes into a directory touches them. -/
  closed : ∀ v d es, Walk.Meets ⟨t, follow, excludes⟩ root v → v.Enters ⟨t, follow, excludes⟩ d es →
    t.Avoids ps v.path.toPath

namespace HiddenPlaces

variable {t t' : FileTree} {ps : List Place} {follow : Bool} {excludes : FileName → Bool}
  {root : String} {here d : OpenDirectory} {above : List OpenDirectory} {e : Entry}
  {es inner : List Entry} {v : Encounter} {result result' : Except WalkError (List TreePath)}

/-- A link to be followed that stands in both trees, and whose path touches something that is lacking. -/
structure Broken (t : FileTree) (ps : List Place) (follow : Bool) (v : Encounter) : Prop where
  follows : follow = true
  place : v.place ∉ ps
  touches : ¬ t.Avoids ps v.path.toPath

/-- How a walk may end where something is lacking: like the other, but for paths that touch something that
is lacking, or at a link that leads nowhere now. -/
def EndsWithout (t : FileTree) (ps : List Place) (follow : Bool) (excludes : FileName → Bool)
    (root : String) (result result' : Except WalkError (List TreePath)) : Prop :=
  result' = result.map (t.avoiding ps) ∨
    ∃ v, Walk.Meets ⟨t, follow, excludes⟩ root v ∧ Broken t ps follow v ∧
      result' = .error (.unreachable v.path .notFound)

/-- What is listed before does not change how the walks compare. -/
theorem EndsWithout.map (h : EndsWithout t ps follow excludes root result result')
    (files : List TreePath) :
    EndsWithout t ps follow excludes root (result.map (files ++ ·))
      (result'.map (t.avoiding ps files ++ ·)) := by
  rcases h with rfl | ⟨v, hv, hbroken, rfl⟩
  · refine .inl ?_
    cases result with
    | error err => rfl
    | ok later => simp [Except.map, FileTree.avoiding]
  · exact .inr ⟨v, hv, hbroken, rfl⟩

/-- A path that touches something that is lacking is not listed. -/
theorem EndsWithout.map_touching (h : EndsWithout t ps follow excludes root result result')
    {path : TreePath} (htouches : ¬ t.Avoids ps path.toPath) :
    EndsWithout t ps follow excludes root (result.map ([path] ++ ·)) result' := by
  have hmap := h.map [path]
  rw [FileTree.avoiding_singleton_eq_nil htouches] at hmap
  have hsame : result'.map ([] ++ ·) = result' := by cases result' <;> rfl
  rwa [hsame] at hmap

/-- Where something is lacking, a walk that fails fails too. -/
theorem EndsWithout.exists_error {err : WalkError}
    (h : EndsWithout t ps follow excludes root (.error err) result') : ∃ err', result' = .error err' := by
  rcases h with rfl | ⟨v, -, -, rfl⟩
  · exact ⟨err, rfl⟩
  · exact ⟨_, rfl⟩

/-- The directories that the walk opens are opened by paths that touch nothing that is lacking. -/
theorem avoids (h : HiddenPlaces t t' ps follow excludes root)
    (hv : Walk.Meets ⟨t, follow, excludes⟩ root v) : t.Avoids ps v.here.path.toPath := by
  induction hv using Walk.Meets.induct with
  | first => exact h.avoided
  | next hv henters he ih =>
    rw [henters.path_eq]
    exact h.closed _ _ _ hv henters

/-- An entry that is lacking is touched by its path. -/
theorem not_avoids_of_mem (h : HiddenPlaces t t' ps follow excludes root)
    (hv : Walk.Meets ⟨t, follow, excludes⟩ root v) (hplace : v.place ∈ ps) :
    ¬ t.Avoids ps v.path.toPath := by
  obtain ⟨es, hes, -⟩ := hv.leads
  obtain ⟨left, -, hchild⟩ := FileTree.touchedBy_child hes
  intro havoids
  refine havoids v.place ?_ hplace
  rw [Encounter.path, (hchild v.entry.name).2]
  exact List.mem_append_right _ (FileTree.mem_touched_name (h.lacks.plain _ hplace))

/-- What a walk comes to by a path that touches nothing that is lacking is there in the other tree too and
looks the same. -/
theorem exists_seenAlike (h : HiddenPlaces t t' ps follow excludes root)
    (hv : Walk.Meets ⟨t, follow, excludes⟩ root v) (havoids : t.Avoids ps v.path.toPath) :
    ∃ e', t'.entryAt? v.place = some e' ∧ Encounter.SeenAlike t t' v ⟨v.here, v.above, e'⟩ := by
  have hplace : v.place ∉ ps := fun hmem => h.not_avoids_of_mem hv hmem havoids
  obtain ⟨e', he', hstanding⟩ := h.lacks.exists_entryAt? hplace hv.entryAt?
  have hname : e'.name = v.entry.name := FileTree.name_of_entryAt? he'
  have hpath : Encounter.path ⟨v.here, v.above, e'⟩ = v.path := by
    rw [Encounter.path, Encounter.path, hname]
  have hleads := h.lacks.leadsTo_of_avoids havoids
  exact ⟨e', he', rfl, rfl, hname, hstanding, by rw [hpath]; exact hleads⟩

/-- Where the walk goes into a directory, the one through the other tree goes into it too. -/
theorem exists_enters (h : HiddenPlaces t t' ps follow excludes root)
    (hv : Walk.Meets ⟨t, follow, excludes⟩ root v)
    (henters : v.Enters ⟨t, follow, excludes⟩ d inner) :
    ∃ e' inner', t'.entryAt? v.place = some e' ∧
      Encounter.Enters ⟨t', follow, excludes⟩ ⟨v.here, v.above, e'⟩ d inner' ∧
      t'.namesakes d.location (Entry.sortedByName inner) = Entry.sortedByName inner' := by
  obtain ⟨e', he', halike⟩ := h.exists_seenAlike hv (h.closed v d inner hv henters)
  obtain ⟨inner', henters'⟩ := halike.enters henters
  have hplace : Encounter.place ⟨v.here, v.above, e'⟩ = v.place := by
    rw [Encounter.place, halike.name]
    rfl
  have hinner : t.entriesAt d.location = some inner := henters.entriesAt hv.entryAt?
  have hinner' : t'.entriesAt d.location = some inner' :=
    henters'.entriesAt (by rw [hplace]; exact he')
  exact ⟨e', inner', he', henters', h.lacks.namesakes_sortedByName hinner hinner'⟩

/-- What a walk comes to by a path that touches something that is lacking, and is not lacking itself, is a
link that leads to or through what is lacking. -/
theorem exists_linkAt?_of_touches (h : HiddenPlaces t t' ps follow excludes root)
    (hv : Walk.Meets ⟨t, follow, excludes⟩ root v) (htouches : ¬ t.Avoids ps v.path.toPath)
    (hplace : v.place ∉ ps) :
    ∃ p ∈ ps, ∃ target, t.linkAt? v.place = some target ∧
      p ∈ t.touched FileTree.linkLimit v.here.location [.name v.entry.name] := by
  obtain ⟨es, hes, -⟩ := hv.leads
  obtain ⟨p, hmem, hp⟩ := FileTree.not_avoids_iff.1 htouches
  -- the path of the directory touches nothing that is lacking, so the name of the entry does
  have hbehind : p ∈ t.touched FileTree.linkLimit v.here.location [.name v.entry.name] :=
    (FileTree.mem_touchedBy_child hes hmem).resolve_left fun hbefore => h.avoids hv p hbefore hp
  have hne : p ≠ v.place := fun heq => hplace (heq ▸ hp)
  obtain ⟨target, hlink⟩ := FileTree.exists_linkAt?_of_touched hbehind hne
  exact ⟨p, hp, target, hlink, hbehind⟩

/-- Such a link stands in both trees. -/
theorem exists_link_of_touches (h : HiddenPlaces t t' ps follow excludes root)
    (hv : Walk.Meets ⟨t, follow, excludes⟩ root v) (htouches : ¬ t.Avoids ps v.path.toPath)
    (hplace : v.place ∉ ps) :
    ∃ target, t'.entryAt? v.place = some (.link v.entry.name target) := by
  obtain ⟨_, -, target, hlink, -⟩ := h.exists_linkAt?_of_touches hv htouches hplace
  have hstanding := (h.lacks.elsewhere _ hplace).trans (FileTree.linkAt?_eq_some_iff.1 hlink)
  rw [FileTree.standingAt_eq, Option.map_eq_some_iff] at hstanding
  obtain ⟨e', he', hkind⟩ := hstanding
  have hname : e'.name = v.entry.name := FileTree.name_of_entryAt? he'
  cases e' <;> cases hkind
  cases hname
  exact ⟨target, he'⟩

/-- An entry whose path touches something that is lacking adds nothing to a run in the other tree, or it
is a link there that ends the run. -/
theorem run_of_touches (h : HiddenPlaces t t' ps follow excludes root)
    (hv : Walk.Meets ⟨t, follow, excludes⟩ root ⟨here, above, e⟩)
    (htouches : ¬ t.Avoids ps (here.path.child e.name).toPath)
    (hrun : Walk.Run ⟨t', follow, excludes⟩ here above (t'.namesakes here.location es) result') :
    Walk.Run ⟨t', follow, excludes⟩ here above (t'.namesakes here.location (e :: es)) result' ∨
      Broken t ps follow ⟨here, above, e⟩ ∧
        Walk.Run ⟨t', follow, excludes⟩ here above (t'.namesakes here.location (e :: es))
          (.error (.unreachable (here.path.child e.name) .notFound)) := by
  by_cases hplace : Encounter.place ⟨here, above, e⟩ ∈ ps
  · rw [FileTree.namesakes_cons_none (h.lacks.entryAt?_eq_none hplace)]
    exact .inl hrun
  · obtain ⟨target, htarget⟩ := h.exists_link_of_touches hv htouches hplace
    have hresolve := h.lacks.resolve_of_touches htouches
    rw [FileTree.namesakes_cons_some htarget]
    cases follow with
    | true => exact .inr ⟨⟨rfl, hplace, htouches⟩, .stop (.unreachable rfl hresolve)⟩
    | false =>
      have hpassed : Walk.Yields ⟨t', false, excludes⟩ here above (.link e.name target) (.ok []) :=
        Walk.yields_of_unfollowed (by simp) (by simp [hresolve])
      have hsame : result'.map ([] ++ ·) = result' := by cases result' <;> rfl
      have hlater := hpassed.run hrun
      rw [hsame] at hlater
      exact .inl hlater

/-- The run goes on like the one in the other tree behind an entry whose path touches something that is
lacking. -/
theorem endsWithout_of_touches (h : HiddenPlaces t t' ps follow excludes root)
    (hv : Walk.Meets ⟨t, follow, excludes⟩ root ⟨here, above, e⟩)
    (htouches : ¬ t.Avoids ps (here.path.child e.name).toPath)
    (hrun : Walk.Run ⟨t', follow, excludes⟩ here above (t'.namesakes here.location es) result')
    (hends : EndsWithout t ps follow excludes root result result') :
    ∃ later, Walk.Run ⟨t', follow, excludes⟩ here above (t'.namesakes here.location (e :: es)) later ∧
      EndsWithout t ps follow excludes root result later := by
  rcases h.run_of_touches hv htouches hrun with hlater | ⟨hbroken, hlater⟩
  · exact ⟨_, hlater, hends⟩
  · exact ⟨_, hlater, .inr ⟨_, hv, hbroken, rfl⟩⟩

/-- How a run compares with the one through the namesakes of its entries. It may have come to its end by a
path that touches something that is lacking. -/
def RunsWithout (t t' : FileTree) (ps : List Place) (follow : Bool) (excludes : FileName → Bool)
    (root : String) (here : OpenDirectory) (above : List OpenDirectory) (es : List Entry)
    (result : Except WalkError (List TreePath)) : Prop :=
  (∃ v err, Walk.Meets ⟨t, follow, excludes⟩ root v ∧ ¬ t.Avoids ps v.path.toPath ∧
      v.Stops ⟨t, follow, excludes⟩ err ∧ result = .error err) ∨
    ∃ result', Walk.Run ⟨t', follow, excludes⟩ here above (t'.namesakes here.location es) result' ∧
      EndsWithout t ps follow excludes root result result'

/-- An entry that ends the run does so in the other tree, or its path touches something that is lacking. -/
theorem runsWithout_stop (h : HiddenPlaces t t' ps follow excludes root)
    (hv : Walk.Meets ⟨t, follow, excludes⟩ root ⟨here, above, e⟩) {err : WalkError}
    (stops : Encounter.Stops ⟨t, follow, excludes⟩ ⟨here, above, e⟩ err) :
    RunsWithout t t' ps follow excludes root here above (e :: es) (.error err) := by
  by_cases havoids : t.Avoids ps (Encounter.path ⟨here, above, e⟩).toPath
  · obtain ⟨e', he', halike⟩ := h.exists_seenAlike hv havoids
    rw [RunsWithout, FileTree.namesakes_cons_some he']
    exact .inr ⟨_, .stop (halike.stops stops), .inl rfl⟩
  · exact .inl ⟨_, err, hv, havoids, stops, rfl⟩

/-- An entry that is listed is listed in the other tree, or its path touches something that is lacking. -/
theorem runsWithout_list (h : HiddenPlaces t t' ps follow excludes root)
    (hv : Walk.Meets ⟨t, follow, excludes⟩ root ⟨here, above, e⟩)
    (isFile : Encounter.IsFile ⟨t, follow, excludes⟩ ⟨here, above, e⟩)
    (later : RunsWithout t t' ps follow excludes root here above es result) :
    RunsWithout t t' ps follow excludes root here above (e :: es)
      (result.map ([here.path.child e.name] ++ ·)) := by
  rcases later with ⟨v, err, hv, htouches, hstops, rfl⟩ | ⟨result', hrun', hends⟩
  · exact .inl ⟨v, err, hv, htouches, hstops, rfl⟩
  by_cases havoids : t.Avoids ps (Encounter.path ⟨here, above, e⟩).toPath
  · obtain ⟨e', he', halike⟩ := h.exists_seenAlike hv havoids
    have hkept : t.avoiding ps [here.path.child e.name] = [here.path.child e.name] :=
      FileTree.avoiding_singleton havoids
    have hlist := Walk.Run.list (halike.isFile isFile) hrun'
    have hmap := hends.map [here.path.child e.name]
    rw [halike.name] at hlist
    rw [hkept] at hmap
    rw [RunsWithout, FileTree.namesakes_cons_some he']
    exact .inr ⟨_, hlist, hmap⟩
  · exact .inr (h.endsWithout_of_touches hv havoids hrun' (hends.map_touching havoids))

/-- An entry that is passed over is passed over in the other tree, or its path touches something that is
lacking. -/
theorem runsWithout_pass (h : HiddenPlaces t t' ps follow excludes root)
    (hv : Walk.Meets ⟨t, follow, excludes⟩ root ⟨here, above, e⟩)
    (notFile : ¬ Encounter.IsFile ⟨t, follow, excludes⟩ ⟨here, above, e⟩)
    (notEntered : ∀ d inner, ¬ Encounter.Enters ⟨t, follow, excludes⟩ ⟨here, above, e⟩ d inner)
    (notStopped : ∀ err, ¬ Encounter.Stops ⟨t, follow, excludes⟩ ⟨here, above, e⟩ err)
    (later : RunsWithout t t' ps follow excludes root here above es result) :
    RunsWithout t t' ps follow excludes root here above (e :: es) result := by
  rcases later with hstopped | ⟨result', hrun', hends⟩
  · exact .inl hstopped
  by_cases havoids : t.Avoids ps (Encounter.path ⟨here, above, e⟩).toPath
  · obtain ⟨e', he', halike⟩ := h.exists_seenAlike hv havoids
    rw [RunsWithout, FileTree.namesakes_cons_some he']
    refine .inr ⟨_, .pass ?_ ?_ ?_ hrun', hends⟩
    · intro isFile
      exact notFile (halike.symm.isFile isFile)
    · intro d inner enters
      obtain ⟨inner', enters'⟩ := halike.symm.enters enters
      exact notEntered d inner' enters'
    · intro err stops
      exact notStopped err (halike.symm.stops stops)
  · exact .inr (h.endsWithout_of_touches hv havoids hrun' hends)

/-- A run that ends in a directory that it goes into ends there in the other tree. -/
theorem runsWithout_fail (h : HiddenPlaces t t' ps follow excludes root)
    (hv : Walk.Meets ⟨t, follow, excludes⟩ root ⟨here, above, e⟩) {err : WalkError}
    (enters : Encounter.Enters ⟨t, follow, excludes⟩ ⟨here, above, e⟩ d inner)
    (inside : RunsWithout t t' ps follow excludes root d (here :: above) (Entry.sortedByName inner)
      (.error err)) :
    RunsWithout t t' ps follow excludes root here above (e :: es) (.error err) := by
  obtain ⟨e', inner', he', enters', hsorted⟩ := h.exists_enters hv enters
  rcases inside with hstopped | ⟨result', hinside, hends⟩
  · exact .inl hstopped
  · obtain ⟨err', rfl⟩ := hends.exists_error
    rw [hsorted] at hinside
    rw [RunsWithout, FileTree.namesakes_cons_some he']
    exact .inr ⟨_, .fail enters' hinside, hends⟩

/-- A run goes on behind a directory that it goes into. In the other tree it may end there. -/
theorem runsWithout_enter (h : HiddenPlaces t t' ps follow excludes root)
    (hv : Walk.Meets ⟨t, follow, excludes⟩ root ⟨here, above, e⟩) {files : List TreePath}
    (enters : Encounter.Enters ⟨t, follow, excludes⟩ ⟨here, above, e⟩ d inner)
    (inside : RunsWithout t t' ps follow excludes root d (here :: above) (Entry.sortedByName inner)
      (.ok files))
    (later : RunsWithout t t' ps follow excludes root here above es result) :
    RunsWithout t t' ps follow excludes root here above (e :: es) (result.map (files ++ ·)) := by
  obtain ⟨e', inner', he', enters', hsorted⟩ := h.exists_enters hv enters
  rcases inside with ⟨v, err, -, -, -, hstopped⟩ | ⟨result', hinside, hends⟩
  · contradiction
  rw [hsorted] at hinside
  -- the run inside ends well in the other tree, or at a link that leads nowhere now
  rcases hends with rfl | ⟨v, hv, hbroken, rfl⟩
  · rcases later with ⟨v, err, hv, htouches, hstops, rfl⟩ | ⟨later', hlater, hends⟩
    · exact .inl ⟨v, err, hv, htouches, hstops, rfl⟩
    · rw [RunsWithout, FileTree.namesakes_cons_some he']
      exact .inr ⟨_, .enter enters' hinside hlater, hends.map files⟩
  · rw [RunsWithout, FileTree.namesakes_cons_some he']
    exact .inr ⟨_, .fail enters' hinside, .inr ⟨v, hv, hbroken, rfl⟩⟩

/-- Where something is lacking a walk runs alike, unless the other one ends at something that is lacking
or at a path that touches it. -/
theorem run (h : HiddenPlaces t t' ps follow excludes root)
    (hrun : Walk.Run ⟨t, follow, excludes⟩ here above es result)
    (hes : ∀ e ∈ es, Walk.Meets ⟨t, follow, excludes⟩ root ⟨here, above, e⟩) :
    RunsWithout t t' ps follow excludes root here above es result := by
  -- along the run in the first tree, the other run is built from the namesakes
  induction hrun with
  | done => exact .inr ⟨_, .done, .inl rfl⟩
  | stop stops => exact h.runsWithout_stop (hes _ (.head _)) stops
  | list isFile later ih =>
    exact h.runsWithout_list (hes _ (.head _)) isFile (ih fun f hf => hes f (.tail _ hf))
  | pass notFile notEntered notStopped later ih =>
    exact h.runsWithout_pass (hes _ (.head _)) notFile notEntered notStopped
      (ih fun f hf => hes f (.tail _ hf))
  | fail enters inside ih =>
    have hfirst := hes _ (.head _)
    exact h.runsWithout_fail hfirst enters
      (ih fun f hf => hfirst.next enters (Entry.mem_sortedByName.1 hf))
  | enter enters inside later ihInside ih =>
    have hfirst := hes _ (.head _)
    exact h.runsWithout_enter hfirst enters
      (ihInside fun f hf => hfirst.next enters (Entry.mem_sortedByName.1 hf))
      (ih fun f hf => hes f (.tail _ hf))

/-- Where something is lacking a walk from the root ends alike, unless the other one ends at something
that is lacking or at a path that touches it. -/
theorem filesFrom (h : HiddenPlaces t t' ps follow excludes root) :
    (∃ v err, Walk.Meets ⟨t, follow, excludes⟩ root v ∧ ¬ t.Avoids ps v.path.toPath ∧
        v.Stops ⟨t, follow, excludes⟩ err ∧
        Walk.filesFrom ⟨t, follow, excludes⟩ root = .error err) ∨
      EndsWithout t ps follow excludes root (Walk.filesFrom ⟨t, follow, excludes⟩ root)
        (Walk.filesFrom ⟨t', follow, excludes⟩ root) := by
  have hleads := h.lacks.leadsTo_of_avoids h.avoided
  cases hroot : t.resolve (TreePath.mk root []).toPath with
  | error cause =>
    have hroot' := FileTree.leadsTo_eq_error_iff.1 (hleads.trans (FileTree.leadsTo_eq_error_iff.2 hroot))
    simp only [Walk.filesFrom, hroot, hroot']
    exact .inr (.inl rfl)
  | ok target =>
    cases target with
    | file content =>
      have hroot' := FileTree.leadsTo_eq_file_iff.1 (hleads.trans (FileTree.leadsTo_eq_file_iff.2 hroot))
      simp only [Walk.filesFrom, hroot, hroot']
      refine .inr (.inl ?_)
      rw [Except.map, FileTree.avoiding_singleton h.avoided]
    | directory top es =>
      obtain ⟨es', hroot'⟩ := FileTree.leadsTo_eq_directory_iff.1
        (hleads.trans (FileTree.leadsTo_eq_directory_iff.2 ⟨es, hroot⟩))
      have hrun := Walk.run_filesFrom (w := ⟨t, follow, excludes⟩) hroot
      have hrun' := Walk.run_filesFrom (w := ⟨t', follow, excludes⟩) hroot'
      have hsorted := h.lacks.namesakes_sortedByName (FileTree.entriesAt_of_resolve hroot)
        (FileTree.entriesAt_of_resolve hroot')
      have hfirst (e : Entry) (he : e ∈ Entry.sortedByName es) :
          Walk.Meets ⟨t, follow, excludes⟩ root ⟨⟨⟨root, []⟩, top⟩, [], e⟩ :=
        Walk.meets_first hroot (Entry.mem_sortedByName.1 he)
      -- the run through the namesakes is the one that the other walk makes
      rcases h.run hrun hfirst with hstopped | ⟨result', halike, hends⟩
      · exact .inl hstopped
      · rw [hsorted] at halike
        rw [hrun'.unique halike] at hends
        exact .inr hends

end HiddenPlaces

end BareCallGraph
