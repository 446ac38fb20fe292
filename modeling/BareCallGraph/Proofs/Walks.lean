import BareCallGraph.Proofs.Locations
import Mathlib.Logic.Relation

/-!
# What a walk comes to

A walk comes to the entries of its root, and to those of every directory that it goes into
(`Walk.Meets`). It goes into directories that are not left out and, if it follows links, through links
to directories that are not open (`Encounter.Enters`). It ends at a link that leads nowhere or to an open
directory (`Encounter.Stops`).

A `Walk.Run` goes through entries one after the other and into directories. None of this mentions a
bound, and the directories that a walk counts as closed do not cut it off: what it computes is how its
run ends, and there is one such end. A run that ends well lists exactly the files that it comes to and
comes to nothing that ends a walk; one that fails does so at an entry that it comes to.
-/

namespace BareCallGraph

/-- An entry that a walk comes to, in the innermost of the directories that are open. -/
structure Encounter where
  /-- The directory that holds the entry. -/
  here : OpenDirectory
  /-- The directories that the walk went through before, innermost first. -/
  above : List OpenDirectory
  /-- The entry. -/
  entry : Entry

namespace Encounter

variable {w : Walk} {v : Encounter}

/-- The path of the entry. -/
def path (v : Encounter) : TreePath := v.here.path.child v.entry.name

/-- The walk goes into a directory: into the entry, or to where the entry leads. -/
inductive Enters (w : Walk) : Encounter → OpenDirectory → List Entry → Prop where
  /-- A directory that is not left out. -/
  | directory {here : OpenDirectory} {above : List OpenDirectory} {n : FileName} {es : List Entry}
      (included : w.excludes n = false) :
      Enters w ⟨here, above, .directory n es⟩ ⟨here.path.child n, here.location ++ [n]⟩ es
  /-- A link to a directory that is not open, if links are followed and it is not left out. -/
  | link {here : OpenDirectory} {above : List OpenDirectory} {n : FileName} {target : Path}
      {location : Location} {es : List Entry} (follows : w.followLinks = true)
      (leads : w.tree.resolve (here.path.child n).toPath = .ok (.directory location es))
      (fresh : ∀ d ∈ here :: above, d.location ≠ location) (included : w.excludes n = false) :
      Enters w ⟨here, above, .link n target⟩ ⟨here.path.child n, location⟩ es

/-- The walk cannot go on from the entry. -/
inductive Stops (w : Walk) : Encounter → WalkError → Prop where
  /-- A link to be followed leads nowhere. -/
  | unreachable {here : OpenDirectory} {above : List OpenDirectory} {n : FileName} {target : Path}
      {cause : FileError} (follows : w.followLinks = true)
      (leads : w.tree.resolve (here.path.child n).toPath = .error cause) :
      Stops w ⟨here, above, .link n target⟩ (.unreachable (here.path.child n) cause)
  /-- A link to be followed leads to an open directory. The error names the innermost one that stands
  there. -/
  | loop {here ancestor : OpenDirectory} {above inner outer : List OpenDirectory} {n : FileName}
      {target : Path} {es : List Entry} (follows : w.followLinks = true)
      (leads : w.tree.resolve (here.path.child n).toPath = .ok (.directory ancestor.location es))
      (isOpen : here :: above = inner ++ ancestor :: outer)
      (innermost : ∀ d ∈ inner, d.location ≠ ancestor.location) :
      Stops w ⟨here, above, .link n target⟩ (.loop (here.path.child n) ancestor.path)

/-- The entry is a file, or a link that leads to one. -/
inductive IsFile (w : Walk) : Encounter → Prop where
  | file {here : OpenDirectory} {above : List OpenDirectory} {n : FileName} {content : ByteArray} :
      IsFile w ⟨here, above, .file n content⟩
  | link {here : OpenDirectory} {above : List OpenDirectory} {n : FileName} {target : Path}
      {content : ByteArray}
      (leads : w.tree.resolve (here.path.child n).toPath = .ok (.file content)) :
      IsFile w ⟨here, above, .link n target⟩

/-- A directory is entered by the path of the entry that leads into it. -/
theorem Enters.path_eq {d : OpenDirectory} {es : List Entry} (h : v.Enters w d es) :
    d.path = v.path := by
  cases h <;> rfl

/-- A walk that ends at an entry reports the path of the entry. -/
theorem Stops.path_eq {err : WalkError} (h : v.Stops w err) : err.path = v.path := by
  cases h <;> rfl

/-- An entry leads into one directory at most. -/
theorem Enters.unique {d d' : OpenDirectory} {es es' : List Entry} (h : v.Enters w d es)
    (h' : v.Enters w d' es') : d = d' ∧ es = es' := by
  cases h with
  | directory => cases h'; exact ⟨rfl, rfl⟩
  | link follows leads =>
    cases h' with
    | link follows' leads' =>
      rw [leads] at leads'
      cases leads'
      exact ⟨rfl, rfl⟩

/-- A walk never goes into what it lists. -/
theorem Enters.not_isFile {d : OpenDirectory} {es : List Entry} (h : v.Enters w d es) :
    ¬ v.IsFile w := by
  intro hfile
  cases h with
  | directory => cases hfile
  | link follows leads =>
    cases hfile with
    | link leads' =>
      rw [leads] at leads'
      cases leads'

/-- A walk goes on from where it goes into a directory. -/
theorem Enters.not_stops {d : OpenDirectory} {es : List Entry} {err : WalkError}
    (h : v.Enters w d es) : ¬ v.Stops w err := by
  intro hstops
  cases h with
  | directory => cases hstops
  | link follows leads fresh =>
    cases hstops with
    | unreachable _ leads' =>
      rw [leads] at leads'
      cases leads'
    | loop _ leads' isOpen =>
      rw [leads] at leads'
      cases leads'
      rw [isOpen] at fresh
      exact fresh _ (by simp) rfl

/-- A walk goes on from a file. -/
theorem IsFile.not_stops {err : WalkError} (h : v.IsFile w) : ¬ v.Stops w err := by
  intro hstops
  cases h with
  | file => cases hstops
  | link leads =>
    cases hstops with
    | unreachable _ leads' =>
      rw [leads] at leads'
      cases leads'
    | loop _ leads' =>
      rw [leads] at leads'
      cases leads'

end Encounter

namespace Walk

variable {w : Walk} {here : OpenDirectory} {above : List OpenDirectory} {es : List Entry}
  {v v' : Encounter}

/-- From an entry the walk comes to those in the directory that it goes into. -/
def Next (w : Walk) (v v' : Encounter) : Prop :=
  ∃ d es, v.Enters w d es ∧ ∃ e ∈ es, v' = ⟨d, v.here :: v.above, e⟩

/-- From an entry the walk comes to another, through any number of directories. -/
def Reaches (w : Walk) : Encounter → Encounter → Prop := Relation.ReflTransGen w.Next

/-- From the entries of the innermost open directory the walk comes to an entry. -/
def ReachesFrom (w : Walk) (here : OpenDirectory) (above : List OpenDirectory) (es : List Entry)
    (v : Encounter) : Prop :=
  ∃ e ∈ es, w.Reaches ⟨here, above, e⟩ v

/-- A walk from a root comes to an entry. -/
def Meets (w : Walk) (root : String) (v : Encounter) : Prop :=
  ∃ location es, w.tree.resolve (TreePath.mk root []).toPath = .ok (.directory location es) ∧
    w.ReachesFrom ⟨⟨root, []⟩, location⟩ [] es v

/-- A walk comes to what its root directory holds. -/
theorem meets_first {root : String} {location : Location} {e : Entry}
    (hroot : w.tree.resolve (TreePath.mk root []).toPath = .ok (.directory location es))
    (he : e ∈ es) : w.Meets root ⟨⟨⟨root, []⟩, location⟩, [], e⟩ :=
  ⟨location, es, hroot, e, he, .refl⟩

/-- A walk comes to what a directory holds that it goes into. -/
theorem Meets.next {root : String} {d : OpenDirectory} {e : Entry} (h : w.Meets root v)
    (henters : v.Enters w d es) (he : e ∈ es) : w.Meets root ⟨d, v.here :: v.above, e⟩ := by
  obtain ⟨location, es', hroot, e', he', hreaches⟩ := h
  exact ⟨location, es', hroot, e', he', hreaches.tail ⟨d, es, henters, e, he, rfl⟩⟩

/-- What holds of the entries of the root, and passes on from an entry to those in the directory that
the walk goes into, holds of every entry that the walk comes to. -/
theorem Meets.induct {root : String} {motive : ∀ v, w.Meets root v → Prop}
    (first : ∀ {location : Location} {es : List Entry} {e : Entry}
      (hroot : w.tree.resolve (TreePath.mk root []).toPath = .ok (.directory location es))
      (he : e ∈ es), motive _ (meets_first hroot he))
    (next : ∀ {v : Encounter} {d : OpenDirectory} {es : List Entry} {e : Entry}
      (hv : w.Meets root v) (henters : v.Enters w d es) (he : e ∈ es), motive v hv →
      motive _ (hv.next henters he)) (h : w.Meets root v) : motive v h := by
  obtain ⟨location, es, hroot, e, he, hreaches⟩ := h
  induction hreaches with
  | refl => exact first hroot he
  | tail hreaches hnext ih =>
    obtain ⟨d, inner, henters, f, hf, rfl⟩ := hnext
    exact next ⟨location, es, hroot, e, he, hreaches⟩ henters hf ih

/-- The walk comes to the entry itself, and to what it reaches from the directory that the entry leads
into. -/
theorem reaches_iff :
    w.Reaches v v' ↔ v' = v ∨ ∃ d es, v.Enters w d es ∧ w.ReachesFrom d (v.here :: v.above) es v' := by
  rw [Reaches, Relation.ReflTransGen.cases_head_iff, eq_comm]
  refine or_congr_right ?_
  constructor
  · intro h
    obtain ⟨_, ⟨d, es, henters, e, he, rfl⟩, hreaches⟩ := h
    exact ⟨d, es, henters, e, he, hreaches⟩
  · intro h
    obtain ⟨d, es, henters, e, he, hreaches⟩ := h
    exact ⟨_, ⟨d, es, henters, e, he, rfl⟩, hreaches⟩

/-- Which directory the entry leads into may be given. -/
theorem reaches_of_enters {d : OpenDirectory} (h : v.Enters w d es) :
    w.Reaches v v' ↔ v' = v ∨ w.ReachesFrom d (v.here :: v.above) es v' := by
  rw [reaches_iff]
  refine or_congr_right ?_
  constructor
  · intro hreaches
    obtain ⟨d', es', h', hreaches⟩ := hreaches
    obtain ⟨rfl, rfl⟩ := h.unique h'
    exact hreaches
  · intro hreaches
    exact ⟨d, es, h, hreaches⟩

/-- From an entry that leads into no directory the walk comes to nothing else. -/
theorem reaches_of_not_enters (h : ∀ d es, ¬ v.Enters w d es) : w.Reaches v v' ↔ v' = v := by
  rw [reaches_iff]
  refine or_iff_left ?_
  intro henters
  obtain ⟨d, es, henters, -⟩ := henters
  exact h d es henters

/-- From a file the walk comes to nothing else. -/
theorem reaches_of_isFile (h : v.IsFile w) : w.Reaches v v' ↔ v' = v :=
  reaches_of_not_enters fun _ _ henters => henters.not_isFile h

/-- From no entries the walk comes to nothing. -/
@[simp]
theorem not_reachesFrom_nil : ¬ w.ReachesFrom here above [] v := by
  simp [ReachesFrom]

/-- From several entries the walk comes to what it reaches from the first one or from the others. -/
theorem reachesFrom_cons {e : Entry} :
    w.ReachesFrom here above (e :: es) v ↔
      w.Reaches ⟨here, above, e⟩ v ∨ w.ReachesFrom here above es v := by
  simp [ReachesFrom]

/-- The order of the entries does not matter for what the walk comes to. -/
theorem reachesFrom_sortedByName :
    w.ReachesFrom here above (Entry.sortedByName es) v ↔ w.ReachesFrom here above es v := by
  simp only [ReachesFrom, Entry.mem_sortedByName]

/-- What the walk comes to from an entry lies at or below the path of the entry. -/
theorem Reaches.path {v v' : Encounter} (h : w.Reaches v v') :
    v'.path.root = v.path.root ∧ ∃ rest, v'.path.below = v.path.below ++ rest := by
  induction h with
  | refl => exact ⟨rfl, [], by simp⟩
  | tail _ hnext ih =>
    obtain ⟨d, es, henters, e, -, rfl⟩ := hnext
    obtain ⟨hroot, rest, hbelow⟩ := ih
    have hd := henters.path_eq
    refine ⟨?_, rest ++ [e.name], ?_⟩
    · rw [← hroot, ← hd]
      rfl
    · rw [← List.append_assoc, ← hbelow, ← hd]
      rfl

/-- What the walk comes to from entries of a directory lies at or below the path of one of them. -/
theorem ReachesFrom.path (h : w.ReachesFrom here above es v) :
    v.path.root = here.path.root ∧
      ∃ e ∈ es, ∃ rest, v.path.below = here.path.below ++ e.name :: rest := by
  obtain ⟨e, he, hreaches⟩ := h
  obtain ⟨hroot, rest, hbelow⟩ := hreaches.path
  refine ⟨hroot, e, he, rest, ?_⟩
  rw [hbelow]
  simp [Encounter.path, TreePath.child]

/-! ## Runs -/

/-- How a walk goes through entries of the innermost open directory, and how it ends. -/
inductive Run (w : Walk) : OpenDirectory → List OpenDirectory → List Entry →
    Except WalkError (List TreePath) → Prop where
  /-- There are no entries left. -/
  | done {here : OpenDirectory} {above : List OpenDirectory} : Run w here above [] (.ok [])
  /-- The next entry ends the walk. -/
  | stop {here : OpenDirectory} {above : List OpenDirectory} {e : Entry} {es : List Entry}
      {err : WalkError} (stops : Encounter.Stops w ⟨here, above, e⟩ err) :
      Run w here above (e :: es) (.error err)
  /-- The next entry is listed. -/
  | list {here : OpenDirectory} {above : List OpenDirectory} {e : Entry} {es : List Entry}
      {result : Except WalkError (List TreePath)} (isFile : Encounter.IsFile w ⟨here, above, e⟩)
      (later : Run w here above es result) :
      Run w here above (e :: es) (result.map ([here.path.child e.name] ++ ·))
  /-- The next entry is passed over. -/
  | pass {here : OpenDirectory} {above : List OpenDirectory} {e : Entry} {es : List Entry}
      {result : Except WalkError (List TreePath)}
      (notFile : ¬ Encounter.IsFile w ⟨here, above, e⟩)
      (notEntered : ∀ d inner, ¬ Encounter.Enters w ⟨here, above, e⟩ d inner)
      (notStopped : ∀ err, ¬ Encounter.Stops w ⟨here, above, e⟩ err)
      (later : Run w here above es result) : Run w here above (e :: es) result
  /-- The walk goes into the next entry and ends there. -/
  | fail {here d : OpenDirectory} {above : List OpenDirectory} {e : Entry} {es inner : List Entry}
      {err : WalkError} (enters : Encounter.Enters w ⟨here, above, e⟩ d inner)
      (inside : Run w d (here :: above) (Entry.sortedByName inner) (.error err)) :
      Run w here above (e :: es) (.error err)
  /-- The walk goes into the next entry and on behind it. -/
  | enter {here d : OpenDirectory} {above : List OpenDirectory} {e : Entry} {es inner : List Entry}
      {files : List TreePath} {result : Except WalkError (List TreePath)}
      (enters : Encounter.Enters w ⟨here, above, e⟩ d inner)
      (inside : Run w d (here :: above) (Entry.sortedByName inner) (.ok files))
      (later : Run w here above es result) : Run w here above (e :: es) (result.map (files ++ ·))

/-- Every directory of the tree is open or counts as closed. -/
def Covers (w : Walk) (stack : List OpenDirectory) (closed : List Location) : Prop :=
  ∀ location ∈ w.tree.locations, location ∈ closed ∨ ∃ d ∈ stack, d.location = location

/-- A further directory may be open. -/
theorem Covers.push {stack : List OpenDirectory} {closed : List Location}
    (h : w.Covers stack closed) (d : OpenDirectory) : w.Covers (d :: stack) closed := by
  intro location hlocation
  rcases h location hlocation with hclosed | ⟨d', hd', heq⟩
  · exact .inl hclosed
  · exact .inr ⟨d', .tail _ hd', heq⟩

/-- A directory that was closed may be open instead. -/
theorem Covers.erase {stack : List OpenDirectory} {closed : List Location}
    (h : w.Covers stack closed) (d : OpenDirectory) :
    w.Covers (d :: stack) (closed.erase d.location) := by
  intro location hlocation
  by_cases heq : location = d.location
  · exact .inr ⟨d, .head _, heq.symm⟩
  · rcases h location hlocation with hclosed | ⟨d', hd', hd⟩
    · exact .inl ((List.mem_erase_of_ne heq).2 hclosed)
    · exact .inr ⟨d', .tail _ hd', hd⟩

/-- In every run that comes to an entry, the entry contributes the given outcome. -/
def Yields (w : Walk) (here : OpenDirectory) (above : List OpenDirectory) (e : Entry) :
    Except WalkError (List TreePath) → Prop
  | .error err => ∀ es, w.Run here above (e :: es) (.error err)
  | .ok files => ∀ es result, w.Run here above es result →
      w.Run here above (e :: es) (result.map (files ++ ·))

/-- An entry that leads into a directory contributes what the run through the directory ends with. -/
theorem yields_of_enters {d : OpenDirectory} {e : Entry} {inner : List Entry}
    {result : Except WalkError (List TreePath)} (h : Encounter.Enters w ⟨here, above, e⟩ d inner)
    (hrun : w.Run d (here :: above) (Entry.sortedByName inner) result) :
    w.Yields here above e result := by
  cases result with
  | error err =>
    intro es
    exact .fail h hrun
  | ok files =>
    intro es later hlater
    exact .enter h hrun hlater

/-- An entry that ends the walk contributes its error. -/
theorem yields_of_stops {e : Entry} {err : WalkError}
    (h : Encounter.Stops w ⟨here, above, e⟩ err) : w.Yields here above e (.error err) := by
  intro es
  exact .stop h

/-- A file contributes its path. -/
theorem yields_of_isFile {e : Entry} (h : Encounter.IsFile w ⟨here, above, e⟩) :
    w.Yields here above e (.ok [here.path.child e.name]) := by
  intro es result hlater
  exact .list h hlater

/-- An entry that is neither listed nor gone into nor the end of the walk contributes nothing. -/
theorem yields_of_none {e : Entry} (hfile : ¬ Encounter.IsFile w ⟨here, above, e⟩)
    (henters : ∀ d inner, ¬ Encounter.Enters w ⟨here, above, e⟩ d inner)
    (hstops : ∀ err, ¬ Encounter.Stops w ⟨here, above, e⟩ err) : w.Yields here above e (.ok []) := by
  intro es result hlater
  have hmap : result.map ([] ++ ·) = result := by cases result <;> rfl
  rw [hmap]
  exact .pass hfile henters hstops hlater

/-- A link that is not followed and leads to no file is passed over. -/
theorem yields_of_unfollowed {n : FileName} {target : Path} (hfollow : ¬ w.followLinks = true)
    (hresolve : ∀ content, w.tree.resolve (here.path.child n).toPath ≠ .ok (.file content)) :
    w.Yields here above (.link n target) (.ok []) := by
  refine yields_of_none ?_ ?_ ?_
  · intro h
    cases h with
    | link leads => exact hresolve _ leads
  · intro d inner h
    cases h with
    | link follows => exact hfollow follows
  · intro err h
    cases h with
    | unreachable follows => exact hfollow follows
    | loop follows => exact hfollow follows

/-- A link that leads to a directory, and the first of the open directories that stands there. -/
theorem stops_of_find? {ancestor : OpenDirectory} {n : FileName} {target : Path}
    {location : Location} (hfollow : w.followLinks = true)
    (hresolve : w.tree.resolve (here.path.child n).toPath = .ok (.directory location es))
    (hfind : (here :: above).find? (·.location == location) = some ancestor) :
    Encounter.Stops w ⟨here, above, .link n target⟩ (.loop (here.path.child n) ancestor.path) := by
  obtain ⟨hlocation, inner, outer, hopen, hinner⟩ := List.find?_eq_some_iff_append.1 hfind
  have hlocation : ancestor.location = location := by simpa using hlocation
  subst hlocation
  refine .loop hfollow hresolve hopen ?_
  intro d hd
  simpa using hinner d hd

/-- A directory that is left out is passed over. -/
theorem yields_of_excluded_directory {n : FileName} (hexcluded : w.excludes n = true) :
    w.Yields here above (.directory n es) (.ok []) := by
  refine yields_of_none ?_ ?_ ?_
  · intro h
    cases h
  · intro d inner h
    cases h with
    | directory included => simp [hexcluded] at included
  · intro err h
    cases h

/-- A link that is left out is passed over, if it leads to a directory that is not open. -/
theorem yields_of_excluded_link {n : FileName} {target : Path} {location : Location}
    (hresolve : w.tree.resolve (here.path.child n).toPath = .ok (.directory location es))
    (hfresh : ∀ d ∈ here :: above, d.location ≠ location) (hexcluded : w.excludes n = true) :
    w.Yields here above (.link n target) (.ok []) := by
  refine yields_of_none ?_ ?_ ?_
  · intro h
    cases h with
    | link leads => simp [hresolve] at leads
  · intro d inner h
    cases h with
    | link _ _ _ included => simp [hexcluded] at included
  · intro err h
    cases h with
    | unreachable _ leads => simp [hresolve] at leads
    | loop _ leads isOpen =>
      rw [hresolve] at leads
      cases leads
      exact hfresh _ (isOpen ▸ by simp) rfl

/-- A directory that a path leads to and that is not open counts as closed. -/
theorem Covers.mem_closed {stack : List OpenDirectory} {closed : List Location} {path : Path}
    {location : Location} (h : w.Covers stack closed)
    (hresolve : w.tree.resolve path = .ok (.directory location es))
    (hfresh : ∀ d ∈ stack, d.location ≠ location) : location ∈ closed := by
  have hlocation := FileTree.mem_locations (FileTree.entriesAt_of_resolve hresolve)
  rcases h location hlocation with hclosed | ⟨d, hd, hopen⟩
  · exact hclosed
  · exact absurd hopen (hfresh d hd)

/-- What an entry contributes comes before what the run makes of the later entries. -/
theorem Yields.run {e : Entry} {files : List TreePath} {result : Except WalkError (List TreePath)}
    (h : w.Yields here above e (.ok files)) (hrun : w.Run here above es result) :
    w.Run here above (e :: es) (result.map (files ++ ·)) :=
  h es result hrun

/-- The list of closed directories never cuts a walk off: what the walk computes is how its run ends. -/
theorem run_visitAll (w : Walk) :
    (∀ here above closed e, w.Covers (here :: above) closed →
      w.Yields here above e (w.visit here above closed e)) ∧
    ∀ here above closed es, w.Covers (here :: above) closed →
      w.Run here above es (w.visitAll here above closed es) := by
  -- along the recursion of the walk, with a case for each of its branches
  apply visit.mutual_induct w
  case case1 =>
    intro here above closed n content _
    rw [visit]
    exact yields_of_isFile .file
  case case2 =>
    intro here above closed n es hexcluded _
    rw [visit, if_pos hexcluded]
    exact yields_of_excluded_directory hexcluded
  case case3 =>
    intro here above closed n es hincluded ih hcovers
    rw [visit, if_neg hincluded]
    exact yields_of_enters (.directory (by simpa using hincluded)) (ih (hcovers.push _))
  case case4 =>
    intro here above closed n target path cause hresolve hfollow _
    subst path
    simp only [visit, hresolve, hfollow, if_true]
    exact yields_of_stops (.unreachable hfollow hresolve)
  case case5 =>
    intro here above closed n target path cause hresolve hfollow _
    subst path
    simp only [visit, hresolve, hfollow]
    exact yields_of_unfollowed hfollow (by simp [hresolve])
  case case6 =>
    intro here above closed n target path content hresolve _
    subst path
    simp only [visit, hresolve]
    exact yields_of_isFile (.link hresolve)
  case case7 =>
    intro here above closed n target path location es hresolve hfollow ancestor hfind _
    subst path
    simp only [visit, hresolve, hfollow, hfind, if_true]
    exact yields_of_stops (stops_of_find? hfollow hresolve hfind)
  case case8 =>
    intro here above closed n target path location es hresolve hfollow hfind hexcluded _
    subst path
    simp only [visit, hresolve, hfollow, hfind, hexcluded, if_true]
    exact yields_of_excluded_link hresolve (by simpa using hfind) hexcluded
  case case9 =>
    intro here above closed n target path location es hresolve hfollow hfind hincluded hclosed ih
      hcovers
    subst path
    simp only [visit, hresolve, hfollow, hfind, hincluded, hclosed, if_true]
    exact yields_of_enters (.link hfollow hresolve (by simpa using hfind) (by simpa using hincluded))
      (ih (hcovers.erase _))
  case case10 =>
    intro here above closed n target path location es hresolve hfollow hfind hincluded hclosed hcovers
    -- the directory is neither open nor counted as closed, which leaves none
    exact absurd (hcovers.mem_closed hresolve (by simpa using hfind)) hclosed
  case case11 =>
    intro here above closed n target path location es hresolve hfollow _
    subst path
    simp only [visit, hresolve, hfollow]
    exact yields_of_unfollowed hfollow (by simp [hresolve])
  case case12 =>
    intro here above closed _
    rw [visitAll]
    exact .done
  case case13 =>
    intro here above closed e es err he ih hcovers
    rw [visitAll, he]
    rw [he] at ih
    exact ih hcovers es
  case case14 =>
    intro here above closed e es files he err hes ih ihs hcovers
    rw [visitAll, he, hes]
    rw [he] at ih
    rw [hes] at ihs
    exact (ih hcovers).run (ihs hcovers)
  case case15 =>
    intro here above closed e es files he later hes ih ihs hcovers
    rw [visitAll, he, hes]
    rw [he] at ih
    rw [hes] at ihs
    exact (ih hcovers).run (ihs hcovers)

end Walk

namespace Encounter

variable {w : Walk} {v : Encounter}

/-- A link ends a walk that follows it if it leads nowhere or to a directory that is open. -/
theorem stops_link_iff {here : OpenDirectory} {above : List OpenDirectory} {n : FileName}
    {target : Path} {err : WalkError} :
    Stops w ⟨here, above, .link n target⟩ err ↔ w.followLinks = true ∧
      ((∃ cause, w.tree.resolve (here.path.child n).toPath = .error cause ∧
          err = .unreachable (here.path.child n) cause) ∨
        ∃ location es ancestor,
          w.tree.resolve (here.path.child n).toPath = .ok (.directory location es) ∧
          (here :: above).find? (·.location == location) = some ancestor ∧
          err = .loop (here.path.child n) ancestor.path) := by
  constructor
  · intro h
    cases h with
    | unreachable follows leads => exact ⟨follows, .inl ⟨_, leads, rfl⟩⟩
    | @loop _ ancestor _ inner outer _ _ es follows leads isOpen innermost =>
      refine ⟨follows, .inr ⟨_, es, ancestor, leads, ?_, rfl⟩⟩
      refine List.find?_eq_some_iff_append.2 ⟨by simp, inner, outer, isOpen, ?_⟩
      simpa using innermost
  · rintro ⟨follows, ⟨cause, leads, rfl⟩ | ⟨location, es, ancestor, leads, hfind, rfl⟩⟩
    · exact .unreachable follows leads
    · exact Walk.stops_of_find? follows leads hfind

/-- An entry ends a walk with one error at most. -/
theorem Stops.unique {err err' : WalkError} (h : v.Stops w err) (h' : v.Stops w err') : err = err' := by
  obtain ⟨here, above, e⟩ := v
  cases e with
  | file n content => cases h
  | directory n es => cases h
  | link n target =>
    rw [stops_link_iff] at h h'
    grind

end Encounter

namespace Walk

/-! ## How runs go on -/

section GoOn

variable {w : Walk} {here d : OpenDirectory} {above : List OpenDirectory} {e : Entry}
  {es inner : List Entry} {err : WalkError} {result result' : Except WalkError (List TreePath)}

/-- If the first entry ends the walk, the run ends with its error. -/
theorem Run.of_stops (h : w.Run here above (e :: es) result)
    (hstops : Encounter.Stops w ⟨here, above, e⟩ err) : result = .error err := by
  cases h with
  | stop stops => rw [stops.unique hstops]
  | list isFile => exact absurd hstops isFile.not_stops
  | pass _ _ notStopped => exact absurd hstops (notStopped err)
  | fail enters => exact absurd hstops enters.not_stops
  | enter enters => exact absurd hstops enters.not_stops

/-- If the first entry is listed, its path comes before what the run makes of the later entries. -/
theorem Run.of_isFile (h : w.Run here above (e :: es) result)
    (hfile : Encounter.IsFile w ⟨here, above, e⟩) :
    ∃ later, w.Run here above es later ∧ result = later.map ([here.path.child e.name] ++ ·) := by
  cases h with
  | stop stops => exact absurd stops hfile.not_stops
  | list _ later => exact ⟨_, later, rfl⟩
  | pass notFile => exact absurd hfile notFile
  | fail enters => exact absurd hfile enters.not_isFile
  | enter enters => exact absurd hfile enters.not_isFile

/-- If the first entry is passed over, the run is that of the later entries. -/
theorem Run.of_passed (h : w.Run here above (e :: es) result)
    (hfile : ¬ Encounter.IsFile w ⟨here, above, e⟩)
    (henters : ∀ d inner, ¬ Encounter.Enters w ⟨here, above, e⟩ d inner)
    (hstops : ∀ err, ¬ Encounter.Stops w ⟨here, above, e⟩ err) : w.Run here above es result := by
  cases h with
  | stop stops => exact absurd stops (hstops _)
  | list isFile => exact absurd isFile hfile
  | pass _ _ _ later => exact later
  | fail enters => exact absurd enters (henters _ _)
  | enter enters => exact absurd enters (henters _ _)

/-- If the first entry leads into a directory, the run ends in it, or goes on behind it and lists its
files first. -/
theorem Run.of_enters (h : w.Run here above (e :: es) result)
    (henters : Encounter.Enters w ⟨here, above, e⟩ d inner) :
    (∃ err, w.Run d (here :: above) (Entry.sortedByName inner) (.error err) ∧ result = .error err) ∨
      ∃ files later, w.Run d (here :: above) (Entry.sortedByName inner) (.ok files) ∧
        w.Run here above es later ∧ result = later.map (files ++ ·) := by
  cases h with
  | stop stops => exact absurd stops henters.not_stops
  | list isFile => exact absurd isFile henters.not_isFile
  | pass _ notEntered => exact absurd henters (notEntered _ _)
  | fail enters inside =>
    obtain ⟨rfl, rfl⟩ := henters.unique enters
    exact .inl ⟨_, inside, rfl⟩
  | enter enters inside later =>
    obtain ⟨rfl, rfl⟩ := henters.unique enters
    exact .inr ⟨_, _, inside, later, rfl⟩

/-- There is one way to go through entries, and one end to it. -/
theorem Run.unique (h : w.Run here above es result) (h' : w.Run here above es result') :
    result' = result := by
  induction h generalizing result' with
  | done =>
    cases h'
    rfl
  | stop stops => exact h'.of_stops stops
  | list isFile later ih =>
    obtain ⟨later', hlater', rfl⟩ := h'.of_isFile isFile
    rw [ih hlater']
  | pass notFile notEntered notStopped later ih => exact ih (h'.of_passed notFile notEntered notStopped)
  | fail enters inside ih =>
    rcases h'.of_enters enters with ⟨err', hinside, rfl⟩ | ⟨files, later, hinside, -, rfl⟩
    · exact ih hinside
    · cases ih hinside
  | enter enters inside later ihInside ih =>
    rcases h'.of_enters enters with ⟨err', hinside, rfl⟩ | ⟨files, later', hinside, hlater', rfl⟩
    · cases ihInside hinside
    · cases ihInside hinside
      rw [ih hlater']

end GoOn

/-! ## How runs end -/

variable {w : Walk} {here : OpenDirectory} {above : List OpenDirectory} {es : List Entry}

/-- A changed outcome is good where the outcome was. -/
theorem map_eq_ok_iff {ε α β : Type} {x : Except ε α} {f : α → β} {b : β} :
    x.map f = .ok b ↔ ∃ a, x = .ok a ∧ f a = b := by
  cases x <;> simp [Except.map]

/-- A changed outcome is an error where the outcome was, and the same one. -/
theorem map_eq_error_iff {ε α β : Type} {x : Except ε α} {f : α → β} {e : ε} :
    x.map f = .error e ↔ x = .error e := by
  cases x <;> simp [Except.map]

variable {result : Except WalkError (List TreePath)} {files : List TreePath} {err : WalkError}

/-- A run that ends well comes to nothing that ends a walk. -/
theorem Run.not_stops (h : w.Run here above es result) (hok : result = .ok files) :
    ∀ v, w.ReachesFrom here above es v → ∀ err, ¬ v.Stops w err := by
  induction h generalizing files with
  | done => simp
  | stop => contradiction
  | fail => contradiction
  | list isFile later ih =>
    obtain ⟨rest, hrest, -⟩ := map_eq_ok_iff.1 hok
    intro v hv err hstops
    rcases reachesFrom_cons.1 hv with hv | hv
    · rw [reaches_of_isFile isFile] at hv
      subst hv
      exact isFile.not_stops hstops
    · exact ih hrest v hv err hstops
  | pass notFile notEntered notStopped later ih =>
    intro v hv err hstops
    rcases reachesFrom_cons.1 hv with hv | hv
    · rw [reaches_of_not_enters notEntered] at hv
      subst hv
      exact notStopped err hstops
    · exact ih hok v hv err hstops
  | enter enters inside later ihInside ih =>
    obtain ⟨rest, hrest, -⟩ := map_eq_ok_iff.1 hok
    intro v hv err hstops
    rcases reachesFrom_cons.1 hv with hv | hv
    · rcases (reaches_of_enters enters).1 hv with rfl | hv
      · exact enters.not_stops hstops
      · exact ihInside rfl v (reachesFrom_sortedByName.2 hv) err hstops
    · exact ih hrest v hv err hstops

/-- A run that ends well lists the files that it comes to. -/
theorem Run.mem_iff (h : w.Run here above es result) (hok : result = .ok files) (p : TreePath) :
    p ∈ files ↔ ∃ v, w.ReachesFrom here above es v ∧ v.IsFile w ∧ p = v.path := by
  induction h generalizing files with
  | done =>
    cases hok
    simp
  | stop => contradiction
  | fail => contradiction
  | list isFile later ih =>
    obtain ⟨rest, hrest, rfl⟩ := map_eq_ok_iff.1 hok
    simp only [List.singleton_append, List.mem_cons, ih hrest, reachesFrom_cons,
      reaches_of_isFile isFile, or_and_right, exists_or, exists_eq_left, isFile, true_and]
    rfl
  | pass notFile notEntered notStopped later ih =>
    simp only [ih hok, reachesFrom_cons, reaches_of_not_enters notEntered, or_and_right, exists_or,
      exists_eq_left, notFile, false_and, false_or]
  | enter enters inside later ihInside ih =>
    obtain ⟨rest, hrest, rfl⟩ := map_eq_ok_iff.1 hok
    simp only [List.mem_append, ihInside rfl, ih hrest, reachesFrom_cons, reaches_of_enters enters,
      reachesFrom_sortedByName, or_and_right, exists_or, exists_eq_left, enters.not_isFile, false_and,
      false_or]

/-- A run that fails does so at an entry that it comes to. -/
theorem Run.exists_stops (h : w.Run here above es result) (herror : result = .error err) :
    ∃ v, w.ReachesFrom here above es v ∧ v.Stops w err := by
  induction h with
  | done => contradiction
  | stop stops =>
    cases herror
    exact ⟨_, reachesFrom_cons.2 (.inl .refl), stops⟩
  | list isFile later ih =>
    obtain ⟨v, hv, hstops⟩ := ih (map_eq_error_iff.1 herror)
    exact ⟨v, reachesFrom_cons.2 (.inr hv), hstops⟩
  | pass notFile notEntered notStopped later ih =>
    obtain ⟨v, hv, hstops⟩ := ih herror
    exact ⟨v, reachesFrom_cons.2 (.inr hv), hstops⟩
  | fail enters inside ih =>
    obtain ⟨v, hv, hstops⟩ := ih herror
    refine ⟨v, reachesFrom_cons.2 (.inl ?_), hstops⟩
    exact (reaches_of_enters enters).2 (.inr (reachesFrom_sortedByName.1 hv))
  | enter enters inside later ihInside ih =>
    obtain ⟨v, hv, hstops⟩ := ih (map_eq_error_iff.1 herror)
    exact ⟨v, reachesFrom_cons.2 (.inr hv), hstops⟩

end Walk

end BareCallGraph
