import BareCallGraph.Discovery

/-!
# What discovery does not look at

The skeleton of a tree has all its names, links and directories, and nothing in its files. Paths lead to
the same places in a tree and in its skeleton, and a walk finds the same files. So which files are
discovered never depends on what any file holds.
-/

namespace BareCallGraph

namespace Entry

mutual
/-- An entry with nothing in its files. -/
def skeleton : Entry → Entry
  | file n _ => file n .empty
  | link n target => link n target
  | directory n es => directory n (skeletons es)

/-- Entries with nothing in their files. -/
def skeletons : List Entry → List Entry
  | [] => []
  | e :: es => skeleton e :: skeletons es
end

/-- Contents are taken off entries one by one. -/
theorem skeletons_eq_map (es : List Entry) : skeletons es = es.map skeleton := by
  induction es with
  | nil => rfl
  | cons e es ih => rw [skeletons, ih, List.map_cons]

/-- Without its content an entry has the same name. -/
@[simp]
theorem name_skeleton (e : Entry) : e.skeleton.name = e.name := by
  cases e <;> rfl

/-- Contents do not matter when entries are sorted by their names. -/
theorem sortedByName_skeletons (es : List Entry) :
    sortedByName (skeletons es) = skeletons (sortedByName es) := by
  rw [skeletons_eq_map, skeletons_eq_map, sortedByName, sortedByName]
  refine (List.map_mergeSort ?_).symm
  intro e _ f _
  rw [name_skeleton, name_skeleton]

/-- Contents do not matter when an entry is searched for by its name. -/
theorem find?_skeletons (es : List Entry) (n : FileName) :
    find? (skeletons es) n = (find? es n).map skeleton := by
  rw [skeletons_eq_map, find?, List.find?_map, find?]
  simp only [Function.comp_def, name_skeleton]

mutual
/-- Contents do not matter to whether names are distinct in an entry. -/
theorem hasDistinctNames_skeleton (e : Entry) : e.skeleton.hasDistinctNames = e.hasDistinctNames := by
  cases e with
  | file n content => rfl
  | link n target => rfl
  | directory n es => rw [skeleton, hasDistinctNames, hasDistinctNames, haveDistinctNames_skeletons]

/-- Nor do they matter to whether names are distinct among entries. -/
theorem haveDistinctNames_skeletons (es : List Entry) :
    haveDistinctNames (skeletons es) = haveDistinctNames es := by
  cases es with
  | nil => rfl
  | cons e es =>
    rw [skeletons, haveDistinctNames, haveDistinctNames, hasDistinctNames_skeleton,
      haveDistinctNames_skeletons, skeletons_eq_map, List.all_map]
    simp only [Function.comp_def, name_skeleton]
end

mutual
/-- Contents do not matter to the locations in an entry. -/
theorem locations_skeleton (above : Location) (e : Entry) :
    e.skeleton.locations above = e.locations above := by
  cases e with
  | file n content => rfl
  | link n target => rfl
  | directory n es => rw [skeleton, locations, locations, locationsOf_skeletons]

/-- Nor do they matter to the locations among entries. -/
theorem locationsOf_skeletons (above : Location) (es : List Entry) :
    locationsOf above (skeletons es) = locationsOf above es := by
  cases es with
  | nil => rfl
  | cons e es =>
    rw [skeletons, locationsOf, locationsOf, locations_skeleton, locationsOf_skeletons]
end

end Entry

/-- What a path leads to, with nothing in the files. -/
def Target.skeleton : Target → Target
  | file _ => file .empty
  | directory location es => directory location (Entry.skeletons es)

namespace FileTree

/-- A tree with nothing in its files. -/
def skeleton (t : FileTree) : FileTree where
  entries := Entry.skeletons t.entries
  workingDirectory := t.workingDirectory
  distinct := (Entry.haveDistinctNames_skeletons t.entries).trans t.distinct

/-- The entries below some entries are the same but for their contents. -/
theorem entriesBelow_skeletons (es : List Entry) (location : Location) :
    entriesBelow (Entry.skeletons es) location =
      (entriesBelow es location).map Entry.skeletons := by
  induction location generalizing es with
  | nil => rfl
  | cons n ns ih =>
    rw [entriesBelow, entriesBelow, Entry.find?_skeletons]
    cases Entry.find? es n with
    | none => rfl
    | some e =>
      cases e with
      | file n content => rfl
      | link n target => rfl
      | directory n es => exact ih es

/-- The entries at a location are the same but for their contents. -/
theorem entriesAt_skeleton (t : FileTree) (location : Location) :
    t.skeleton.entriesAt location = (t.entriesAt location).map Entry.skeletons :=
  entriesBelow_skeletons t.entries location

/-- Steps lead to the same place in the skeleton, if links do. -/
theorem take_skeleton (t : FileTree)
    {onLink onLink' : Location → Path → List PathStep → Except FileError Target}
    (hlink : ∀ here target steps,
      onLink' here target steps = (onLink here target steps).map Target.skeleton)
    (here : Location) (steps : List PathStep) :
    t.skeleton.take onLink' here steps = (t.take onLink here steps).map Target.skeleton := by
  induction steps generalizing here with
  | nil =>
    rw [take, take, entriesAt_skeleton]
    cases t.entriesAt here <;> rfl
  | cons step steps ih =>
    cases step with
    | here => exact ih here
    | slash => exact ih here
    | parent => exact ih here.dropLast
    | name n =>
      have hfind : (t.skeleton.entriesAt here).bind (Entry.find? · n) =
          ((t.entriesAt here).bind (Entry.find? · n)).map Entry.skeleton := by
        rw [entriesAt_skeleton]
        cases t.entriesAt here with
        | none => rfl
        | some es => exact Entry.find?_skeletons es n
      rw [take, take, hfind]
      cases (t.entriesAt here).bind (Entry.find? · n) with
      | none => rfl
      | some e =>
        cases e with
        | file m content =>
          simp only [Option.map_some, Entry.skeleton]
          split <;> rfl
        | link m target => exact hlink here target steps
        | directory m es => exact ih (here ++ [n])

/-- Following a path takes the same way whatever the contents are. By induction along the links and
steps. -/
theorem follow_skeleton (t : FileTree) (links : Nat) (here : Location) (steps : List PathStep) :
    t.skeleton.follow links here steps = (t.follow links here steps).map Target.skeleton := by
  induction links generalizing here steps with
  | zero =>
    rw [follow, follow]
    refine t.take_skeleton ?_ here steps
    intro here target steps
    rfl
  | succ links ih =>
    rw [follow, follow]
    refine t.take_skeleton ?_ here steps
    intro here target steps
    exact ih _ _

/-- A path leads to the same place in the skeleton of a tree. -/
theorem resolve_skeleton (t : FileTree) (p : Path) :
    t.skeleton.resolve p = (t.resolve p).map Target.skeleton := by
  rw [resolve, resolve]
  split
  · rfl
  · exact t.follow_skeleton linkLimit _ p.steps

/-- A tree without contents has the same locations. -/
theorem locations_skeleton (t : FileTree) : t.skeleton.locations = t.locations := by
  rw [locations, locations, skeleton, Entry.locationsOf_skeletons]

end FileTree

namespace Walk

/-- The walk through the skeleton of the tree. -/
def skeleton (w : Walk) : Walk := { w with tree := w.tree.skeleton }

/-- A walk resolves paths alike in a tree without contents. -/
@[simp]
theorem resolve_tree_skeleton (w : Walk) (p : Path) :
    w.skeleton.tree.resolve p = (w.tree.resolve p).map Target.skeleton :=
  w.tree.resolve_skeleton p

/-- A walk without contents follows links if the walk does. -/
@[simp]
theorem followLinks_skeleton (w : Walk) : w.skeleton.followLinks = w.followLinks := rfl

/-- A walk without contents excludes the same places. -/
@[simp]
theorem excludes_skeleton (w : Walk) : w.skeleton.excludes = w.excludes := rfl

/-- A walk visits the same files in the skeleton of its tree. -/
theorem visit_skeleton (w : Walk) :
    (∀ here above closed e,
      w.skeleton.visit here above closed e.skeleton = w.visit here above closed e) ∧
    ∀ here above closed es,
      w.skeleton.visitAll here above closed (Entry.skeletons es) =
        w.visitAll here above closed es := by
  apply visit.mutual_induct w
  case case1 =>
    intro here above closed n content
    simp only [Entry.skeleton, visit]
  case case2 =>
    intro here above closed n es hexcluded
    simp [Entry.skeleton, visit, hexcluded]
  case case3 =>
    intro here above closed n es hincluded ih
    simp [Entry.skeleton, visit, hincluded, Entry.sortedByName_skeletons, ih]
  case case9 =>
    intro here above closed n target path location es hresolve hfollow hfind hincluded hclosed ih
    subst path
    simp [Entry.skeleton, visit, hresolve, hfollow, hfind, hincluded, hclosed, Except.map,
      Target.skeleton, Entry.sortedByName_skeletons, ih]
  case case12 =>
    intro here above closed
    simp only [Entry.skeletons, visitAll]
  case case13 =>
    intro here above closed e es err he ih
    simp [Entry.skeletons, visitAll, ih, he]
  case case14 =>
    intro here above closed e es files he err hes ih ihs
    simp [Entry.skeletons, visitAll, ih, ihs, he, hes]
  case case15 =>
    intro here above closed e es files he later hes ih ihs
    simp [Entry.skeletons, visitAll, ih, ihs, he, hes]
  -- what is left are links that the walk does not go into
  all_goals
    intro here above closed n target path
    subst path
    intros
    simp [Entry.skeleton, visit, Except.map, Target.skeleton, *]

/-- A walk finds the same files in the skeleton of its tree. -/
theorem filesFrom_skeleton (w : Walk) (root : String) :
    w.skeleton.filesFrom root = w.filesFrom root := by
  rw [filesFrom, filesFrom, resolve_tree_skeleton]
  cases w.tree.resolve (TreePath.mk root []).toPath with
  | error cause => rfl
  | ok target =>
    cases target with
    | file content => rfl
    | directory location es =>
      have hlocations : w.skeleton.tree.locations = w.tree.locations := w.tree.locations_skeleton
      simp only [Except.map, Target.skeleton, hlocations, Entry.sortedByName_skeletons]
      exact w.visit_skeleton.2 _ _ _ _

end Walk

/-- Trees that differ only in what their files hold have the same source files. -/
theorem discover_eq_of_skeleton_eq {tree other : FileTree} (h : other.skeleton = tree.skeleton)
    (c : Configuration) (root : String) : discover c other root = discover c tree root := by
  have hskeleton (t : FileTree) : discover c t root = discover c t.skeleton root := by
    rw [discover, discover, ← (c.walk t).filesFrom_skeleton root]
    rfl
  rw [hskeleton other, hskeleton tree, h]

end BareCallGraph
