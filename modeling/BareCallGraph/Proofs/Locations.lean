import BareCallGraph.FileTree.Walk

/-!
# Where paths lead

A path that leads to a directory leads to where the directory stands, and a path that goes on from there
can be followed from there, with as many links as are left. What a directory holds under a name is what
the path with that name leads to, since no two of its entries have one name.
-/

namespace BareCallGraph

namespace Entry

/-- If entries have distinct names, what a directory among them holds has distinct names. -/
theorem haveDistinctNames_of_mem {n : FileName} {inner es : List Entry}
    (h : haveDistinctNames es = true) (hmem : directory n inner ∈ es) :
    haveDistinctNames inner = true := by
  induction es with
  | nil => contradiction
  | cons e es ih =>
    obtain ⟨he, -, hes⟩ := haveDistinctNames_cons.1 h
    rcases List.mem_cons.1 hmem with rfl | hmem
    · exact he
    · exact ih hes hmem

/-- An entry is found under its name. -/
theorem find?_name {es : List Entry} (h : haveDistinctNames es = true) {e : Entry} (hmem : e ∈ es) :
    find? es e.name = some e := by
  induction es with
  | nil => contradiction
  | cons f es ih =>
    obtain ⟨-, hne, hes⟩ := haveDistinctNames_cons.1 h
    rcases List.mem_cons.1 hmem with rfl | hmem
    · simp [find?]
    · have hf : f.name ≠ e.name := (hne e hmem).symm
      rw [find?, List.find?_cons_of_neg (by simpa using hf)]
      exact ih hes hmem

/-- What is found under a name is one of the entries and has the name. -/
theorem name_of_find? {es : List Entry} {n : FileName} {e : Entry} (h : find? es n = some e) :
    e ∈ es ∧ e.name = n := by
  refine ⟨List.mem_of_find?_eq_some h, ?_⟩
  simpa using List.find?_some h

/-- Sorting entries keeps them. -/
theorem mem_sortedByName {es : List Entry} {e : Entry} : e ∈ sortedByName es ↔ e ∈ es :=
  List.mem_mergeSort

/-- Entries of different names are sorted strictly. -/
theorem sortedByName_pairwise {es : List Entry} (h : haveDistinctNames es = true) :
    (sortedByName es).Pairwise fun e f => compare e.name f.name = .lt := by
  have hdistinct : es.Pairwise fun e f => e.name ≠ f.name := by
    induction es with
    | nil => exact .nil
    | cons e es ih =>
      obtain ⟨-, hne, hes⟩ := haveDistinctNames_cons.1 h
      exact .cons (fun f hf => (hne f hf).symm) (ih hes)
  have hsorted : (sortedByName es).Pairwise fun e f => (compare e.name f.name).isLE = true := by
    refine List.pairwise_mergeSort ?_ ?_ es
    · intro e f g hef hfg
      exact Std.TransCmp.isLE_trans hef hfg
    · intro e f
      cases hc : compare e.name f.name with
      | lt => simp
      | eq => simp
      | gt => simp [Std.OrientedCmp.lt_of_gt hc]
  have hperm : (sortedByName es).Perm es := List.mergeSort_perm es _
  have hdistinct' : (sortedByName es).Pairwise fun e f => e.name ≠ f.name :=
    hperm.symm.pairwise hdistinct fun hne => hne.symm
  refine (hsorted.and hdistinct').imp ?_
  intro e f hef
  cases hc : compare e.name f.name with
  | lt => rfl
  | eq => exact absurd (Std.LawfulEqOrd.eq_of_compare hc) hef.2
  | gt =>
    rw [hc] at hef
    exact absurd hef.1 (by decide)

end Entry

namespace TreePath

/-- The path of the root is the text of the root, taken apart. -/
theorem toPath_root (root : String) : (TreePath.mk root []).toPath = Path.ofString root := by
  simp [toPath]

/-- The path of what a directory holds goes one step further than that of the directory. -/
theorem toPath_child (p : TreePath) (n : FileName) :
    (p.child n).toPath = { p.toPath with steps := p.toPath.steps ++ [.name n] } := by
  simp [child, toPath]

/-- A path below the directory `repo` is taken apart into its names. -/
theorem toPath_repo (below : List FileName) :
    (TreePath.mk "repo" below).toPath = ⟨false, .name (.ofString "repo") :: below.map .name⟩ := by
  have hroot : Path.ofString "repo" = ⟨false, [.name (.ofString "repo")]⟩ := by decide +kernel
  simp [toPath, hroot]

end TreePath

namespace FileTree

/-! ## Locations -/

/-- Names lead to a directory through a directory that the first ones lead to. -/
theorem entriesBelow_append (es : List Entry) (p q : Location) :
    entriesBelow es (p ++ q) = (entriesBelow es p).bind (entriesBelow · q) := by
  induction p generalizing es with
  | nil => rfl
  | cons n p ih =>
    rw [List.cons_append, entriesBelow, entriesBelow]
    cases Entry.find? es n with
    | none => rfl
    | some e =>
      cases e with
      | file m content => rfl
      | link m target => rfl
      | directory m inner => exact ih inner

/-- If entries have distinct names, so has what any directory below them holds. -/
theorem haveDistinctNames_of_entriesBelow {es inner : List Entry} {p : Location}
    (h : Entry.haveDistinctNames es = true) (hp : entriesBelow es p = some inner) :
    Entry.haveDistinctNames inner = true := by
  induction p generalizing es with
  | nil =>
    cases hp
    exact h
  | cons n p ih =>
    rw [entriesBelow] at hp
    split at hp
    · next m es' hfind =>
      exact ih (Entry.haveDistinctNames_of_mem h (Entry.name_of_find? hfind).1) hp
    · contradiction

variable {t : FileTree}

/-- In a tree what any directory holds has distinct names. -/
theorem distinct_at {here : Location} {es : List Entry} (hes : t.entriesAt here = some es) :
    Entry.haveDistinctNames es = true :=
  haveDistinctNames_of_entriesBelow t.distinct hes

/-- What a directory in a directory holds stands one name further. -/
theorem entriesAt_child {here : Location} {es inner : List Entry} {n m : FileName}
    (hes : t.entriesAt here = some es) (hfind : Entry.find? es n = some (.directory m inner)) :
    t.entriesAt (here ++ [n]) = some inner := by
  have hbelow : entriesBelow t.entries here = some es := hes
  rw [entriesAt, entriesBelow_append, hbelow]
  simp [entriesBelow, hfind]

/-- The locations below the entries of a list include those of each directory in it. -/
theorem sublist_locationsOf {es inner : List Entry} {n : FileName}
    (h : Entry.directory n inner ∈ es) (above : Location) :
    ((above ++ [n]) :: Entry.locationsOf (above ++ [n]) inner).Sublist
      (Entry.locationsOf above es) := by
  induction es with
  | nil => contradiction
  | cons e es ih =>
    rw [Entry.locationsOf]
    rcases List.mem_cons.1 h with rfl | h
    · exact List.sublist_append_left _ _
    · exact (ih h).trans (List.sublist_append_right _ _)

/-- A directory below entries is listed among their locations, and stands no deeper than there are
directories. -/
theorem locations_of_entriesBelow {es inner : List Entry} {p : Location} (above : Location)
    (hp : entriesBelow es p = some inner) :
    (p ≠ [] → above ++ p ∈ Entry.locationsOf above es) ∧
      p.length ≤ (Entry.locationsOf above es).length := by
  induction p generalizing es above with
  | nil => simp
  | cons n p ih =>
    rw [entriesBelow] at hp
    split at hp
    · next m es' hfind =>
      obtain ⟨hmem, rfl⟩ := Entry.name_of_find? hfind
      obtain ⟨hin, hlength⟩ := ih (above ++ [m]) hp
      have hsub := sublist_locationsOf hmem above
      constructor
      · intro _
        by_cases hnil : p = []
        · rw [hnil]
          exact hsub.subset (.head _)
        · have hinner := hin hnil
          rw [List.append_assoc, List.singleton_append] at hinner
          exact hsub.subset (.tail _ hinner)
      · have := hsub.length_le
        simp only [List.length_cons] at this ⊢
        omega
    · contradiction

/-- A directory stands at one of the locations of its tree. -/
theorem mem_locations {location : Location} {es : List Entry} (h : t.entriesAt location = some es) :
    location ∈ t.locations := by
  by_cases hnil : location = []
  · rw [hnil]
    exact .head _
  · exact .tail _ ((locations_of_entriesBelow [] h).1 hnil)

/-- A directory stands less deep than there are directories, for those above it are directories too. -/
theorem length_lt_of_entriesAt {location : Location} {es : List Entry}
    (h : t.entriesAt location = some es) : location.length < t.locations.length := by
  have := (locations_of_entriesBelow [] h).2
  rw [locations, List.length_cons]
  omega

/-! ## Paths -/

section Take

variable {onLink : Location → Path → List PathStep → Except FileError Target}

/-- Steps that lead to a directory lead to where it stands, if links do. -/
theorem entriesAt_of_take (hlink : ∀ here target steps location es,
      onLink here target steps = .ok (.directory location es) → t.entriesAt location = some es)
    {here location : Location} {steps : List PathStep} {es : List Entry}
    (h : t.take onLink here steps = .ok (.directory location es)) :
    t.entriesAt location = some es := by
  induction steps generalizing here with
  | nil =>
    rw [take] at h
    cases hes : t.entriesAt here with
    | none => simp [hes] at h
    | some es' =>
      rw [hes] at h
      cases h
      exact hes
  | cons step steps ih =>
    cases step with
    | here => exact ih h
    | slash => exact ih h
    | parent => exact ih h
    | name n =>
      rw [take] at h
      split at h
      · contradiction
      · exact ih h
      · split at h <;> cases h
      · exact hlink _ _ _ _ _ h

/-- Steps that lead to a directory, and further ones: these are taken from the directory, or go to the
link that the directory was reached through. -/
theorem take_append {here location : Location} {steps : List PathStep} {es : List Entry}
    (h : t.take onLink here steps = .ok (.directory location es)) :
    (∀ more, t.take onLink here (steps ++ more) = t.take onLink location more) ∨
      ∃ at' target rest, onLink at' target rest = .ok (.directory location es) ∧
        ∀ more, t.take onLink here (steps ++ more) = onLink at' target (rest ++ more) := by
  induction steps generalizing here with
  | nil =>
    rw [take] at h
    cases hes : t.entriesAt here with
    | none => simp [hes] at h
    | some es' =>
      rw [hes] at h
      cases h
      exact .inl fun more => rfl
  | cons step steps ih =>
    cases step with
    | here => exact ih h
    | slash => exact ih h
    | parent => exact ih h
    | name n =>
      rw [take] at h
      simp only [List.cons_append]
      split at h
      · contradiction
      · next m es' hfind =>
        simp only [take, hfind]
        exact ih h
      · split at h <;> cases h
      · next m target hfind =>
        simp only [take, hfind]
        exact .inr ⟨here, target, steps, h, fun more => rfl⟩

end Take

/-- Where steps lead to a directory, the directory stands there and holds what they find. -/
theorem entriesAt_of_follow {links : Nat} {here location : Location} {steps : List PathStep}
    {es : List Entry} (h : t.follow links here steps = .ok (.directory location es)) :
    t.entriesAt location = some es := by
  induction links generalizing here steps location es with
  | zero =>
    rw [follow] at h
    refine entriesAt_of_take ?_ h
    intro _ _ _ _ _ hlink
    contradiction
  | succ links ih =>
    rw [follow] at h
    refine entriesAt_of_take ?_ h
    intro _ target _ _ _ hlink
    exact ih hlink

/-- A path that leads to a directory leads to where the directory stands. -/
theorem entriesAt_of_resolve {p : Path} {location : Location} {es : List Entry}
    (h : t.resolve p = .ok (.directory location es)) : t.entriesAt location = some es := by
  rw [resolve] at h
  split at h
  · contradiction
  · exact entriesAt_of_follow h

/-- Steps that lead to a directory can be gone on from there, with the links that are left. -/
theorem follow_append {links : Nat} {here location : Location} {steps : List PathStep}
    {es : List Entry} (h : t.follow links here steps = .ok (.directory location es)) :
    ∃ left, ∀ more, t.follow links here (steps ++ more) = t.follow left location more := by
  induction links generalizing here steps with
  | zero =>
    rw [follow] at h
    rcases take_append h with hmore | ⟨_, _, _, hlink, -⟩
    · exact ⟨0, hmore⟩
    · contradiction
  | succ links ih =>
    rw [follow] at h
    rcases take_append h with hmore | ⟨at', target, rest, hlink, hmore⟩
    · exact ⟨links + 1, hmore⟩
    · obtain ⟨left, hleft⟩ := ih hlink
      refine ⟨left, fun more => ?_⟩
      rw [follow, hmore, ← List.append_assoc]
      exact hleft more

/-- A path that leads to a directory is gone on from there, with some number of links left. -/
theorem resolve_append {p : Path} {location : Location} {es : List Entry}
    (h : t.resolve p = .ok (.directory location es)) :
    ∃ left, ∀ more, t.resolve { p with steps := p.steps ++ more } = t.follow left location more := by
  rw [resolve] at h
  split at h
  · contradiction
  · next hp =>
    obtain ⟨left, hleft⟩ := follow_append h
    refine ⟨left, fun more => ?_⟩
    have hlonger : ¬ Path.isEmpty { p with steps := p.steps ++ more } = true := by
      intro hempty
      refine hp ?_
      simp only [Path.isEmpty, Bool.and_eq_true, List.isEmpty_iff, List.append_eq_nil_iff] at hempty ⊢
      exact ⟨hempty.1, hempty.2.1⟩
    rw [resolve, if_neg hlonger]
    exact hleft more

/-- A path follows links by taking steps in one way or another. -/
theorem exists_follow_eq_take (t : FileTree) (links : Nat) :
    ∃ onLink, ∀ here steps, t.follow links here steps = t.take onLink here steps := by
  cases links with
  | zero => exact ⟨_, fun here steps => by rw [follow]⟩
  | succ links => exact ⟨_, fun here steps => by rw [follow]⟩

/-- The path of what has a name in a directory is followed by one step from where the directory
stands. -/
theorem resolve_child {p : TreePath} {location : Location} {es : List Entry}
    (h : t.resolve p.toPath = .ok (.directory location es)) (n : FileName) :
    ∃ viaLink : Path → Except FileError Target, t.resolve (p.child n).toPath =
      match Entry.find? es n with
      | none => .error .notFound
      | some (.file _ content) => .ok (.file content)
      | some (.directory _ inner) => .ok (.directory (location ++ [n]) inner)
      | some (.link _ target) => viaLink target := by
  obtain ⟨left, hleft⟩ := resolve_append h
  have hes := entriesAt_of_resolve h
  obtain ⟨onLink, hfollow⟩ := t.exists_follow_eq_take left
  refine ⟨fun target => onLink location target [], ?_⟩
  rw [TreePath.toPath_child, hleft, hfollow, take, hes, Option.bind_some]
  cases hfind : Entry.find? es n with
  | none => rfl
  | some e =>
    cases e with
    | file m content => simp
    | link m target => rfl
    | directory m inner => simp [take, entriesAt_child hes hfind]

/-- In a directory a path goes on to the directory that has the next name. -/
theorem resolve_child_of_directory {p : TreePath} {location : Location} {es inner : List Entry}
    {n m : FileName} (h : t.resolve p.toPath = .ok (.directory location es))
    (hfind : Entry.find? es n = some (.directory m inner)) :
    t.resolve (p.child n).toPath = .ok (.directory (location ++ [n]) inner) := by
  obtain ⟨viaLink, hchild⟩ := resolve_child h n
  rw [hchild, hfind]

/-- From a directory a path goes on through directories below. -/
theorem resolve_below {p : TreePath} {location : Location} {es inner : List Entry}
    {names : List FileName} (h : t.resolve p.toPath = .ok (.directory location es))
    (hnames : entriesBelow es names = some inner) :
    t.resolve (TreePath.mk p.root (p.below ++ names)).toPath =
      .ok (.directory (location ++ names) inner) := by
  induction names generalizing p location es with
  | nil =>
    cases hnames
    rw [List.append_nil, List.append_nil]
    exact h
  | cons n names ih =>
    rw [entriesBelow] at hnames
    split at hnames
    · next m es' hfind =>
      have := ih (resolve_child_of_directory h hfind) hnames
      rw [List.append_assoc] at this
      simpa [TreePath.child] using this
    · contradiction

/-- In a directory a path goes on to the file that has the next name. -/
theorem resolve_child_of_file {p : TreePath} {location : Location} {es : List Entry}
    {n m : FileName} {content : ByteArray} (h : t.resolve p.toPath = .ok (.directory location es))
    (hfind : Entry.find? es n = some (.file m content)) :
    t.resolve (p.child n).toPath = .ok (.file content) := by
  obtain ⟨viaLink, hchild⟩ := resolve_child h n
  rw [hchild, hfind]

/-- A path that goes on from a directory has the name of something in it. -/
theorem exists_find?_of_resolve_child {p : TreePath} {location : Location} {es : List Entry}
    {n : FileName} {target : Target} (h : t.resolve p.toPath = .ok (.directory location es))
    (hchild : t.resolve (p.child n).toPath = .ok target) : ∃ e, Entry.find? es n = some e := by
  obtain ⟨viaLink, heq⟩ := resolve_child h n
  cases hfind : Entry.find? es n with
  | none =>
    rw [heq, hfind] at hchild
    contradiction
  | some e => exact ⟨e, rfl⟩

end FileTree

end BareCallGraph
