import BareCallGraph.Proofs.LinkLimit
import BareCallGraph.Proofs.WrittenFiles

/-!
# The places that a path touches

Where a path leads depends on what stands at the places of the tree. It goes through directories until
it comes to a place where none stands: there it goes on if a link stands there, and ends otherwise. The
places that it comes to in this way are the ones that it touches (`FileTree.touched`): the links that it
meets, and perhaps a file or nothing at its end. A path that goes on from a directory touches further
places, with as many links as are left.

A path that touches a file leads to it, or it tries to go on behind the file and fails.
-/

namespace BareCallGraph

/-- The end of a path, without what a directory there holds. -/
inductive Destination where
  /-- A file and its bytes. -/
  | file (content : ByteArray)
  /-- A directory and where it stands. -/
  | directory (location : Location)

/-- The end of a path that leads to something. -/
def Target.destination : Target → Destination
  | file content => .file content
  | directory location _ => .directory location

/-- The path that a link stands for. -/
def Standing.target? : Standing → Option Path
  | link target => some target
  | _ => none

namespace FileTree

/-- A place that steps come to, and the steps behind it. -/
structure Stop where
  /-- The place. -/
  place : Place
  /-- The steps behind it. -/
  rest : List PathStep

/-- The first place that steps from a directory come to and where no directory stands. -/
def firstStop? (t : FileTree) (here : Location) : List PathStep → Option Stop
  | [] => none
  | .here :: steps | .slash :: steps => t.firstStop? here steps
  | .parent :: steps => t.firstStop? here.dropLast steps
  | .name n :: steps =>
    match t.standingAt ⟨here, n⟩ with
    | some .directory => t.firstStop? (here ++ [n]) steps
    | _ => some ⟨⟨here, n⟩, steps⟩

/-- The path that a link at a place stands for. -/
def linkAt? (t : FileTree) (p : Place) : Option Path := (t.standingAt p).bind Standing.target?

/-- The places without a directory that steps from a directory come to, if up to `links` links are
followed. The link that would be one too many is the last one. -/
def touched (t : FileTree) (links : Nat) (here : Location) (steps : List PathStep) : List Place :=
  match links with
  | 0 => (t.firstStop? here steps).toList.map (·.place)
  | links + 1 =>
    (t.firstStop? here steps).elim [] fun s =>
      s.place :: (t.linkAt? s.place).elim [] fun target =>
        t.touched links (startOf target s.place.location) (target.steps ++ s.rest)

/-- The places that a path touches. -/
def touchedBy (t : FileTree) (p : Path) : List Place :=
  t.touched linkLimit (startOf p t.workingDirectory) p.steps

/-- A path touches none of the given places. -/
def Avoids (t : FileTree) (ps : List Place) (p : Path) : Prop := ∀ q ∈ t.touchedBy p, q ∉ ps

instance (t : FileTree) (ps : List Place) (p : Path) : Decidable (t.Avoids ps p) :=
  inferInstanceAs (Decidable (∀ q ∈ t.touchedBy p, q ∉ ps))

/-- The end of a path. -/
def leadsTo (t : FileTree) (p : Path) : Except FileError Destination :=
  (t.resolve p).map Target.destination

/-- The entry at a place. -/
def entryAt? (t : FileTree) (p : Place) : Option Entry :=
  (t.entriesAt p.location).bind (Entry.find? · p.name)

variable {t t' : FileTree} {p q : Place} {ps : List Place} {here location : Location} {n : FileName}
  {es : List Entry} {steps more : List PathStep} {links : Nat} {s : Stop} {target : Path}
  {content : ByteArray}

/-- A path that does not avoid places touches one of them. -/
theorem not_avoids_iff {path : Path} : ¬ t.Avoids ps path ↔ ∃ q ∈ t.touchedBy path, q ∈ ps := by
  simp [Avoids]

/-! ## Entries and what stands there -/

/-- What stands at a place is the kind of the entry there. -/
theorem standingAt_eq (t : FileTree) (p : Place) :
    t.standingAt p = (t.entryAt? p).map Entry.standing := rfl

/-- The entry at a place has the name of the place. -/
theorem name_of_entryAt? {e : Entry} (h : t.entryAt? p = some e) : e.name = p.name := by
  obtain ⟨es, -, hfind⟩ := Option.bind_eq_some_iff.1 h
  exact (Entry.name_of_find? hfind).2

/-- What a directory holds is at the place of its name. -/
theorem entryAt?_of_mem (hes : t.entriesAt location = some es) {e : Entry} (he : e ∈ es) :
    t.entryAt? ⟨location, e.name⟩ = some e := by
  rw [entryAt?, hes, Option.bind_some]
  exact Entry.find?_name (distinct_at hes) he

/-- What a directory at a place holds is in the directory at its location. -/
theorem entriesAt_of_directory {m : FileName} {inner : List Entry}
    (h : t.entryAt? ⟨here, n⟩ = some (.directory m inner)) :
    t.entriesAt (here ++ [n]) = some inner := by
  obtain ⟨es, hes, hfind⟩ := Option.bind_eq_some_iff.1 h
  exact entriesAt_child hes hfind

/-- The top is a directory, and every other directory stands at a place. -/
theorem isSome_entriesAt_append :
    (t.entriesAt (here ++ [n])).isSome = true ↔ t.standingAt ⟨here, n⟩ = some .directory := by
  constructor
  · intro h
    obtain ⟨inner, hinner⟩ := Option.isSome_iff_exists.1 h
    rw [entriesAt, entriesBelow_append, Option.bind_eq_some_iff] at hinner
    obtain ⟨es, hes, hinner⟩ := hinner
    rw [entriesBelow] at hinner
    split at hinner
    · next m deeper hfind =>
      rw [standingAt_eq, entryAt?, entriesAt, hes, Option.bind_some, hfind]
      rfl
    · contradiction
  · intro h
    rw [standingAt_eq, Option.map_eq_some_iff] at h
    obtain ⟨e, he, hstanding⟩ := h
    cases e with
    | file m content => cases hstanding
    | link m target => cases hstanding
    | directory m inner => rw [entriesAt_of_directory he, Option.isSome_some]

/-- A link stands at a place if there is a path that it stands for. -/
theorem linkAt?_eq_some_iff : t.linkAt? p = some target ↔ t.standingAt p = some (.link target) := by
  rw [linkAt?, Option.bind_eq_some_iff]
  constructor
  · rintro ⟨standing, hstanding, htarget⟩
    cases standing <;> cases htarget
    exact hstanding
  · intro h
    exact ⟨_, h, rfl⟩

/-! ## Steps up to the first stop -/

section Take

variable {onLink : Location → Path → List PathStep → Except FileError Target}

/-- A name that nothing has leads nowhere. -/
theorem take_name_of_none (h : t.standingAt ⟨here, n⟩ = none) :
    t.take onLink here (.name n :: steps) = .error .notFound := by
  rw [standingAt_eq, Option.map_eq_none_iff, entryAt?] at h
  rw [take, h]

/-- The name of a directory leads into it. -/
theorem take_name_of_directory (h : t.standingAt ⟨here, n⟩ = some .directory) :
    t.take onLink here (.name n :: steps) = t.take onLink (here ++ [n]) steps := by
  rw [standingAt_eq, Option.map_eq_some_iff, entryAt?] at h
  obtain ⟨e, he, hstanding⟩ := h
  cases e <;> cases hstanding
  rw [take, he]

/-- The name of a file leads to it, and no step leads on from there. -/
theorem take_name_of_file (h : t.standingAt ⟨here, n⟩ = some (.file content)) :
    t.take onLink here (.name n :: steps) =
      if steps.isEmpty then .ok (.file content) else .error .notDirectory := by
  rw [standingAt_eq, Option.map_eq_some_iff, entryAt?] at h
  obtain ⟨e, he, hstanding⟩ := h
  cases e <;> cases hstanding
  rw [take, he]

/-- The name of a link leads where links lead. -/
theorem take_name_of_link (h : t.standingAt ⟨here, n⟩ = some (.link target)) :
    t.take onLink here (.name n :: steps) = onLink here target steps := by
  rw [standingAt_eq, Option.map_eq_some_iff, entryAt?] at h
  obtain ⟨e, he, hstanding⟩ := h
  cases e <;> cases hstanding
  rw [take, he]

/-- The first stop of a name is its place, unless a directory stands there. -/
theorem firstStop?_name (h : t.standingAt ⟨here, n⟩ ≠ some .directory) (steps : List PathStep) :
    t.firstStop? here (.name n :: steps) = some ⟨⟨here, n⟩, steps⟩ := by
  rw [firstStop?]
  split
  · next hdirectory => exact absurd hdirectory h
  · rfl

/-- Behind a directory the first stop is that of the later steps. -/
theorem firstStop?_name_of_directory (h : t.standingAt ⟨here, n⟩ = some .directory)
    (steps : List PathStep) :
    t.firstStop? here (.name n :: steps) = t.firstStop? (here ++ [n]) steps := by
  rw [firstStop?, h]

/-- No directory stands at a stop. -/
theorem standingAt_of_firstStop? (h : t.firstStop? here steps = some s) :
    t.standingAt s.place ≠ some .directory := by
  induction steps generalizing here with
  | nil => contradiction
  | cons step steps ih =>
    cases step with
    | here => exact ih h
    | slash => exact ih h
    | parent => exact ih h
    | name n =>
      by_cases hstanding : t.standingAt ⟨here, n⟩ = some .directory
      · rw [firstStop?_name_of_directory hstanding] at h
        exact ih h
      · rw [firstStop?_name hstanding] at h
        cases h
        exact hstanding

/-- Steps go on at a stop with its name. -/
theorem take_of_firstStop? (h : t.firstStop? here steps = some s) :
    t.take onLink here steps = t.take onLink s.place.location (.name s.place.name :: s.rest) := by
  induction steps generalizing here with
  | nil => contradiction
  | cons step steps ih =>
    cases step with
    | here => exact ih h
    | slash => exact ih h
    | parent => exact ih h
    | name n =>
      by_cases hstanding : t.standingAt ⟨here, n⟩ = some .directory
      · rw [firstStop?_name_of_directory hstanding] at h
        rw [take_name_of_directory hstanding]
        exact ih h
      · rw [firstStop?_name hstanding] at h
        cases h
        rfl

/-- Further steps stand behind those that were left. -/
theorem firstStop?_append (h : t.firstStop? here steps = some s) (more : List PathStep) :
    t.firstStop? here (steps ++ more) = some { s with rest := s.rest ++ more } := by
  induction steps generalizing here with
  | nil => contradiction
  | cons step steps ih =>
    cases step with
    | here => exact ih h
    | slash => exact ih h
    | parent => exact ih h
    | name n =>
      by_cases hstanding : t.standingAt ⟨here, n⟩ = some .directory
      · rw [firstStop?_name_of_directory hstanding] at h
        rw [List.cons_append, firstStop?_name_of_directory hstanding]
        exact ih h
      · rw [firstStop?_name hstanding] at h
        rw [List.cons_append, firstStop?_name hstanding]
        cases h
        rfl

/-- Steps without a stop that lead to a directory are gone on from there. -/
theorem append_of_no_stop (hnone : t.firstStop? here steps = none)
    (h : t.take onLink here steps = .ok (.directory location es)) (more : List PathStep) :
    t.firstStop? here (steps ++ more) = t.firstStop? location more ∧
      t.take onLink here (steps ++ more) = t.take onLink location more := by
  induction steps generalizing here with
  | nil =>
    rw [take] at h
    split at h
    · cases h
      exact ⟨rfl, rfl⟩
    · contradiction
  | cons step steps ih =>
    cases step with
    | here => exact ih hnone h
    | slash => exact ih hnone h
    | parent => exact ih hnone h
    | name n =>
      by_cases hstanding : t.standingAt ⟨here, n⟩ = some .directory
      · rw [firstStop?_name_of_directory hstanding] at hnone
        rw [take_name_of_directory hstanding] at h
        rw [List.cons_append, firstStop?_name_of_directory hstanding, take_name_of_directory hstanding]
        exact ih hnone h
      · rw [firstStop?_name hstanding] at hnone
        contradiction

end Take

/-! ## Following through stops -/

/-- Steps without a stop touch nothing. -/
theorem touched_of_none (h : t.firstStop? here steps = none) : t.touched links here steps = [] := by
  cases links <;> rw [touched, h] <;> rfl

/-- The first stop is touched first. -/
theorem touched_eq_cons (h : t.firstStop? here steps = some s) (links : Nat) :
    ∃ later, t.touched links here steps = s.place :: later := by
  cases links <;> rw [touched, h] <;> exact ⟨_, rfl⟩

/-- A stop without a link is touched and nothing else. -/
theorem touched_of_end (h : t.firstStop? here steps = some s) (hlink : t.linkAt? s.place = none) :
    t.touched links here steps = [s.place] := by
  cases links with
  | zero =>
    rw [touched, h]
    rfl
  | succ links =>
    rw [touched, h, Option.elim_some, hlink]
    rfl

/-- The link that would be one too many is touched and nothing behind it. -/
theorem touched_zero (h : t.firstStop? here steps = some s) : t.touched 0 here steps = [s.place] := by
  rw [touched, h]
  rfl

/-- Behind a link, what its steps touch is touched. -/
theorem touched_of_link (h : t.firstStop? here steps = some s)
    (hlink : t.linkAt? s.place = some target) :
    t.touched (links + 1) here steps =
      s.place :: t.touched links (startOf target s.place.location) (target.steps ++ s.rest) := by
  rw [touched, h, Option.elim_some, hlink, Option.elim_some]

/-- A link that would be one too many is not followed. -/
theorem follow_zero (h : t.firstStop? here steps = some s) (hlink : t.linkAt? s.place = some target) :
    t.follow 0 here steps = .error .tooManyLinks := by
  rw [follow, take_of_firstStop? h, take_name_of_link (linkAt?_eq_some_iff.1 hlink)]

/-- Steps go on from a link with those of the link. -/
theorem follow_of_link (h : t.firstStop? here steps = some s)
    (hlink : t.linkAt? s.place = some target) :
    t.follow (links + 1) here steps =
      t.follow links (startOf target s.place.location) (target.steps ++ s.rest) := by
  rw [follow, take_of_firstStop? h, take_name_of_link (linkAt?_eq_some_iff.1 hlink)]

/-- Steps end at a file, and lead to it if there are none behind it. -/
theorem follow_of_file (h : t.firstStop? here steps = some s)
    (hfile : t.standingAt s.place = some (.file content)) (links : Nat) :
    t.follow links here steps =
      if s.rest.isEmpty then .ok (.file content) else .error .notDirectory := by
  obtain ⟨onLink, hfollow⟩ := t.exists_follow_eq_take links
  rw [hfollow, take_of_firstStop? h, take_name_of_file hfile]

/-- Steps lead nowhere if nothing stands at their first stop. -/
theorem follow_of_nothing (h : t.firstStop? here steps = some s)
    (hnothing : t.standingAt s.place = none) (links : Nat) :
    t.follow links here steps = .error .notFound := by
  obtain ⟨onLink, hfollow⟩ := t.exists_follow_eq_take links
  rw [hfollow, take_of_firstStop? h, take_name_of_none hnothing]

/-- At a stop there is a file, a link or nothing. -/
theorem cases_of_firstStop? (h : t.firstStop? here steps = some s) :
    (∃ content, t.standingAt s.place = some (.file content)) ∨
      (∃ target, t.linkAt? s.place = some target) ∨ t.standingAt s.place = none := by
  have hplain := standingAt_of_firstStop? h
  cases hstanding : t.standingAt s.place with
  | none => exact .inr (.inr rfl)
  | some standing =>
    cases standing with
    | file content => exact .inl ⟨content, rfl⟩
    | link target => exact .inr (.inl ⟨target, linkAt?_eq_some_iff.2 hstanding⟩)
    | directory => exact absurd hstanding hplain

/-- Steps that lead to a directory stop at links only. -/
theorem exists_linkAt?_of_follow (hstop : t.firstStop? here steps = some s)
    (h : t.follow links here steps = .ok (.directory location es)) :
    ∃ target, t.linkAt? s.place = some target := by
  rcases cases_of_firstStop? hstop with ⟨content, hfile⟩ | hlink | hnothing
  · rw [follow_of_file hstop hfile] at h
    split at h <;> cases h
  · exact hlink
  · rw [follow_of_nothing hstop hnothing] at h
    contradiction

/-- Steps have no stop or end at their first one, unless a link stands there. Then it is one too many, or
the steps go on behind it with one link less. -/
theorem stop_induction (t : FileTree) {motive : Nat → Location → List PathStep → Prop}
    (noStop : ∀ links here steps, t.firstStop? here steps = none → motive links here steps)
    (ends : ∀ links here steps s, t.firstStop? here steps = some s → t.linkAt? s.place = none →
      motive links here steps)
    (tooMany : ∀ here steps s target, t.firstStop? here steps = some s →
      t.linkAt? s.place = some target → motive 0 here steps)
    (link : ∀ links here steps s target, t.firstStop? here steps = some s →
      t.linkAt? s.place = some target →
      motive links (startOf target s.place.location) (target.steps ++ s.rest) →
      motive (links + 1) here steps)
    (links : Nat) (here : Location) (steps : List PathStep) : motive links here steps := by
  induction links generalizing here steps with
  | zero =>
    cases hstop : t.firstStop? here steps with
    | none => exact noStop 0 here steps hstop
    | some s =>
      cases hlink : t.linkAt? s.place with
      | none => exact ends 0 here steps s hstop hlink
      | some target => exact tooMany here steps s target hstop hlink
  | succ links ih =>
    cases hstop : t.firstStop? here steps with
    | none => exact noStop _ here steps hstop
    | some s =>
      cases hlink : t.linkAt? s.place with
      | none => exact ends _ here steps s hstop hlink
      | some target => exact link links here steps s target hstop hlink (ih _ _)

/-- With more links allowed, steps touch what they touched before. -/
theorem touched_subset {fewer : Nat} (h : fewer ≤ links) (here : Location) (steps : List PathStep) :
    t.touched fewer here steps ⊆ t.touched links here steps := by
  induction fewer, here, steps using t.stop_induction generalizing links with
  | noStop fewer here steps hstop => simp [touched_of_none hstop]
  | ends fewer here steps s hstop hlink =>
    rw [touched_of_end hstop hlink, touched_of_end hstop hlink]
    exact List.Subset.refl _
  | tooMany here steps s target hstop hlink =>
    obtain ⟨later, hlater⟩ := touched_eq_cons hstop links
    rw [touched_zero hstop, hlater]
    simp
  | link fewer here steps s target hstop hlink ih =>
    obtain ⟨links, rfl⟩ : ∃ k, links = k + 1 := Nat.exists_eq_add_one_of_ne_zero (by omega)
    rw [touched_of_link hstop hlink, touched_of_link hstop hlink]
    exact List.cons_subset_cons _ (ih (Nat.le_of_succ_le_succ h))

/-- Steps without a stop that lead to a directory are followed from there. -/
theorem follow_append_of_no_stop (hnone : t.firstStop? here steps = none)
    (h : t.follow links here steps = .ok (.directory location es)) (more : List PathStep) :
    t.follow links here (steps ++ more) = t.follow links location more ∧
      t.touched links here (steps ++ more) = t.touched links location more := by
  obtain ⟨onLink, hfollow⟩ := t.exists_follow_eq_take links
  rw [hfollow] at h
  obtain ⟨hstop, htake⟩ := append_of_no_stop hnone h more
  refine ⟨by rw [hfollow, hfollow, htake], ?_⟩
  cases links <;> rw [touched, touched, hstop]

/-- Steps that lead to a directory are gone on from there, with the links that they have not met. -/
theorem touched_append (h : t.follow links here steps = .ok (.directory location es)) :
    ∃ left ≤ links, ∀ more,
      t.follow links here (steps ++ more) = t.follow left location more ∧
      t.touched links here (steps ++ more) =
        t.touched links here steps ++ t.touched left location more := by
  induction links, here, steps using t.stop_induction with
  | noStop links here steps hstop =>
    rw [touched_of_none hstop]
    exact ⟨links, Nat.le_refl _, follow_append_of_no_stop hstop h⟩
  | ends links here steps s hstop hlink =>
    obtain ⟨target, htarget⟩ := exists_linkAt?_of_follow hstop h
    rw [hlink] at htarget
    contradiction
  | tooMany here steps s target hstop hlink =>
    rw [follow_zero hstop hlink] at h
    contradiction
  | link links here steps s target hstop hlink ih =>
    -- the further steps stand behind those of the link and go on from where they lead
    rw [follow_of_link hstop hlink] at h
    obtain ⟨left, hleft, hmore⟩ := ih h
    refine ⟨left, Nat.le_succ_of_le hleft, fun more => ?_⟩
    obtain ⟨hfollow, htouched⟩ := hmore more
    have hlonger := firstStop?_append hstop more
    rw [follow_of_link hlonger hlink, touched_of_link hlonger hlink, touched_of_link hstop hlink,
      ← List.append_assoc, hfollow, htouched]
    exact ⟨rfl, rfl⟩

/-- The path of what has a name in a directory is followed by one step from where the directory stands,
and touches what that step touches besides. -/
theorem touchedBy_child {path : TreePath}
    (h : t.resolve path.toPath = .ok (.directory location es)) :
    ∃ left ≤ linkLimit, ∀ n,
      t.resolve (path.child n).toPath = t.follow left location [.name n] ∧
      t.touchedBy (path.child n).toPath =
        t.touchedBy path.toPath ++ t.touched left location [.name n] := by
  rw [resolve] at h
  split at h
  · contradiction
  obtain ⟨left, hleft, hmore⟩ := touched_append h
  refine ⟨left, hleft, fun n => ?_⟩
  obtain ⟨hfollow, htouched⟩ := hmore [.name n]
  have hlonger : ¬ Path.isEmpty (path.child n).toPath = true := by
    simp [Path.isEmpty, TreePath.toPath_child]
  rw [resolve, if_neg hlonger, TreePath.toPath_child]
  exact ⟨hfollow, htouched⟩

/-- A path that goes on to a name touches what it touched before, or what the name touches from the
directory on. -/
theorem mem_touchedBy_child {path : TreePath}
    (h : t.resolve path.toPath = .ok (.directory location es))
    (hq : q ∈ t.touchedBy (path.child n).toPath) :
    q ∈ t.touchedBy path.toPath ∨ q ∈ t.touched linkLimit location [.name n] := by
  obtain ⟨left, hleft, hchild⟩ := touchedBy_child h
  rw [(hchild n).2, List.mem_append] at hq
  rcases hq with hbefore | hbehind
  · exact .inl hbefore
  · exact .inr (touched_subset hleft _ _ hbehind)

/-- Steps that touch a file end there. -/
theorem follow_of_touched_file (hfile : t.standingAt p = some (.file content))
    (h : p ∈ t.touched links here steps) :
    t.follow links here steps = .ok (.file content) ∨
      t.follow links here steps = .error .notDirectory := by
  have hne {s : Stop} {target : Path} (hlink : t.linkAt? s.place = some target) : p ≠ s.place := by
    rintro rfl
    rw [linkAt?_eq_some_iff, hfile] at hlink
    cases hlink
  induction links, here, steps using t.stop_induction with
  | noStop links here steps hstop => simp [touched_of_none hstop] at h
  | ends links here steps s hstop hlink =>
    rw [touched_of_end hstop hlink, List.mem_singleton] at h
    subst h
    rw [follow_of_file hstop hfile]
    split
    · exact .inl rfl
    · exact .inr rfl
  | tooMany here steps s target hstop hlink =>
    rw [touched_zero hstop, List.mem_singleton] at h
    exact absurd h (hne hlink)
  | link links here steps s target hstop hlink ih =>
    rw [touched_of_link hstop hlink, List.mem_cons] at h
    rw [follow_of_link hstop hlink]
    exact ih (h.resolve_left (hne hlink))

/-- A path that touches a file leads to it or goes on behind it, which it cannot. -/
theorem resolve_of_touched_file {path : Path} (hfile : t.standingAt p = some (.file content))
    (h : p ∈ t.touchedBy path) :
    t.resolve path = .ok (.file content) ∨ t.resolve path = .error .notDirectory := by
  rw [resolve]
  split
  · next hempty =>
    have hsteps : path.absolute = false ∧ path.steps = [] := by simpa [Path.isEmpty] using hempty
    rw [touchedBy, hsteps.2, touched_of_none rfl] at h
    contradiction
  · exact follow_of_touched_file hfile h

/-- A name touches its place, unless a directory stands there. -/
theorem mem_touched_name (h : t.standingAt p ≠ some .directory) :
    p ∈ t.touched links p.location [.name p.name] := by
  obtain ⟨later, hlater⟩ := touched_eq_cons (firstStop?_name h []) links
  rw [hlater]
  exact .head _

/-- A name that touches another place than its own is that of a link. -/
theorem exists_linkAt?_of_touched (h : q ∈ t.touched links p.location [.name p.name]) (hq : q ≠ p) :
    ∃ target, t.linkAt? p = some target := by
  rw [← Option.ne_none_iff_exists']
  intro hlink
  by_cases hstanding : t.standingAt p = some .directory
  · have hnone : t.firstStop? p.location [.name p.name] = none :=
      firstStop?_name_of_directory hstanding []
    simp [touched_of_none hnone] at h
  · rw [touched_of_end (firstStop?_name hstanding []) hlink, List.mem_singleton] at h
    exact hq h

/-! ## Ends of paths -/

/-- The end of a path is a file where the path leads to one. -/
theorem leadsTo_eq_file_iff {path : Path} :
    t.leadsTo path = .ok (.file content) ↔ t.resolve path = .ok (.file content) := by
  rw [leadsTo]
  rcases t.resolve path with _ | _ | _ <;> simp [Except.map, Target.destination]

/-- The end of a path is a directory where the path leads to one that stands there. -/
theorem leadsTo_eq_directory_iff {path : Path} :
    t.leadsTo path = .ok (.directory location) ↔
      ∃ es, t.resolve path = .ok (.directory location es) := by
  rw [leadsTo]
  rcases t.resolve path with _ | _ | _ <;> simp [Except.map, Target.destination]

/-- A path without an end leads nowhere for the same reason. -/
theorem leadsTo_eq_error_iff {path : Path} {cause : FileError} :
    t.leadsTo path = .error cause ↔ t.resolve path = .error cause := by
  rw [leadsTo]
  rcases t.resolve path with _ | _ | _ <;> simp [Except.map]

end FileTree

end BareCallGraph
