import BareCallGraph.Proofs.TouchedPlaces

/-!
# The links that a path meets

Of the places that a path touches, those of links are its trail (`FileTree.trail`). Whether a path meets
a link is whether it touches the place of the link.
-/

namespace BareCallGraph

mutual
/-- Where the links at and below an entry stand. -/
def Entry.linkPlaces (above : Location) : Entry → List FileTree.Place
  | .file _ _ => []
  | .link n _ => [⟨above, n⟩]
  | .directory n es => Entry.linkPlacesOf (above ++ [n]) es

/-- Where the links at and below the entries of a list stand. -/
def Entry.linkPlacesOf (above : Location) : List Entry → List FileTree.Place
  | [] => []
  | e :: es => Entry.linkPlaces above e ++ Entry.linkPlacesOf above es
end

namespace FileTree

/-- Where the links of a tree stand. -/
def linkPlaces (t : FileTree) : List Place := Entry.linkPlacesOf [] t.entries

/-- A link that steps meet on their way. -/
structure MetLink where
  /-- Where the link stands. -/
  place : Place
  /-- The path that it stands for. -/
  target : Path
  /-- The steps behind it. -/
  rest : List PathStep

/-- The first link that steps from a directory meet. -/
def firstLink? (t : FileTree) (here : Location) : List PathStep → Option MetLink
  | [] => none
  | .here :: steps | .slash :: steps => t.firstLink? here steps
  | .parent :: steps => t.firstLink? here.dropLast steps
  | .name n :: steps =>
    match t.standingAt ⟨here, n⟩ with
    | some .directory => t.firstLink? (here ++ [n]) steps
    | some (.link target) => some ⟨⟨here, n⟩, target, steps⟩
    | _ => none

/-- The places of the links that steps from a directory meet, if up to `links` links are followed. The
link that would be one too many is the last one met. -/
def trail (t : FileTree) (links : Nat) (here : Location) (steps : List PathStep) : List Place :=
  match links with
  | 0 => (t.firstLink? here steps).toList.map (·.place)
  | links + 1 =>
    (t.firstLink? here steps).elim [] fun l =>
      l.place :: t.trail links (startOf l.target l.place.location) (l.target.steps ++ l.rest)

/-- The places of the links that a path meets. -/
def trailOf (t : FileTree) (p : Path) : List Place :=
  t.trail linkLimit (startOf p t.workingDirectory) p.steps

variable {t : FileTree} {p : Place} {here : Location} {n : FileName} {es : List Entry}
  {steps : List PathStep} {links : Nat} {s : Stop} {target : Path}

/-! ## The links of a tree -/

/-- The places of the links in an entry are among those of all entries. -/
theorem linkPlaces_subset {e : Entry} (h : e ∈ es) (above : Location) :
    Entry.linkPlaces above e ⊆ Entry.linkPlacesOf above es := by
  induction es with
  | nil => contradiction
  | cons f es ih =>
    rw [Entry.linkPlacesOf]
    rcases List.mem_cons.1 h with rfl | h
    · exact List.subset_append_left _ _
    · exact List.subset_append_of_subset_right _ (ih h)

/-- A link among the entries of some directory has its place among those of the links. By induction on
the way to the directory. -/
theorem mem_linkPlacesOf {inner : List Entry} (above : Location)
    (hinner : entriesBelow es here = some inner) (hmem : .link n target ∈ inner) :
    ⟨above ++ here, n⟩ ∈ Entry.linkPlacesOf above es := by
  induction here generalizing es above with
  | nil =>
    cases hinner
    refine linkPlaces_subset hmem above ?_
    simp [Entry.linkPlaces]
  | cons m here ih =>
    rw [entriesBelow] at hinner
    split at hinner
    · next k deeper hfind =>
      obtain ⟨hdirectory, rfl⟩ := Entry.name_of_find? hfind
      refine linkPlaces_subset hdirectory above ?_
      have hbelow := ih (above ++ [k]) hinner
      rw [List.append_assoc, List.singleton_append] at hbelow
      exact hbelow
    · contradiction

/-- A link stands at one of the places of links. -/
theorem mem_linkPlaces (h : t.standingAt p = some (.link target)) : p ∈ t.linkPlaces := by
  rw [standingAt_eq, Option.map_eq_some_iff] at h
  obtain ⟨e, he, hstanding⟩ := h
  obtain ⟨inner, hinner, hfind⟩ := Option.bind_eq_some_iff.1 he
  obtain ⟨hmem, hname⟩ := Entry.name_of_find? hfind
  cases e <;> cases hstanding
  have hplace := mem_linkPlacesOf [] hinner hmem
  rw [List.nil_append] at hplace
  rw [Entry.name] at hname
  rw [hname] at hplace
  exact hplace

/-! ## Trails and touched places -/

/-- The first link that steps meet is the one at their first stop, if one stands there. -/
theorem firstLink?_eq (t : FileTree) (here : Location) (steps : List PathStep) :
    t.firstLink? here steps = (t.firstStop? here steps).bind fun s =>
      (t.linkAt? s.place).map fun target => ⟨s.place, target, s.rest⟩ := by
  induction steps generalizing here with
  | nil => rfl
  | cons step steps ih =>
    cases step with
    | here => exact ih here
    | slash => exact ih here
    | parent => exact ih here.dropLast
    | name n =>
      rw [firstLink?]
      cases hstanding : t.standingAt ⟨here, n⟩ with
      | none => simp [firstStop?_name, hstanding, linkAt?]
      | some standing =>
        cases standing with
        | file content => simp [firstStop?_name, hstanding, linkAt?, Standing.target?]
        | link target => simp [firstStop?_name, hstanding, linkAt?, Standing.target?]
        | directory =>
          rw [firstStop?_name_of_directory hstanding]
          exact ih (here ++ [n])

/-- Steps without a stop meet no link. -/
theorem trail_of_none (h : t.firstStop? here steps = none) : t.trail links here steps = [] := by
  cases links <;> rw [trail, firstLink?_eq, h] <;> rfl

/-- Steps that end at a stop without a link meet none. -/
theorem trail_of_end (h : t.firstStop? here steps = some s) (hlink : t.linkAt? s.place = none) :
    t.trail links here steps = [] := by
  cases links <;> rw [trail, firstLink?_eq, h, Option.bind_some, hlink] <;> rfl

/-- A link that would be one too many is met and none behind it. -/
theorem trail_zero (h : t.firstStop? here steps = some s) (hlink : t.linkAt? s.place = some target) :
    t.trail 0 here steps = [s.place] := by
  rw [trail, firstLink?_eq, h, Option.bind_some, hlink]
  rfl

/-- Behind a link, the links that its steps meet are met. -/
theorem trail_of_link (h : t.firstStop? here steps = some s)
    (hlink : t.linkAt? s.place = some target) :
    t.trail (links + 1) here steps =
      s.place :: t.trail links (startOf target s.place.location) (target.steps ++ s.rest) := by
  rw [trail, firstLink?_eq, h, Option.bind_some, hlink]
  rfl

/-- Steps meet a link if they touch its place. -/
theorem mem_trail_iff (hp : t.linkAt? p = some target) :
    p ∈ t.trail links here steps ↔ p ∈ t.touched links here steps := by
  have hne (s : Stop) (hlink : t.linkAt? s.place = none) : p ≠ s.place := by
    rintro rfl
    rw [hlink] at hp
    contradiction
  induction links, here, steps using t.stop_induction with
  | noStop links here steps hstop => rw [trail_of_none hstop, touched_of_none hstop]
  | ends links here steps s hstop hlink =>
    simp [trail_of_end hstop hlink, touched_of_end hstop hlink, hne s hlink]
  | tooMany here steps s target' hstop hlink => rw [trail_zero hstop hlink, touched_zero hstop]
  | link links here steps s target' hstop hlink ih =>
    rw [trail_of_link hstop hlink, touched_of_link hstop hlink, List.mem_cons, List.mem_cons]
    exact or_congr_right ih

/-- A path meets a link if it touches its place. -/
theorem mem_trailOf_iff (hp : t.linkAt? p = some target) {path : Path} :
    p ∈ t.trailOf path ↔ p ∈ t.touchedBy path :=
  mem_trail_iff hp

end FileTree

end BareCallGraph
