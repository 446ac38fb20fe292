import BareCallGraph.Proofs.TouchedPlaces

/-!
# Trees that lack something

A tree may lack files and links that another one has, and be the same otherwise (`FileTree.Lacks`). Then a
path that touches nothing that is lacking leads to the same in both trees, and one that touches something
that is lacking leads nowhere.

A link or a file can be taken out of a tree (`FileTree.without`), which leaves everything else where it
is.
-/

namespace BareCallGraph

namespace Entry

/-- What was removed is not found. -/
theorem find?_remove_self (n : FileName) (es : List Entry) : find? (remove n es) n = none := by
  simp [find?, remove]

/-- What has another name than what was removed is found as before. -/
theorem find?_remove_of_ne {m n : FileName} (h : m ≠ n) (es : List Entry) :
    find? (remove n es) m = find? es m := by
  rw [find?, remove, List.find?_filter, find?]
  congr 1
  funext e
  by_cases hm : e.name = m <;> simp_all

end Entry

namespace FileTree

variable {t t' : FileTree} {p q : Place} {ps : List Place} {here : Location} {steps : List PathStep}
  {links : Nat} {s : Stop}

/-- A tree is like another one but for files and links that it does not have. -/
structure Lacks (t : FileTree) (ps : List Place) (t' : FileTree) : Prop where
  /-- At some places, none of which is that of a directory, -/
  plain : ∀ p ∈ ps, t.standingAt p ≠ some .directory
  /-- nothing stands in the other tree. -/
  missing : ∀ p ∈ ps, t'.standingAt p = none
  /-- Everything else is where it was. -/
  elsewhere : ∀ q, q ∉ ps → t'.standingAt q = t.standingAt q
  /-- Relative paths start where they did. -/
  workingDirectory : t'.workingDirectory = t.workingDirectory

namespace Lacks

/-- There is no entry at a place that is lacking. -/
theorem entryAt?_eq_none (h : t.Lacks ps t') (hp : p ∈ ps) : t'.entryAt? p = none :=
  Option.map_eq_none_iff.1 (h.missing p hp)

/-- Where there is an entry in the smaller tree, nothing is lacking. -/
theorem not_mem (h : t.Lacks ps t') {e' : Entry} (he' : t'.entryAt? q = some e') : q ∉ ps := by
  intro hq
  rw [h.entryAt?_eq_none hq] at he'
  contradiction

/-- What is at another place is of the same kind in both trees. -/
theorem exists_entryAt? (h : t.Lacks ps t') (hq : q ∉ ps) {e : Entry} (he : t.entryAt? q = some e) :
    ∃ e', t'.entryAt? q = some e' ∧ e'.standing = e.standing := by
  have hsame := h.elsewhere q hq
  rw [standingAt_eq, standingAt_eq, he, Option.map_some] at hsame
  exact Option.map_eq_some_iff.1 hsame

/-- What is in the smaller tree is in the larger one. -/
theorem exists_of_entryAt? (h : t.Lacks ps t') {e' : Entry} (he' : t'.entryAt? q = some e') :
    ∃ e, t.entryAt? q = some e := by
  have hsame := h.elsewhere q (h.not_mem he')
  rw [standingAt_eq, standingAt_eq, he', Option.map_some, eq_comm] at hsame
  obtain ⟨e, he, -⟩ := Option.map_eq_some_iff.1 hsame
  exact ⟨e, he⟩

/-- The trees have the same directories, place by place. -/
theorem directory_iff (h : t.Lacks ps t') (q : Place) :
    t'.standingAt q = some .directory ↔ t.standingAt q = some .directory := by
  by_cases hq : q ∈ ps
  · simp [h.missing q hq, h.plain q hq]
  · rw [h.elsewhere q hq]

/-- The trees have the same directories. -/
theorem isSome_entriesAt (h : t.Lacks ps t') (here : Location) :
    (t'.entriesAt here).isSome = (t.entriesAt here).isSome := by
  rcases List.eq_nil_or_concat here with rfl | ⟨here, n, rfl⟩
  · rfl
  · rw [List.concat_eq_append, Bool.eq_iff_iff, isSome_entriesAt_append, isSome_entriesAt_append,
      h.directory_iff]

/-- Steps have the same first stop. -/
theorem firstStop? (h : t.Lacks ps t') (here : Location) (steps : List PathStep) :
    t'.firstStop? here steps = t.firstStop? here steps := by
  induction steps generalizing here with
  | nil => rfl
  | cons step steps ih =>
    cases step with
    | here => exact ih here
    | slash => exact ih here
    | parent => exact ih here.dropLast
    | name n =>
      by_cases hstanding : t.standingAt ⟨here, n⟩ = some .directory
      · rw [firstStop?_name_of_directory hstanding,
          firstStop?_name_of_directory ((h.directory_iff _).2 hstanding), ih]
      · rw [firstStop?_name hstanding, firstStop?_name (mt (h.directory_iff _).1 hstanding)]

/-- Steps without a stop lead to the same. -/
theorem take_of_no_stop (h : t.Lacks ps t') (hnone : t.firstStop? here steps = none)
    {onLink onLink' : Location → Path → List PathStep → Except FileError Target} :
    (t'.take onLink' here steps).map Target.destination =
      (t.take onLink here steps).map Target.destination := by
  induction steps generalizing here with
  | nil =>
    have hsome := h.isSome_entriesAt here
    rw [take, take]
    cases hes : t.entriesAt here with
    | none =>
      rw [hes, Option.isSome_none, Option.isSome_eq_false_iff, Option.isNone_iff_eq_none] at hsome
      rw [hsome]
    | some es =>
      rw [hes, Option.isSome_some] at hsome
      obtain ⟨es', hes'⟩ := Option.isSome_iff_exists.1 hsome
      rw [hes']
      rfl
  | cons step steps ih =>
    cases step with
    | here => exact ih hnone
    | slash => exact ih hnone
    | parent => exact ih hnone
    | name n =>
      by_cases hstanding : t.standingAt ⟨here, n⟩ = some .directory
      · rw [firstStop?_name_of_directory hstanding] at hnone
        rw [take_name_of_directory hstanding,
          take_name_of_directory ((h.directory_iff _).2 hstanding)]
        exact ih hnone
      · rw [firstStop?_name hstanding] at hnone
        contradiction

/-- The same links stand where nothing is lacking. -/
theorem linkAt?_eq (h : t.Lacks ps t') (hq : q ∉ ps) : t'.linkAt? q = t.linkAt? q := by
  rw [linkAt?, linkAt?, h.elsewhere q hq]

/-- Steps that end at a stop that is not lacking lead to the same. -/
theorem follow_of_end (h : t.Lacks ps t') (hstop : t.firstStop? here steps = some s)
    (hlink : t.linkAt? s.place = none) (hs : s.place ∉ ps) (links : Nat) :
    t'.follow links here steps = t.follow links here steps := by
  have hstop' := (h.firstStop? here steps).trans hstop
  have hsame := h.elsewhere s.place hs
  rcases cases_of_firstStop? hstop with ⟨content, hfile⟩ | ⟨target, htarget⟩ | hnothing
  · rw [follow_of_file hstop hfile, follow_of_file hstop' (hsame.trans hfile)]
  · rw [hlink] at htarget
    contradiction
  · rw [follow_of_nothing hstop hnothing, follow_of_nothing hstop' (hsame.trans hnothing)]

/-- Steps that touch nothing that is lacking lead to the same. -/
theorem follow_of_avoids (h : t.Lacks ps t') (hps : ∀ q ∈ t.touched links here steps, q ∉ ps) :
    (t'.follow links here steps).map Target.destination =
      (t.follow links here steps).map Target.destination := by
  induction links, here, steps using t.stop_induction with
  | noStop links here steps hstop =>
    obtain ⟨onLink, hfollow⟩ := t.exists_follow_eq_take links
    obtain ⟨onLink', hfollow'⟩ := t'.exists_follow_eq_take links
    rw [hfollow, hfollow']
    exact h.take_of_no_stop hstop
  | ends links here steps s hstop hlink =>
    rw [touched_of_end hstop hlink, List.forall_mem_singleton] at hps
    rw [h.follow_of_end hstop hlink hps]
  | tooMany here steps s target hstop hlink =>
    rw [touched_zero hstop, List.forall_mem_singleton] at hps
    rw [follow_zero hstop hlink, follow_zero ((h.firstStop? here steps).trans hstop)
      ((h.linkAt?_eq hps).trans hlink)]
  | link links here steps s target hstop hlink ih =>
    rw [touched_of_link hstop hlink, List.forall_mem_cons] at hps
    rw [follow_of_link hstop hlink, follow_of_link ((h.firstStop? here steps).trans hstop)
      ((h.linkAt?_eq hps.1).trans hlink)]
    exact ih hps.2

/-- Steps that touch something that is lacking lead nowhere. -/
theorem follow_of_touches (h : t.Lacks ps t') (hp : p ∈ ps) (hmem : p ∈ t.touched links here steps) :
    t'.follow links here steps = .error .notFound := by
  have hnothing {here : Location} {steps : List PathStep} {s : Stop}
      (hstop : t.firstStop? here steps = some s) (hs : s.place ∈ ps) (links : Nat) :
      t'.follow links here steps = .error .notFound :=
    follow_of_nothing ((h.firstStop? here steps).trans hstop) (h.missing _ hs) links
  induction links, here, steps using t.stop_induction with
  | noStop links here steps hstop => simp [touched_of_none hstop] at hmem
  | ends links here steps s hstop hlink =>
    rw [touched_of_end hstop hlink, List.mem_singleton] at hmem
    exact hnothing hstop (hmem ▸ hp) links
  | tooMany here steps s target hstop hlink =>
    rw [touched_zero hstop, List.mem_singleton] at hmem
    exact hnothing hstop (hmem ▸ hp) 0
  | link links here steps s target hstop hlink ih =>
    by_cases hs : s.place ∈ ps
    · exact hnothing hstop hs _
    · -- what is touched before is there in both trees
      have hne : p ≠ s.place := fun heq => hs (heq ▸ hp)
      rw [touched_of_link hstop hlink, List.mem_cons] at hmem
      rw [follow_of_link ((h.firstStop? here steps).trans hstop) ((h.linkAt?_eq hs).trans hlink)]
      exact ih (hmem.resolve_left hne)

/-- A path that touches nothing that is lacking leads to the same. -/
theorem leadsTo_of_avoids (h : t.Lacks ps t') {path : Path} (hpath : t.Avoids ps path) :
    t'.leadsTo path = t.leadsTo path := by
  rw [leadsTo, leadsTo, resolve, resolve, h.workingDirectory]
  split
  · rfl
  · exact h.follow_of_avoids hpath

/-- A path that touches something that is lacking leads nowhere. -/
theorem resolve_of_touches (h : t.Lacks ps t') {path : Path} (hpath : ¬ t.Avoids ps path) :
    t'.resolve path = .error .notFound := by
  obtain ⟨p, hmem, hp⟩ := not_avoids_iff.1 hpath
  rw [resolve, h.workingDirectory]
  split
  · rfl
  · exact h.follow_of_touches hp hmem

end Lacks

/-! ## Taking something out -/

/-- The tree without what stands at a place. -/
def without (t : FileTree) (p : Place) : FileTree := t.removeAt p.location p.name

/-- Taking out what is no directory leaves everything else where it is. -/
theorem lacks_without (h : t.standingAt p ≠ some .directory) : t.Lacks [p] (t.without p) where
  plain := by
    intro q hq
    rw [List.mem_singleton.1 hq]
    exact h
  missing := by
    intro q hq
    have hafter := entriesBelow_changeBelow (Entry.remove p.name) p.location t.entries
    rw [List.mem_singleton.1 hq, standingAt, standingBelow, without, removeAt, changeAt, hafter]
    cases entriesBelow t.entries p.location with
    | none => rfl
    | some es => simp [Entry.find?_remove_self]
  elsewhere := by
    intro q hq
    refine standingBelow_changeBelow (n := p.name) ?_ ?_ ?_ ?_
    · intro es m hm
      exact Entry.find?_remove_of_ne hm es
    · intro es k deeper
      simp [Entry.find?_remove_self]
    · intro inner hinner k deeper hfind
      rw [standingAt, standingBelow, hinner, Option.bind_some, hfind] at h
      exact h rfl
    · -- a place is its directory and its name
      intro hsame
      cases p
      cases q
      exact hq (List.mem_singleton.2 (by rw [Place.mk.injEq]; exact hsame))
  workingDirectory := rfl

end FileTree

end BareCallGraph
