import BareCallGraph.Proofs.FollowedLinks
import BareCallGraph.Proofs.LackingWalks

/-!
# Files that are not discovered

Discovery may pass over files: they have another extension, or they lie in a directory that is left out.
A tree that lacks such files (`FileTree.LacksFiles`) has the same source files, unless a walk is cut off
(`CutOff`): the path of the root, or of a link that is to be followed, leads to one of the files or tries
to go through it. Such a path leads nowhere where the files are lacking.

No walk is cut off if links are not followed, or if no link of the tree leads to or through the files,
and the root does not either (`FileTree.LacksFiles.not_cutOff`).
-/

namespace BareCallGraph

open FileTree (Place)

/-- A tree is like another one but for files that it does not have. -/
structure FileTree.LacksFiles (t : FileTree) (ps : List Place) (t' : FileTree) : Prop
    extends t.Lacks ps t' where
  /-- A file of the larger tree stands at each of the places. -/
  files : ∀ p ∈ ps, ∃ content, t.standingAt p = some (.file content)

/-- The path of no discovered file leads to one of the given places or through it. -/
def Undiscovered (c : Configuration) (t : FileTree) (root : String) (ps : List Place) : Prop :=
  ∀ files, discover c t root = .ok files → ∀ f ∈ files, t.Avoids ps f.path.toPath

namespace FileTree.LacksFiles

variable {t t' : FileTree} {ps : List Place} {c : Configuration} {root : String} {follow : Bool}
  {excludes : FileName → Bool} {v : Encounter} {err : WalkError} {path : Path} {cause : FileError}

/-- A path that touches one of the files leads to it, or tries to go on behind it. -/
theorem resolve_of_touched (h : t.LacksFiles ps t') (htouches : ¬ t.Avoids ps path) :
    (∃ content, t.resolve path = .ok (.file content)) ∨ t.resolve path = .error .notDirectory := by
  obtain ⟨p, hmem, hp⟩ := not_avoids_iff.1 htouches
  obtain ⟨content, hfile⟩ := h.files p hp
  rcases resolve_of_touched_file hfile hmem with hok | herror
  · exact .inl ⟨content, hok⟩
  · exact .inr herror

/-- A path to a directory touches none of the files. -/
theorem avoids_of_resolve {location : Location} {es : List Entry} (h : t.LacksFiles ps t')
    (hpath : t.resolve path = .ok (.directory location es)) : t.Avoids ps path := by
  by_contra htouches
  rcases h.resolve_of_touched htouches with ⟨content, hok⟩ | herror
  · cases hpath.symm.trans hok
  · cases hpath.symm.trans herror

/-- Walks go into no directory by way of a file. -/
theorem hiddenPlaces (h : t.LacksFiles ps t')
    (hroot : t.Avoids ps (TreePath.mk root []).toPath) :
    HiddenPlaces t t' ps follow excludes root where
  lacks := h.toLacks
  avoided := hroot
  closed := by
    intro v d es hv henters
    obtain ⟨outer, houter, hmem⟩ := hv.leads
    exact h.avoids_of_resolve (Walk.resolve_of_enters henters houter hmem)

/-- Where a walk ends at a path that touches one of the files, it is at a link to be followed that is not
one of them, and the path leads nowhere. -/
theorem of_stops (h : t.LacksFiles ps t') (hv : Walk.Meets ⟨t, follow, excludes⟩ root v)
    (htouches : ¬ t.Avoids ps v.path.toPath) (hstops : v.Stops ⟨t, follow, excludes⟩ err) :
    follow = true ∧ v.place ∉ ps ∧ ∃ cause, err = .unreachable v.path cause := by
  have hplace : v.place ∉ ps := by
    intro hmem
    obtain ⟨content, hfile⟩ := h.files _ hmem
    rw [standingAt_eq, hv.entryAt?] at hfile
    cases hstops <;> cases hfile
  cases hstops with
  | unreachable follows leads => exact ⟨follows, hplace, _, rfl⟩
  | loop follows leads => exact absurd (h.avoids_of_resolve leads) htouches

end FileTree.LacksFiles

end BareCallGraph
