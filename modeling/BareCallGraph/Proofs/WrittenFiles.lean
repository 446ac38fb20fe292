import BareCallGraph.FileTree.Edit
import BareCallGraph.Proofs.Locations

/-!
# What writing a file changes

A file is written at a `Place`: under a name in a directory. Seen place by place (`FileTree.standingAt`),
writing changes nothing but what stands at that one place, which was empty or held a file. The path that
was written to leads to the new file afterwards, through all links on its way.
-/

namespace BareCallGraph

/-- What can stand at a place. What is in a directory stands at places of its own. -/
inductive Standing where
  /-- A file with these bytes. -/
  | file (content : ByteArray)
  /-- A link that stands for a path. -/
  | link (target : Path)
  /-- A directory. -/
  | directory

namespace Entry

/-- What stands where an entry is. -/
def standing : Entry → Standing
  | file _ content => .file content
  | link _ target => .link target
  | directory _ _ => .directory

/-- What is put among entries is found there. -/
theorem find?_put_self (e : Entry) (es : List Entry) : find? (put e es) e.name = some e := by
  induction es with
  | nil => simp [put, find?]
  | cons f es ih =>
    rw [put]
    split
    · simp [find?]
    · next hne => rw [find?, List.find?_cons_of_neg (by simpa using hne), ← find?, ih]

/-- Other names are found as before. -/
theorem find?_put_of_ne {e : Entry} {n : FileName} (h : n ≠ e.name) (es : List Entry) :
    find? (put e es) n = find? es n := by
  induction es with
  | nil => simp [put, find?, h.symm]
  | cons f es ih =>
    rw [put]
    split
    · next heq =>
      rw [find?, find?, List.find?_cons_of_neg (by simpa using h.symm),
        List.find?_cons_of_neg (by simpa [heq] using h.symm)]
    · by_cases hf : f.name = n
      · simp [find?, hf]
      · rw [find?, find?, List.find?_cons_of_neg (by simpa using hf),
          List.find?_cons_of_neg (by simpa using hf), ← find?, ← find?, ih]

/-- What keeps the names of entries can be applied before or behind a search. -/
theorem find?_map {g : Entry → Entry} (hg : ∀ e, (g e).name = e.name) (es : List Entry) (m : FileName) :
    find? (es.map g) m = (find? es m).map g := by
  rw [find?, List.find?_map, find?]
  simp only [Function.comp_def, hg]

/-- A change in a directory below reaches nothing around that directory. -/
theorem find?_changeBelow (change : List Entry → List Entry) (n : FileName) (ns : Location)
    (es : List Entry) (m : FileName) :
    (∃ k inner, m = n ∧ find? es m = some (.directory k inner) ∧
      find? (changeBelow change (n :: ns) es) m = some (.directory k (changeBelow change ns inner))) ∨
    find? (changeBelow change (n :: ns) es) m = find? es m ∧
      ¬ (m = n ∧ ∃ k inner, find? es m = some (.directory k inner)) := by
  rw [changeBelow, find?_map]
  · cases hfind : find? es m with
    | none => simp
    | some e =>
      have hname := (name_of_find? hfind).2
      cases e with
      | file k content => simp
      | link k target => simp
      | directory k inner =>
        cases hname
        by_cases hkn : k = n
        · exact .inl ⟨k, inner, hkn, rfl, by simp [hkn]⟩
        · exact .inr ⟨by simp [hkn], fun h => hkn h.1⟩
  · intro e
    split
    · split <;> rfl
    · rfl

end Entry

namespace FileTree

/-- What stands under a name in the directory that the given names lead to. -/
def standingBelow (es : List Entry) (location : Location) (n : FileName) : Option Standing :=
  ((entriesBelow es location).bind (Entry.find? · n)).map Entry.standing

/-- What stands at a place. -/
def standingAt (t : FileTree) (p : Place) : Option Standing := standingBelow t.entries p.location p.name

/-! ## Changes below -/

section

variable {es es' inner : List Entry} {m k : FileName}

/-- Only the entry with the first name matters to what is below it. -/
theorem entriesBelow_cons_congr (h : Entry.find? es m = Entry.find? es' m) (location : Location) :
    entriesBelow es (m :: location) = entriesBelow es' (m :: location) := by
  rw [entriesBelow, h, entriesBelow]

/-- Below the name of a directory is what is in the directory. -/
theorem entriesBelow_cons_of_directory (h : Entry.find? es m = some (.directory k inner))
    (location : Location) : entriesBelow es (m :: location) = entriesBelow inner location := by
  rw [entriesBelow, h]

/-- Below a name that is not that of a directory there is nothing. -/
theorem entriesBelow_cons_of_not_directory
    (h : ∀ k inner, Entry.find? es m ≠ some (.directory k inner)) (location : Location) :
    entriesBelow es (m :: location) = none := by
  rw [entriesBelow]
  split
  · next k inner hfind => exact absurd hfind (h k inner)
  · rfl

end

/-- The directory at a location holds after a change what the change makes of it. -/
theorem entriesBelow_changeBelow (change : List Entry → List Entry) (location : Location)
    (es : List Entry) : entriesBelow (Entry.changeBelow change location es) location =
      (entriesBelow es location).map change := by
  induction location generalizing es with
  | nil => rfl
  | cons n ns ih =>
    rcases Entry.find?_changeBelow change n ns es n with ⟨k, inner, -, hfind, hchange⟩ | ⟨hsame, hnone⟩
    · rw [entriesBelow_cons_of_directory hchange, entriesBelow_cons_of_directory hfind, ih]
    · have hnone : ∀ k inner, Entry.find? es n ≠ some (.directory k inner) :=
        fun k inner hfind => hnone ⟨rfl, k, inner, hfind⟩
      rw [entriesBelow_cons_congr hsame, entriesBelow_cons_of_not_directory hnone, Option.map_none]

/-- A change of what has one name in a directory changes nothing at any other place, if neither what had
the name nor what has it then is a directory. -/
theorem standingBelow_changeBelow {change : List Entry → List Entry} {n : FileName}
    (hothers : ∀ es m, m ≠ n → Entry.find? (change es) m = Entry.find? es m)
    (hplain : ∀ es k deeper, Entry.find? (change es) n ≠ some (.directory k deeper))
    {location : Location} {es : List Entry} (hfree : ∀ inner, entriesBelow es location = some inner →
      ∀ k deeper, Entry.find? inner n ≠ some (.directory k deeper))
    {location' : Location} {n' : FileName} (hne : ¬ (location' = location ∧ n' = n)) :
    standingBelow (Entry.changeBelow change location es) location' n' =
      standingBelow es location' n' := by
  induction location generalizing es location' with
  | nil =>
    have hhere : ∀ k deeper, Entry.find? es n ≠ some (.directory k deeper) := hfree es rfl
    cases location' with
    | nil =>
      have hn : n' ≠ n := fun h => hne ⟨rfl, h⟩
      rw [standingBelow, standingBelow, entriesBelow, entriesBelow, Option.bind_some, Option.bind_some,
        Entry.changeBelow, hothers es n' hn]
    | cons m location' =>
      rw [standingBelow, standingBelow, Entry.changeBelow]
      by_cases hm : m = n
      · -- neither what is new nor what it replaces has anything below
        subst hm
        rw [entriesBelow_cons_of_not_directory (hplain es), entriesBelow_cons_of_not_directory hhere]
      · rw [entriesBelow_cons_congr (hothers es m hm)]
  | cons m location ih =>
    cases location' with
    | nil =>
      rw [standingBelow, standingBelow, entriesBelow, entriesBelow, Option.bind_some, Option.bind_some]
      rcases Entry.find?_changeBelow change m location es n' with
        ⟨k, inner, -, hfind, hchange⟩ | ⟨hsame, -⟩
      · rw [hfind, hchange]
        rfl
      · rw [hsame]
    | cons m' location' =>
      rcases Entry.find?_changeBelow change m location es m' with
        ⟨k, inner, rfl, hfind, hchange⟩ | ⟨hsame, -⟩
      · have hinner : ∀ deepest, entriesBelow inner location = some deepest →
            ∀ k deeper, Entry.find? deepest n ≠ some (.directory k deeper) := by
          intro deepest hdeepest
          refine hfree deepest ?_
          rw [entriesBelow_cons_of_directory hfind, hdeepest]
        rw [standingBelow, standingBelow, entriesBelow_cons_of_directory hchange,
          entriesBelow_cons_of_directory hfind]
        exact ih hinner fun h => hne ⟨by rw [h.1], h.2⟩
      · rw [standingBelow, standingBelow, entriesBelow_cons_congr hsame]

/-! ## Places to write to -/

/-- A directory is there that can hold the file, and nothing but a file is in the way. -/
def IsFree (t : FileTree) (p : Place) : Prop :=
  ∃ es, t.entriesAt p.location = some es ∧
    (Entry.find? es p.name = none ∨ ∃ n content, Entry.find? es p.name = some (.file n content))

/-- The tree with a file written at a place. -/
def withFile (t : FileTree) (p : Place) (content : ByteArray) : FileTree :=
  t.putAt p.location (.file p.name content) rfl

variable {t : FileTree} {p : Place} (content : ByteArray)

/-- A file that is written at a free place changes nothing at any other place. -/
theorem standingAt_withFile_of_ne (hfree : t.IsFree p) {q : Place} (hne : q ≠ p) :
    (t.withFile p content).standingAt q = t.standingAt q := by
  refine standingBelow_changeBelow (n := p.name) ?_ ?_ ?_ ?_
  · intro es m hm
    exact Entry.find?_put_of_ne hm es
  · intro es k deeper hfind
    have hself := Entry.find?_put_self (.file p.name content) es
    rw [Entry.name, hfind] at hself
    cases hself
  · intro inner hinner k deeper hfind
    obtain ⟨es, hes, hnone⟩ := hfree
    rw [entriesAt, hinner] at hes
    cases hes
    rcases hnone with hnone | ⟨n, c, hfile⟩
    · cases hnone.symm.trans hfind
    · cases hfile.symm.trans hfind
  · intro h
    cases p
    cases q
    exact hne (by rw [Place.mk.injEq]; exact h)

/-- The written file is found among the entries of its directory. -/
theorem find?_withFile (hfree : t.IsFree p) :
    ((t.withFile p content).entriesAt p.location).bind (Entry.find? · p.name) =
      some (.file p.name content) := by
  obtain ⟨es, hes, -⟩ := hfree
  have hafter : (t.withFile p content).entriesAt p.location =
      (t.entriesAt p.location).map (Entry.put (.file p.name content)) :=
    entriesBelow_changeBelow _ p.location t.entries
  rw [hafter, hes, Option.map_some, Option.bind_some]
  exact Entry.find?_put_self (.file p.name content) es

/-- At the place of the written file stands that file. -/
theorem standingAt_withFile_self (hfree : t.IsFree p) :
    (t.withFile p content).standingAt p = some (.file content) := by
  have hfind := find?_withFile content hfree
  rw [entriesAt] at hfind
  rw [standingAt, standingBelow, hfind]
  rfl

/-! ## Paths that are written to -/

section TakePlace

variable {onPlace : Location → Path → List PathStep → Except FileError Place}
  {onLink : Location → Path → List PathStep → Except FileError Target}

/-- A name leads to a place to write to if it is the last step and no directory or link has it, or if
the steps behind it do so from the directory or the link of the name. -/
theorem takePlace_name {here : Location} {n : FileName} {steps : List PathStep}
    (h : t.takePlace onPlace here (.name n :: steps) = .ok p) :
    ∃ es, t.entriesAt here = some es ∧
      (steps = [] ∧ p = ⟨here, n⟩ ∧
          (Entry.find? es n = none ∨ ∃ m c, Entry.find? es n = some (.file m c)) ∨
        (∃ m inner, Entry.find? es n = some (.directory m inner) ∧
          t.takePlace onPlace (here ++ [n]) steps = .ok p) ∨
        ∃ m target, Entry.find? es n = some (.link m target) ∧ onPlace here target steps = .ok p) := by
  rw [takePlace] at h
  split at h
  · contradiction
  · next es hes =>
    refine ⟨es, hes, ?_⟩
    simp only at h
    split at h
    · contradiction
    · split at h
      · next hfind =>
        split at h
        · next hsteps =>
          cases h
          exact .inl ⟨List.isEmpty_iff.1 hsteps, rfl, .inl hfind⟩
        · contradiction
      · next m inner hfind => exact .inr (.inl ⟨m, inner, hfind, h⟩)
      · next m c hfind =>
        split at h
        · next hsteps =>
          cases h
          exact .inl ⟨List.isEmpty_iff.1 hsteps, rfl, .inr ⟨m, c, hfind⟩⟩
        · contradiction
      · next m target hfind => exact .inr (.inr ⟨m, target, hfind, h⟩)

/-- Steps that lead to a place to write to lead to a free one, if links do. -/
theorem isFree_of_takePlace
    (hlink : ∀ here target steps, onPlace here target steps = .ok p → t.IsFree p)
    {here : Location} {steps : List PathStep} (h : t.takePlace onPlace here steps = .ok p) :
    t.IsFree p := by
  induction steps generalizing here with
  | nil =>
    rw [takePlace] at h
    split at h <;> contradiction
  | cons step steps ih =>
    cases step with
    | name n =>
      obtain ⟨es, hes, ⟨-, rfl, hfree⟩ | ⟨m, inner, -, h⟩ | ⟨m, target, -, h⟩⟩ := takePlace_name h
      · exact ⟨es, hes, hfree⟩
      · exact ih h
      · exact hlink here target steps h
    | _ =>
      rw [takePlace] at h
      split at h
      · contradiction
      · exact ih h

/-- What is passed on the way to a free place is as it was after the file is written. -/
theorem find?_withFile_of_passed (hfree : t.IsFree p) {here : Location} {es : List Entry} {n : FileName}
    {e : Entry} (hes : t.entriesAt here = some es) (hfind : Entry.find? es n = some e)
    (hpassed : ∀ m c, e ≠ .file m c) : ∃ e', e'.standing = e.standing ∧
      ((t.withFile p content).entriesAt here).bind (Entry.find? · n) = some e' := by
  have hne : (⟨here, n⟩ : Place) ≠ p := by
    rintro rfl
    obtain ⟨es', hes', hnone⟩ := hfree
    rw [hes] at hes'
    cases hes'
    rcases hnone with hnone | ⟨m, c, hfile⟩
    · cases hnone.symm.trans hfind
    · exact hpassed m c (Option.some.inj (hfind.symm.trans hfile))
  have hstanding : t.standingAt ⟨here, n⟩ = some e.standing := by
    rw [entriesAt] at hes
    rw [standingAt, standingBelow, hes, Option.bind_some, hfind, Option.map_some]
  rw [← standingAt_withFile_of_ne content hfree hne, standingAt, standingBelow] at hstanding
  obtain ⟨e', he', hsame⟩ := Option.map_eq_some_iff.1 hstanding
  exact ⟨e', hsame, he'⟩

/-- Steps that lead to a place to write to lead to the file after it is written, if links do. -/
theorem take_withFile (hfree : t.IsFree p)
    (hlink : ∀ here target steps, onPlace here target steps = .ok p →
      onLink here target steps = .ok (.file content))
    {here : Location} {steps : List PathStep} (h : t.takePlace onPlace here steps = .ok p) :
    (t.withFile p content).take onLink here steps = .ok (.file content) := by
  induction steps generalizing here with
  | nil =>
    rw [takePlace] at h
    split at h <;> contradiction
  | cons step steps ih =>
    cases step with
    | name n =>
      rw [take]
      obtain ⟨es, hes, ⟨rfl, rfl, -⟩ | ⟨m, inner, hfind, h⟩ | ⟨m, target, hfind, h⟩⟩ := takePlace_name h
      · rw [find?_withFile content hfree]
        rfl
      · obtain ⟨e', hsame, he'⟩ := find?_withFile_of_passed content hfree hes hfind (by simp)
        rw [he']
        cases e' with
        | file m' c => cases hsame
        | link m' target => cases hsame
        | directory m' inner' => exact ih h
      · obtain ⟨e', hsame, he'⟩ := find?_withFile_of_passed content hfree hes hfind (by simp)
        rw [he']
        cases e' with
        | file m' c => cases hsame
        | link m' target' =>
          cases hsame
          exact hlink here target steps h
        | directory m' inner' => cases hsame
    | _ =>
      rw [takePlace] at h
      split at h
      · contradiction
      · exact ih h

end TakePlace

/-- A place that steps lead to is free for a file. -/
theorem isFree_of_placeFrom {links : Nat} {here : Location} {steps : List PathStep}
    (h : t.placeFrom links here steps = .ok p) : t.IsFree p := by
  induction links generalizing here steps with
  | zero =>
    rw [placeFrom] at h
    refine isFree_of_takePlace ?_ h
    intro _ _ _ hlink
    contradiction
  | succ links ih =>
    rw [placeFrom] at h
    refine isFree_of_takePlace ?_ h
    intro _ _ _ hlink
    exact ih hlink

/-- The steps to where a file is written lead to that file afterwards. By induction along the steps and
links. -/
theorem follow_withFile {links : Nat} {here : Location} {steps : List PathStep}
    (h : t.placeFrom links here steps = .ok p) :
    (t.withFile p content).follow links here steps = .ok (.file content) := by
  have hfree := isFree_of_placeFrom h
  induction links generalizing here steps with
  | zero =>
    rw [placeFrom] at h
    rw [follow]
    refine take_withFile content hfree ?_ h
    intro _ _ _ hlink
    contradiction
  | succ links ih =>
    rw [placeFrom] at h
    rw [follow]
    refine take_withFile content hfree ?_ h
    intro _ _ _ hlink
    exact ih hlink

/-- A tree differs from another at most in the file that a path leads to. That path leads to a file with
the given bytes, and what stood in its place was nothing or a file. -/
structure Writes (t : FileTree) (path : Path) (content : ByteArray) (t' : FileTree) : Prop where
  /-- The path leads to the bytes. -/
  resolves : t'.resolve path = .ok (.file content)
  /-- Everything else is where it was. -/
  elsewhere : ∃ place, t.placeOf path = .ok place ∧ t.IsFree place ∧
    t'.standingAt place = some (.file content) ∧
    ∀ other, other ≠ place → t'.standingAt other = t.standingAt other
  /-- Relative paths start where they did. -/
  workingDirectory : t'.workingDirectory = t.workingDirectory

/-- Writing fails exactly as the search for the place does. -/
theorem write_eq_error_iff {content : ByteArray} {path : Path} {e : FileError} :
    t.write path content = .error e ↔ t.placeOf path = .error e := by
  rw [write]
  cases t.placeOf path <;> simp [Except.map]

/-- A file that is written is all that changes. -/
theorem writes_of_write {content : ByteArray} {path : Path} {t' : FileTree}
    (h : t.write path content = .ok t') : t.Writes path content t' := by
  rw [write] at h
  cases hplace : t.placeOf path with
  | error e =>
    rw [hplace] at h
    contradiction
  | ok place =>
    rw [hplace] at h
    cases h
    have hplaceOf := hplace
    rw [placeOf] at hplace
    split at hplace
    · contradiction
    · next hpath =>
      have hfree := isFree_of_placeFrom hplace
      refine ⟨?_, ⟨place, hplaceOf, hfree, standingAt_withFile_self content hfree, ?_⟩, rfl⟩
      · rw [resolve, if_neg hpath]
        exact follow_withFile content hplace
      · intro other hne
        exact standingAt_withFile_of_ne content hfree hne

end FileTree

end BareCallGraph
