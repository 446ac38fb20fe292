import BareCallGraph.FileTree.Basic

/-!
# Changing a file tree

Files are written by path the way a program would: links on the way are followed, also the one the path
ends in, and a file that is not there is created in a directory that is. Entries can also be put at a
path together with the directories that lead there, and be removed. No change gives a directory two
entries of one name.
-/

namespace BareCallGraph

namespace Entry

/-- Puts an entry in a directory, in place of the one that has its name. -/
def put (e : Entry) : List Entry → List Entry
  | [] => [e]
  | f :: fs => if f.name = e.name then e :: fs else f :: put e fs

/-- Takes the entry of a name out of a directory. -/
def remove (n : FileName) (es : List Entry) : List Entry := es.filter (·.name != n)

/-- Changes what is in the directory that the given names lead to. -/
def changeBelow (change : List Entry → List Entry) : Location → List Entry → List Entry
  | [], es => change es
  | n :: ns, es =>
    es.map fun
      | .directory m inner =>
        if m = n then .directory m (changeBelow change ns inner) else .directory m inner
      | e => e

/-- What is among entries after one was put there is that one, or was there before. -/
theorem mem_of_mem_put {e f : Entry} {es : List Entry} (h : f ∈ put e es) : f = e ∨ f ∈ es := by
  induction es with
  | nil => exact .inl (List.mem_singleton.1 h)
  | cons g es ih =>
    rw [put] at h
    split at h
    · rcases List.mem_cons.1 h with rfl | h
      · exact .inl rfl
      · exact .inr (.tail _ h)
    · rcases List.mem_cons.1 h with rfl | h
      · exact .inr (.head _)
      · exact (ih h).imp_right (.tail _)

/-- An entry that is put in a directory replaces the one of its name. -/
theorem haveDistinctNames_put {e : Entry} {es : List Entry} (he : e.hasDistinctNames = true)
    (h : haveDistinctNames es = true) : haveDistinctNames (put e es) = true := by
  induction es with
  | nil => exact haveDistinctNames_cons.2 ⟨he, by simp, rfl⟩
  | cons f es ih =>
    obtain ⟨hf, hne, hes⟩ := haveDistinctNames_cons.1 h
    rw [put]
    split
    · next heq => exact haveDistinctNames_cons.2 ⟨he, fun g hg => heq ▸ hne g hg, hes⟩
    · next hdiffers =>
      refine haveDistinctNames_cons.2 ⟨hf, ?_, ih hes⟩
      intro g hg
      rcases mem_of_mem_put hg with rfl | hg
      · exact fun heq => hdiffers heq.symm
      · exact hne g hg

/-- Names stay distinct when an entry is removed. -/
theorem haveDistinctNames_remove {n : FileName} {es : List Entry} (h : haveDistinctNames es = true) :
    haveDistinctNames (remove n es) = true := by
  induction es with
  | nil => rfl
  | cons e es ih =>
    obtain ⟨he, hne, hes⟩ := haveDistinctNames_cons.1 h
    rw [remove, List.filter_cons]
    split
    · exact haveDistinctNames_cons.2 ⟨he, fun g hg => hne g (List.mem_filter.1 hg).1, ih hes⟩
    · exact ih hes

/-- Names stay distinct when entries change inside and keep their names. -/
theorem haveDistinctNames_map {f : Entry → Entry} (hname : ∀ e, (f e).name = e.name)
    (hf : ∀ e, e.hasDistinctNames = true → (f e).hasDistinctNames = true) {es : List Entry}
    (h : haveDistinctNames es = true) : haveDistinctNames (es.map f) = true := by
  induction es with
  | nil => rfl
  | cons e es ih =>
    obtain ⟨he, hne, hes⟩ := haveDistinctNames_cons.1 h
    refine haveDistinctNames_cons.2 ⟨hf e he, ?_, ih hes⟩
    intro g hg
    obtain ⟨g, hmem, rfl⟩ := List.mem_map.1 hg
    rw [hname, hname]
    exact hne g hmem

/-- A change that keeps names distinct does so in a directory below. -/
theorem haveDistinctNames_changeBelow {change : List Entry → List Entry}
    (hchange : ∀ es, haveDistinctNames es = true → haveDistinctNames (change es) = true)
    {location : Location} {es : List Entry} (h : haveDistinctNames es = true) :
    haveDistinctNames (changeBelow change location es) = true := by
  induction location generalizing es with
  | nil => exact hchange es h
  | cons n location ih =>
    rw [changeBelow]
    refine haveDistinctNames_map ?_ ?_ h
    · intro e
      split
      · split <;> rfl
      · rfl
    · intro e he
      split
      · split
        · exact ih he
        · exact he
      · exact he

end Entry

namespace FileTree

/-- Changes what is in the directory at a location, where names stay distinct. -/
def changeAt (t : FileTree) (location : Location) (change : List Entry → List Entry)
    (hchange : ∀ es, Entry.haveDistinctNames es = true → Entry.haveDistinctNames (change es) = true) :
    FileTree where
  entries := Entry.changeBelow change location t.entries
  workingDirectory := t.workingDirectory
  distinct := Entry.haveDistinctNames_changeBelow hchange t.distinct

/-- Puts an entry in the directory at a location. -/
def putAt (t : FileTree) (location : Location) (e : Entry) (he : e.hasDistinctNames = true) : FileTree :=
  t.changeAt location (Entry.put e) fun _ => Entry.haveDistinctNames_put he

/-- Takes the entry of a name out of the directory at a location. -/
def removeAt (t : FileTree) (location : Location) (n : FileName) : FileTree :=
  t.changeAt location (Entry.remove n) fun _ => Entry.haveDistinctNames_remove

/-- Where a file is to be written. -/
structure Place where
  /-- The directory that will hold the file. -/
  location : Location
  /-- The name that the file will have there. -/
  name : FileName
deriving DecidableEq, Repr

/-- Takes steps from a directory to where a file is to be written. The last name may be missing, and what
ends in a slash or a dot is taken for a directory. `onLink` goes on from a link in some directory with the
steps behind it. -/
def takePlace (t : FileTree) (onLink : Location → Path → List PathStep → Except FileError Place)
    (here : Location) (steps : List PathStep) : Except FileError Place :=
  match t.entriesAt here with
  | none => .error .notFound
  | some es =>
    match steps with
    | [] => .error .isDirectory
    | .here :: steps | .slash :: steps => t.takePlace onLink here steps
    | .parent :: steps => t.takePlace onLink here.dropLast steps
    | .name n :: steps =>
      if steps = [.slash] then .error .isDirectory
      else
        match Entry.find? es n with
        | none => if steps.isEmpty then .ok ⟨here, n⟩ else .error .notFound
        | some (.directory _ _) => t.takePlace onLink (here ++ [n]) steps
        | some (.file _ _) => if steps.isEmpty then .ok ⟨here, n⟩ else .error .notDirectory
        | some (.link _ target) => onLink here target steps

/-- Takes steps from a directory to where a file is to be written, and follows up to `links` links, also
one that the steps end in. -/
def placeFrom (t : FileTree) (links : Nat) (here : Location) (steps : List PathStep) :
    Except FileError Place :=
  match links with
  | 0 => t.takePlace (fun _ _ _ => .error .tooManyLinks) here steps
  | links + 1 =>
    t.takePlace (fun here target steps => t.placeFrom links (startOf target here) (target.steps ++ steps))
      here steps

/-- Where a path leads that is to be written to. -/
def placeOf (t : FileTree) (p : Path) : Except FileError Place :=
  if p.isEmpty then .error .notFound
  else t.placeFrom linkLimit (startOf p t.workingDirectory) p.steps

/-- Writes a file. -/
def write (t : FileTree) (p : Path) (content : ByteArray) : Except FileError FileTree :=
  (t.placeOf p).map fun place => t.putAt place.location (.file place.name content) rfl

/-- Makes a directory, unless something has its name. -/
def makeDirectory (t : FileTree) (here : Location) (n : FileName) : FileTree :=
  match (t.entriesAt here).bind (Entry.find? · n) with
  | none => t.putAt here (.directory n []) rfl
  | some _ => t

/-- The location of the directory that a path leads to from a directory. -/
def locationFrom (t : FileTree) (here : Location) (steps : List PathStep) : Location :=
  match t.follow linkLimit here steps with
  | .ok (.directory location _) => location
  | _ => here

/-- Makes the directories that names lead through, and gives the location of the last one. -/
def makeDirectories (t : FileTree) (here : Location) : List FileName → FileTree × Location
  | [] => (t, here)
  | n :: ns =>
    let t := t.makeDirectory here n
    t.makeDirectories (t.locationFrom here [.name n]) ns

/-- What can be put at a path. -/
inductive Addition where
  /-- A file with these bytes. -/
  | file (content : ByteArray)
  /-- A link that stands for a path. -/
  | link (target : Path)
  /-- A directory. -/
  | directory
deriving Inhabited

/-- Puts something in a directory under a name. A file goes to where a link of the name leads, and a
directory that is there stays as it is. -/
def add (t : FileTree) (here : Location) (n : FileName) : Addition → FileTree
  | .file content =>
    match t.placeFrom linkLimit here [.name n] with
    | .ok place => t.putAt place.location (.file place.name content) rfl
    | .error _ => t
  | .link target => t.putAt here (.link n target) rfl
  | .directory => t.makeDirectory here n

/-- Puts something at the end of a list of names, starting from a directory and making the directories
on the way. -/
def put (t : FileTree) (here : Location) (names : List FileName) (a : Addition) : FileTree :=
  match names.getLast? with
  | none => t
  | some n =>
    let (t, location) := t.makeDirectories here names.dropLast
    t.add location n a

/-- Removes what is at the end of a list of names, starting from a directory. A link is removed and not
what it leads to. -/
def remove (t : FileTree) (here : Location) (names : List FileName) : FileTree :=
  match names.getLast? with
  | none => t
  | some n =>
    t.removeAt (t.locationFrom here (names.dropLast.map .name)) n

end FileTree

end BareCallGraph
