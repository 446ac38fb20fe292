import BareCallGraph.Proofs.DiscoveredFiles
import BareCallGraph.Proofs.LinkLimit
import BareCallGraph.Proofs.Passes
import Mathlib.Data.List.Basic

/-!
# Files that hold modules

Whether a file holds a module is told by its name alone: a name has the extension, the module is the name
without it, and a path has the name that it ends in. These are asked for in different ways. A name is
tested by its bytes, a module is what stands before the last dot, and a path is cut at its slashes. All
three ways agree on every path.

A path ends in a name (`Path.EndsIn`) if nothing follows the name but slashes and dots that stand alone.
-/

namespace BareCallGraph

/-! ## The end of a path -/

namespace Path

/-- Slashes, and dots that stand alone behind one of them. -/
inductive IsTrailing : List Char → Prop where
  | done : IsTrailing []
  | slash {rest : List Char} (later : IsTrailing rest) : IsTrailing ('/' :: rest)
  | dot {rest : List Char} (later : IsTrailing rest) : IsTrailing ('/' :: '.' :: rest)

/-- What a file can be called in its directory. -/
structure IsFileName (name : String) : Prop where
  /-- It is one piece of a path. -/
  noSlash : '/' ∉ name.toList
  /-- It is not empty. -/
  ne_empty : name ≠ ""
  /-- It is not the directory itself. -/
  ne_dot : name ≠ "."
  /-- It is not the directory above. -/
  ne_dots : name ≠ ".."

/-- A path ends in a name: a directory may stand before it, and what follows is of no matter. -/
inductive EndsIn : String → String → Prop where
  | mk {path name : String} (directory trailing : List Char)
      (parts : path.toList = directory ++ name.toList ++ trailing)
      (separate : directory = [] ∨ directory.getLast? = some '/') (file : IsFileName name)
      (rest : IsTrailing trailing) : EndsIn path name

/-- The pieces of a path that lead somewhere. -/
def components (text : String) : List String :=
  (pieces text).filter fun piece => !piece.isEmpty && piece != "."

/-- The name of the file at a path is its last component, unless that leads up. -/
theorem fileName?_eq (text : String) :
    fileName? text = (components text).getLast?.filter (· != "..") := rfl

/-- The components of a path are those of its parts before and behind a slash. -/
theorem components_append (before after : String) :
    components (before ++ "/" ++ after) = components before ++ components after := by
  rw [components, pieces_append, List.filter_append, components, components]

/-- A text without slashes is one component, or none if it is empty or a dot. -/
theorem components_of_noSlash {name : String} (h : '/' ∉ name.toList) :
    components name = [name].filter fun piece => !piece.isEmpty && piece != "." := by
  rw [components, pieces, List.splitOn_eq_singleton h, List.map_singleton, String.ofList_toList]

/-- The name of a file is one component. -/
theorem IsFileName.components_eq {name : String} (h : IsFileName name) : components name = [name] := by
  rw [components_of_noSlash h.noSlash]
  simp [h.ne_empty, h.ne_dot]

/-- A slash at the front adds no component. -/
theorem components_slash (cs : List Char) :
    components (String.ofList ('/' :: cs)) = components (String.ofList cs) := by
  have hparts : String.ofList ('/' :: cs) = "" ++ "/" ++ String.ofList cs := by
    apply String.toList_inj.1
    simp
  have hempty : components "" = [] := rfl
  rw [hparts, components_append, hempty, List.nil_append]

/-- A dot and a slash at the front add no component. -/
theorem components_dotSlash (cs : List Char) :
    components (String.ofList ('.' :: '/' :: cs)) = components (String.ofList cs) := by
  have hparts : String.ofList ('.' :: '/' :: cs) = "." ++ "/" ++ String.ofList cs := by
    apply String.toList_inj.1
    simp
  have hdot : components "." = [] := rfl
  rw [hparts, components_append, hdot, List.nil_append]

/-- What may follow a name leads nowhere, also behind a dot. -/
theorem IsTrailing.components_eq {cs : List Char} (h : IsTrailing cs) :
    components (String.ofList cs) = [] ∧ components (String.ofList ('.' :: cs)) = [] := by
  induction h with
  | done => exact ⟨rfl, rfl⟩
  | slash _ ih => rw [components_slash, components_dotSlash]; exact ⟨ih.1, ih.1⟩
  | dot _ ih => rw [components_slash, components_dotSlash]; exact ⟨ih.2, ih.2⟩

/-- A name and what follows it lead to the name. -/
theorem IsFileName.components_append {name : String} (h : IsFileName name) {trailing : List Char}
    (ht : IsTrailing trailing) : components (String.ofList (name.toList ++ trailing)) = [name] := by
  have hslash {rest : List Char} (hrest : components (String.ofList rest) = []) :
      components (String.ofList (name.toList ++ '/' :: rest)) = [name] := by
    have hparts : String.ofList (name.toList ++ '/' :: rest) = name ++ "/" ++ String.ofList rest := by
      apply String.toList_inj.1
      simp
    rw [hparts, Path.components_append, h.components_eq, hrest, List.append_nil]
  cases ht with
  | done => rw [List.append_nil, String.ofList_toList, h.components_eq]
  | slash later => exact hslash later.components_eq.1
  | dot later => exact hslash later.components_eq.2

/-- A path that ends in a name has that name as the name of its file. -/
theorem EndsIn.fileName?_eq {path name : String} (h : EndsIn path name) : fileName? path = some name := by
  obtain ⟨directory, trailing, parts, separate, file, rest⟩ := h
  have hlast : (components path).getLast? = some name := by
    rcases separate with rfl | hslash
    · rw [List.nil_append] at parts
      rw [← String.ofList_toList (s := path), parts, file.components_append rest]
      rfl
    · obtain ⟨before, rfl⟩ := List.getLast?_eq_some_iff.1 hslash
      have hparts : path = String.ofList before ++ "/" ++ String.ofList (name.toList ++ trailing) := by
        apply String.toList_inj.1
        simp [parts]
      rw [hparts, Path.components_append, file.components_append rest, List.getLast?_concat]
  rw [Path.fileName?_eq, hlast]
  simp [file.ne_dots]

/-- The pieces of a text have no slashes in them. -/
theorem noSlash_of_mem_pieces {path piece : String} (h : piece ∈ pieces path) : '/' ∉ piece.toList := by
  have hall (cs : List Char) : ∀ part ∈ cs.splitOn '/', '/' ∉ part := by
    induction cs with
    | nil => simp
    | cons c cs ih =>
      rw [List.splitOn, List.splitOnP_cons_eq_if_modifyHead]
      obtain ⟨first, later, hsplit⟩ :=
        List.exists_cons_of_ne_nil (List.splitOnP_ne_nil (· == '/') cs)
      rw [List.splitOn, hsplit, List.forall_mem_cons] at ih
      rw [hsplit]
      split
      · exact List.forall_mem_cons.2 ⟨by simp, List.forall_mem_cons.2 ih⟩
      · next hc =>
        have hne : '/' ≠ c := by
          rintro rfl
          exact hc rfl
        refine List.forall_mem_cons.2 ⟨?_, ih.2⟩
        rw [List.mem_cons, not_or]
        exact ⟨hne, ih.1⟩
  obtain ⟨part, hpart, rfl⟩ := List.mem_map.1 h
  rw [String.toList_ofList]
  exact hall path.toList part hpart

/-- The pieces of a text with one of them picked out. -/
theorem toList_of_pieces {path name : String} {before after : List String}
    (h : pieces path = before ++ name :: after) :
    path.toList = before.flatMap (fun piece => piece.toList ++ ['/']) ++ name.toList ++
      after.flatMap fun piece => '/' :: piece.toList := by
  have hbehind (name : List Char) (after : List (List Char)) :
      ['/'].intercalate (name :: after) = name ++ after.flatMap fun piece => '/' :: piece := by
    induction after generalizing name with
    | nil => simp
    | cons piece after ih => rw [List.intercalate_cons_cons, ih]; simp
  have hall (before after : List (List Char)) (name : List Char) :
      ['/'].intercalate (before ++ name :: after) =
        before.flatMap (fun piece => piece ++ ['/']) ++ name ++
          after.flatMap fun piece => '/' :: piece := by
    induction before with
    | nil => rw [List.nil_append, hbehind]; simp
    | cons piece before ih =>
      obtain ⟨next, later, hnext⟩ := List.exists_cons_of_ne_nil
        (List.append_ne_nil_of_right_ne_nil before (List.cons_ne_nil name after))
      rw [List.cons_append, hnext, List.intercalate_cons_cons, ← hnext, ih]
      simp
  have hsplit : path.toList.splitOn '/' =
      before.map String.toList ++ name.toList :: after.map String.toList := by
    have hlists := congrArg (List.map String.toList) h
    simpa [pieces, Function.comp_def] using hlists
  have hjoined : List.intercalate ['/'] (path.toList.splitOn '/') = path.toList :=
    List.intercalate_splitOn '/'
  rw [← hjoined, hsplit, hall]
  simp [List.flatMap_map]

/-- Pieces that lead nowhere are of no matter behind a name. -/
theorem isTrailing_of_pieces {after : List String}
    (h : ∀ piece ∈ after, piece = "" ∨ piece = ".") :
    IsTrailing (after.flatMap fun piece => '/' :: piece.toList) := by
  induction after with
  | nil => exact .done
  | cons piece after ih =>
    obtain ⟨hpiece, hafter⟩ := List.forall_mem_cons.1 h
    rw [List.flatMap_cons]
    rcases hpiece with rfl | rfl
    · exact .slash (ih hafter)
    · exact .dot (ih hafter)

/-- The file name of a path is the name that it ends in. -/
theorem fileName?_eq_some_iff {path name : String} : fileName? path = some name ↔ EndsIn path name := by
  refine ⟨fun h => ?_, EndsIn.fileName?_eq⟩
  rw [Path.fileName?_eq, Option.filter_eq_some_iff] at h
  obtain ⟨hlast, hdots⟩ := h
  obtain ⟨earlier, hearlier⟩ := List.getLast?_eq_some_iff.1 hlast
  obtain ⟨front, back, hpieces, -, hback⟩ := List.filter_eq_append_iff.1 hearlier
  obtain ⟨skipped, after, rfl, -, hname, hafter⟩ := List.filter_eq_cons_iff.1 hback
  rw [← List.append_assoc] at hpieces
  have hmem : name ∈ pieces path := by simp [hpieces]
  simp only [Bool.and_eq_true, Bool.not_eq_true', String.isEmpty_eq_false_iff, bne_iff_ne] at hname
  refine .mk _ _ (toList_of_pieces hpieces) ?_
    ⟨noSlash_of_mem_pieces hmem, hname.1, hname.2, by simpa using hdots⟩
    (isTrailing_of_pieces fun piece hpiece => ?_)
  · generalize front ++ skipped = before
    induction before using List.reverseRecOn with
    | nil => exact .inl rfl
    | append_singleton before piece _ => exact .inr (by simp)
  · have hleads := List.filter_eq_nil_iff.1 hafter piece hpiece
    simp only [Bool.and_eq_true, Bool.not_eq_true', String.isEmpty_eq_false_iff, bne_iff_ne] at hleads
    exact Classical.byContradiction fun hne => hleads (not_or.1 hne)

end Path

/-! ## The end of a name -/

/-- A character that ends in a byte of ASCII is that byte. -/
theorem encode_eq_of_getLast? {c : Char} {b : UInt8} (h : (String.utf8EncodeChar c).getLast? = some b)
    (hb : b.toNat < 0x80) : String.utf8EncodeChar c = [b] := by
  obtain ⟨k, marker, hc⟩ := written c
  rw [encode_eq hc] at h ⊢
  cases k with
  | zero =>
    rw [continuation, List.getLast?_singleton, Option.some.injEq] at h
    rw [continuation, h]
  | succ k =>
    have hlast (k : Nat) (x : UInt8) :
        (x :: continuation c.toNat (k + 1)).getLast? = some (.ofNat (c.toNat % 64 + 0x80)) := by
      induction k generalizing x with
      | zero => rfl
      | succ k ih => rw [continuation, List.getLast?_cons_cons, ih]
    rw [hlast, Option.some.injEq] at h
    rw [← h, UInt8.toNat_ofNat'] at hb
    omega

/-- Characters with the same bytes are the same. -/
theorem encode_inj {c d : Char} (h : String.utf8EncodeChar c = String.utf8EncodeChar d) : c = d := by
  have hscan (c : Char) : Utf8.scan (String.utf8EncodeChar c) = [c].map some :=
    Utf8.scan_eq_map_some_iff.2 (by simp)
  have hsame := hscan c
  rw [h, hscan d] at hsame
  simpa using hsame.symm

/-- Characters of ASCII that a text ends in are those that its bytes end in. -/
theorem suffix_iff_encode {cs es : List Char} (h : ∀ e ∈ es, e.toNat < 0x80) :
    es.flatMap String.utf8EncodeChar <:+ cs.flatMap String.utf8EncodeChar ↔ es <:+ cs := by
  refine ⟨fun hsuffix => ?_, fun ⟨before, hcs⟩ => ?_⟩
  · induction es using List.reverseRecOn generalizing cs with
    | nil => exact List.nil_suffix
    | append_singleton es e ih =>
      obtain ⟨hes, he⟩ := List.forall_mem_append.1 h
      have hascii : e.toNat < 0x80 := he e (.head _)
      have hbyte : String.utf8EncodeChar e = [.ofNat e.toNat] := encode_eq (.one (by omega))
      rw [List.flatMap_append, List.flatMap_singleton, hbyte] at hsuffix
      obtain ⟨before, hbytes⟩ := hsuffix
      cases cs using List.reverseRecOn with
      | nil => simp at hbytes
      | append_singleton cs c =>
        rw [← List.append_assoc, List.flatMap_append, List.flatMap_singleton] at hbytes
        have hlast : (String.utf8EncodeChar c).getLast? = some (.ofNat e.toNat) := by
          rw [← List.getLast?_append_of_ne_nil _ String.utf8EncodeChar_ne_nil, ← hbytes,
            List.getLast?_concat]
        have hc := encode_eq_of_getLast? hlast (by rw [UInt8.toNat_ofNat']; omega)
        obtain rfl : c = e := encode_inj (hc.trans hbyte.symm)
        rw [hc] at hbytes
        have hshorter := ih hes ⟨before, List.append_cancel_right hbytes⟩
        exact List.suffix_concat_iff.2 (.inr ⟨es, rfl, hshorter⟩)
  · exact ⟨before.flatMap String.utf8EncodeChar, by rw [← hcs, List.flatMap_append]⟩

namespace Language

/-- The difference of two numbers, if it is not below zero. -/
def minus? (m n : Nat) : Option Nat := if n ≤ m then some (m - n) else none

/-- The test for an extension as it is done byte by byte: the name is longer than the extension, it ends in
the extension, and there is a dot right before that. Nothing is the answer if the place of the dot is
before the first byte or behind the last one. -/
def hasExtension? (name extension : List UInt8) : Option Bool :=
  if extension.length < name.length && extension.isSuffixOf name then do
    let place ← minus? (← minus? name.length extension.length) 1
    let byte ← name[place]?
    return byte == 0x2E
  else some false

/-- The test looks at no byte that is not there, and finds names that end in a dot and the extension. -/
theorem hasExtension?_eq (name extension : List UInt8) :
    hasExtension? name extension = some ((0x2E :: extension).isSuffixOf name) := by
  by_cases h : extension.length < name.length ∧ extension <:+ name
  · obtain ⟨hlength, before, rfl⟩ := h
    cases before using List.reverseRecOn with
    | nil => simp at hlength
    | append_singleton before byte =>
      have hbefore : minus? (before ++ [byte] ++ extension).length extension.length =
          some (before.length + 1) := by
        rw [minus?, if_pos (Nat.le_of_lt hlength), List.length_append, Nat.add_sub_cancel]
        simp
      have hplace : minus? (before.length + 1) 1 = some before.length := by simp [minus?]
      have hsuffix : (0x2E :: extension).isSuffixOf (before ++ [byte] ++ extension) = (byte == 0x2E) := by
        rw [Bool.eq_iff_iff, List.isSuffixOf_iff_suffix, beq_iff_eq]
        constructor
        · rintro ⟨earlier, hparts⟩
          have hdot : earlier ++ [0x2E] = before ++ [byte] :=
            List.append_cancel_right (by rw [← hparts]; simp)
          simpa using congrArg List.getLast? hdot.symm
        · rintro rfl
          exact ⟨before, by simp⟩
      have htest : (decide (extension.length < (before ++ [byte] ++ extension).length) &&
          extension.isSuffixOf (before ++ [byte] ++ extension)) = true := by
        rw [Bool.and_eq_true, decide_eq_true_iff, List.isSuffixOf_iff_suffix]
        exact ⟨hlength, List.suffix_append _ _⟩
      rw [hasExtension?, if_pos htest, hbefore, hsuffix]
      simp [hplace]
  · have hsuffix : ¬ (0x2E :: extension) <:+ name := by
      rintro ⟨before, rfl⟩
      exact h ⟨by simp; omega, ⟨before ++ [0x2E], by simp⟩⟩
    rw [hasExtension?, if_neg (by simpa using h), Option.some.injEq, eq_comm, ← Bool.not_eq_true,
      List.isSuffixOf_iff_suffix]
    exact hsuffix

/-- A name belongs to the language exactly if the test on its bytes says so. -/
theorem hasExtension?_toUTF8 (name : String) :
    hasExtension? name.toUTF8.toList "py".toUTF8.toList = some (python.matchesFileName name) := by
  have hdotted : 0x2E :: "py".toUTF8.toList = ".py".toList.flatMap String.utf8EncodeChar := by
    rw [toUTF8_toList]
    rfl
  have hsuffix : (0x2E :: "py".toUTF8.toList).isSuffixOf name.toUTF8.toList = true ↔
      ".py".toList <:+ name.toList := by
    rw [List.isSuffixOf_iff_suffix, hdotted, toUTF8_toList]
    exact suffix_iff_encode (by simp)
  rw [hasExtension?_eq, Option.some.injEq, Bool.eq_iff_iff, hsuffix, matchesFileName_iff_suffix]

/-- A path is one of Python exactly if the name of its file has the extension. -/
theorem ofPath?_eq (path : String) :
    ofPath? path = ((Path.fileName? path).filter python.matchesFileName).map fun _ => python := by
  rw [ofPath?]
  cases Path.fileName? path with
  | none => rfl
  | some name => cases h : python.matchesFileName name <;> simp [ofFileName?, all, Option.filter, h]

/-- A file has a language if its path ends in a name with the extension. -/
theorem isSome_ofPath?_iff {path : String} :
    (ofPath? path).isSome ↔ ∃ name, Path.EndsIn path name ∧ ∃ base, name = base ++ ".py" := by
  rw [ofPath?_eq, Option.isSome_map, Option.isSome_iff_exists]
  simp only [Option.filter_eq_some_iff, Path.fileName?_eq_some_iff, matchesFileName_iff]

/-- An extension can be taken off again. -/
theorem append_py_inj {b c : String} : b ++ ".py" = c ++ ".py" ↔ b = c := String.append_left_inj ".py"

/-- A file holds a module if its path ends in a name with the extension. The name is that of the module and
the extension, unless it is nothing but the extension. -/
theorem moduleOfPath?_eq_some_iff {path stem : String} :
    python.moduleOfPath? path = some stem ↔ ∃ name, Path.EndsIn path name ∧
      (name = ".py" ∧ stem = ".py" ∨ name ≠ ".py" ∧ name = stem ++ ".py") := by
  simp only [moduleOfPath?, Option.bind_eq_some_iff, Path.fileName?_eq_some_iff,
    moduleOfFileName?_eq_some_iff]
  refine exists_congr fun name => and_congr_right fun _ => ?_
  have hempty {base : String} : base ++ ".py" = ".py" ↔ base = "" := append_py_inj (c := "")
  constructor
  · rintro ⟨base, rfl, rfl⟩
    by_cases hbase : base = ""
    · exact .inl ⟨hempty.2 hbase, if_pos hbase⟩
    · exact .inr ⟨fun h => hbase (hempty.1 h), by rw [if_neg hbase]⟩
  · rintro (⟨rfl, rfl⟩ | ⟨hne, rfl⟩)
    · exact ⟨"", rfl, rfl⟩
    · exact ⟨stem, rfl, (if_neg fun h => hne (hempty.2 h)).symm⟩

/-- A path leads to a module exactly if it ends in a name with the extension. -/
theorem isSome_moduleOfPath?_iff {path : String} :
    (python.moduleOfPath? path).isSome ↔ ∃ name, Path.EndsIn path name ∧ ∃ base, name = base ++ ".py" := by
  simp only [Option.isSome_iff_exists, moduleOfPath?, Option.bind_eq_some_iff, Path.fileName?_eq_some_iff,
    moduleOfFileName?_eq_some_iff]
  constructor
  · rintro ⟨_, name, hname, base, hbase, -⟩
    exact ⟨name, hname, base, hbase⟩
  · rintro ⟨name, hname, base, hbase⟩
    exact ⟨_, name, hname, base, hbase, rfl⟩

/-- Of two names of files that hold modules of one name, one is nothing but the extension. -/
theorem stem_eq_stem_iff {name other : String} (hname : python.matchesFileName name = true)
    (hother : python.matchesFileName other = true) (hne : name ≠ other) :
    Path.stem name = Path.stem other ↔
      name = ".py" ∧ other = ".py.py" ∨ name = ".py.py" ∧ other = ".py" := by
  obtain ⟨base, rfl⟩ := matchesFileName_iff.1 hname
  obtain ⟨base', rfl⟩ := matchesFileName_iff.1 hother
  have hshort {base : String} : base ++ ".py" = ".py" ↔ base = "" := append_py_inj (c := "")
  have hlong {base : String} : base ++ ".py" = ".py.py" ↔ base = ".py" := append_py_inj (c := ".py")
  rw [Ne, append_py_inj] at hne
  rw [Path.stem_append, Path.stem_append, hshort, hlong, hshort, hlong]
  by_cases hbase : base = ""
  · subst hbase
    rw [if_pos rfl, if_neg (Ne.symm hne), eq_comm]
    simp
  · by_cases hbase' : base' = ""
    · simp [hbase, hbase']
    · simp [hbase, hbase', hne]

end Language

/-! ## Paths below a root -/

/-- The name made from a text is shown as that text. -/
theorem FileName.shown_ofString (name : String) : (ofString name).shown = name := by
  have hscan : Utf8.scan name.toUTF8.toList = name.toList.map some :=
    Utf8.scan_eq_map_some_iff.2 (toUTF8_toList name)
  rw [shown, ofString, Utf8.shown, hscan, List.map_map]
  simp [Function.comp_def]

/-- A path below a root ends in the name that was added last. -/
theorem TreePath.endsIn_shown {p : TreePath} {name : String} (hname : p.fileName? = some name)
    (hfile : .ofString name ∈ p.below → Path.IsFileName name) : Path.EndsIn p.shown name := by
  obtain ⟨root, below⟩ := p
  cases below using List.reverseRecOn with
  | nil => exact Path.fileName?_eq_some_iff.1 hname
  | append_singleton names n =>
    obtain rfl := TreePath.fileName?_eq_some_iff.1 hname
    have hshown : (TreePath.mk root (names ++ [.ofString name])).shown =
        join (TreePath.mk root names).shown name := by
      rw [shown, shown, List.foldl_append, List.foldl_cons, List.foldl_nil, FileName.shown_ofString]
    have hfile := hfile (by simp)
    rw [hshown, join]
    split
    · next h =>
      refine .mk (TreePath.mk root names).shown.toList [] (by simp) ?_ hfile .done
      simpa using h
    · refine .mk ((TreePath.mk root names).shown ++ "/").toList [] (by simp) ?_ hfile .done
      exact .inr (by simp)

/-- A name that ends in the extension can be that of a file, unless there is a slash in it. -/
theorem isFileName_append_py {base : String} (h : 0x2F ∉ (FileName.ofString (base ++ ".py")).bytes) :
    Path.IsFileName (base ++ ".py") := by
  have hlength {other : String} (heq : base ++ ".py" = other) : 3 ≤ other.length := by
    rw [← heq, String.length_append]
    exact Nat.le_add_left 3 base.length
  refine ⟨fun hmem => h ?_, fun heq => ?_, fun heq => ?_, fun heq => ?_⟩
  · rw [FileName.ofString, toUTF8_toList]
    exact List.mem_flatMap.2 ⟨'/', hmem, by decide⟩
  all_goals exact absurd (hlength heq) (by decide)

/-- Of the files that a walk lists those are discovered whose names belong to the language. -/
theorem map_path_discover (c : Configuration) (t : FileTree) (root : String) :
    (discover c t root).map (List.map SourceFile.path) =
      ((c.walk t).filesFrom root).map
        (List.filter fun p => p.fileName?.any Language.python.matchesFileName) := by
  have hat (p : TreePath) : (SourceFile.at? c.language p).map SourceFile.path =
      if p.fileName?.any Language.python.matchesFileName then some p else none := by
    cases c.language
    rw [SourceFile.at?]
    cases p.fileName? with
    | none => rfl
    | some name =>
      rw [Option.bind_some, Language.moduleOfFileName?, Option.any_some]
      split <;> rfl
  have hfiles (paths : List TreePath) :
      (paths.filterMap (SourceFile.at? c.language)).map SourceFile.path =
        paths.filter fun p => p.fileName?.any Language.python.matchesFileName := by
    rw [List.map_filterMap, ← List.filterMap_eq_filter]
    exact congrArg (List.filterMap · paths) (funext hat)
  rw [discover]
  cases (c.walk t).filesFrom root with
  | error err => rfl
  | ok paths => exact congrArg _ (hfiles paths)

/-- A discovered file holds the module that its whole path tells, if there is no slash in its name. -/
theorem moduleOfPath?_shown {c : Configuration} {t : FileTree} {root : String} {files : List SourceFile}
    (h : discover c t root = .ok files) {f : SourceFile} (hf : f ∈ files)
    (hslash : ∀ n ∈ f.path.below, 0x2F ∉ n.bytes) :
    Language.python.moduleOfPath? f.path.shown = some f.module := by
  obtain ⟨base, hname, hmodule⟩ := module_of_mem_discover h hf
  have hends : Path.EndsIn f.path.shown (base ++ ".py") :=
    TreePath.endsIn_shown hname fun hmem => isFileName_append_py (hslash _ hmem)
  rw [Language.moduleOfPath?, hends.fileName?_eq, Option.bind_some]
  exact Language.moduleOfFileName?_eq_some_iff.2 ⟨base, rfl, hmodule⟩

/-- Names, modules and paths agree on what holds a module. The test on the bytes of a name has an answer for
every name, and says whether it ends in the extension. The file at a path has a module exactly if it has a
language, which is if the path ends in such a name; the name is that of the module and the extension, unless
it is nothing but the extension. So discovery leaves out no file whose name passes the test, and gives it the
module that its whole path tells. Two names with one module are `.py` and `.py.py`. -/
theorem file_names_agree :
    (∀ name : String,
      Language.hasExtension? name.toUTF8.toList "py".toUTF8.toList =
        some (Language.python.matchesFileName name) ∧
      (Language.python.matchesFileName name = true ↔ ∃ base, name = base ++ ".py")) ∧
    (∀ path : String,
      ((Language.python.moduleOfPath? path).isSome ↔ (Language.ofPath? path).isSome) ∧
      ((Language.ofPath? path).isSome ↔
        ∃ name, Path.EndsIn path name ∧ Language.python.matchesFileName name = true) ∧
      ∀ stem, Language.python.moduleOfPath? path = some stem ↔ ∃ name, Path.EndsIn path name ∧
        (name = ".py" ∧ stem = ".py" ∨ name ≠ ".py" ∧ name = stem ++ ".py")) ∧
    (∀ (c : Configuration) (t : FileTree) (root : String),
      (discover c t root).map (List.map SourceFile.path) =
        ((c.walk t).filesFrom root).map
          (List.filter fun p => p.fileName?.any Language.python.matchesFileName) ∧
      ∀ files, discover c t root = .ok files → ∀ f ∈ files,
        (∀ n ∈ f.path.below, 0x2F ∉ n.bytes) →
          Language.python.moduleOfPath? f.path.shown = some f.module) ∧
    ∀ name other : String, Language.python.matchesFileName name = true →
      Language.python.matchesFileName other = true → name ≠ other →
      (Path.stem name = Path.stem other ↔
        name = ".py" ∧ other = ".py.py" ∨ name = ".py.py" ∧ other = ".py") := by
  refine ⟨fun name => ⟨Language.hasExtension?_toUTF8 name, Language.matchesFileName_iff⟩, fun path => ?_,
    fun c t root => ⟨map_path_discover c t root, fun files h f => moduleOfPath?_shown h⟩,
    fun name other => Language.stem_eq_stem_iff⟩
  refine ⟨?_, ?_, fun stem => Language.moduleOfPath?_eq_some_iff⟩
  · rw [Language.isSome_ofPath?_iff, Language.isSome_moduleOfPath?_iff]
  · simp only [Language.isSome_ofPath?_iff, Language.matchesFileName_iff]

/-- A name of dots before slashes and a dot, a discovered file, and the two names that share a module. -/
theorem dottedNames_agree :
    Path.EndsIn "é/..py//./" "..py" ∧ Language.python.moduleOfPath? "é/..py//./" = some "." ∧
    discover {} (TwoModules.tree TwoModules.textB) "repo" = .ok [TwoModules.fileA, TwoModules.fileB] ∧
    Language.python.moduleOfPath? TwoModules.fileB.path.shown = some "b" ∧
    ".py" ≠ ".py.py" ∧ Path.stem ".py" = Path.stem ".py.py" := by
  have hends : Path.EndsIn "é/..py//./" "..py" := by
    refine .mk "é/".toList "//./".toList (by decide) (.inr (by decide)) ?_ (.slash (.dot (.slash .done)))
    exact ⟨by decide, by decide, by decide, by decide⟩
  obtain ⟨-, hpaths, hdiscover, hnames⟩ := file_names_agree
  have hrepo := TwoModules.discover_repo TwoModules.textB
  have hslash : ∀ n ∈ TwoModules.fileB.path.below, 0x2F ∉ n.bytes := by decide +kernel
  refine ⟨hends, ?_, hrepo, ?_, by decide, ?_⟩
  · exact ((hpaths "é/..py//./").2.2 ".").2 ⟨"..py", hends, .inr ⟨by decide, rfl⟩⟩
  · exact (hdiscover {} _ "repo").2 _ hrepo TwoModules.fileB (by simp) hslash
  · exact (hnames ".py" ".py.py" (by decide +kernel) (by decide +kernel) (by decide)).2 (.inl ⟨rfl, rfl⟩)

end BareCallGraph
