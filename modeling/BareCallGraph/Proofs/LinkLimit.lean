import BareCallGraph.Proofs.Locations

/-!
# Spellings of a path and the limit of links

A path may meet a limited number of links. With more links allowed, a path leads where it led before,
unless it ran into the limit. So two paths to one directory lead to the same for whatever follows, unless
one of them runs into the limit there and the other does not.

Single dots and slashes meet no links. Spellings of a path that differ in nothing else lead to the same
for whatever follows.
-/

namespace BareCallGraph

namespace FileTree

variable {t : FileTree} {here location : Location} {es : List Entry}

/-! ## More links -/

section Take

variable {onLink onLink' : Location → Path → List PathStep → Except FileError Target}

/-- Steps lead to the same where links lead to the same or run into the limit. -/
theorem take_eq_or_tooManyLinks (hlink : ∀ here target steps,
      onLink here target steps = .error .tooManyLinks ∨
        onLink' here target steps = onLink here target steps)
    (here : Location) (steps : List PathStep) :
    t.take onLink here steps = .error .tooManyLinks ∨
      t.take onLink' here steps = t.take onLink here steps := by
  induction steps generalizing here with
  | nil => exact .inr rfl
  | cons step steps ih =>
    cases step with
    | here => exact ih here
    | slash => exact ih here
    | parent => exact ih here.dropLast
    | name n =>
      rw [take, take]
      cases (t.entriesAt here).bind (Entry.find? · n) with
      | none => exact .inr rfl
      | some e =>
        cases e with
        | file m content => exact .inr rfl
        | directory m inner => exact ih (here ++ [n])
        | link m target => exact hlink here target steps

end Take

/-- With more links allowed a path leads to the same, unless it ran out of links. -/
theorem follow_eq_or_tooManyLinks {links more : Nat} (h : links ≤ more) (here : Location)
    (steps : List PathStep) :
    t.follow links here steps = .error .tooManyLinks ∨
      t.follow more here steps = t.follow links here steps := by
  induction links generalizing more here steps with
  | zero =>
    rw [follow]
    cases more with
    | zero => exact .inr rfl
    | succ more =>
      rw [follow]
      exact take_eq_or_tooManyLinks (fun _ _ _ => .inl rfl) here steps
  | succ links ih =>
    obtain ⟨more, rfl⟩ : ∃ k, more = k + 1 := Nat.exists_eq_add_one_of_ne_zero (by omega)
    rw [follow, follow]
    refine take_eq_or_tooManyLinks ?_ here steps
    intro here target steps
    exact ih (Nat.le_of_succ_le_succ h) _ _

/-- Numbers of links with which steps run into the limit alike let them lead to the same. -/
theorem follow_eq_of_tooManyLinks_iff {links links' : Nat} {steps : List PathStep}
    (h : t.follow links here steps = .error .tooManyLinks ↔
      t.follow links' here steps = .error .tooManyLinks) :
    t.follow links here steps = t.follow links' here steps := by
  rcases Nat.le_total links links' with hle | hle
  · rcases follow_eq_or_tooManyLinks hle here steps with hlimit | heq
    · rw [hlimit, h.1 hlimit]
    · exact heq.symm
  · rcases follow_eq_or_tooManyLinks hle here steps with hlimit | heq
    · rw [hlimit, h.2 hlimit]
    · exact heq

/-- Two roots that lead to one directory lead to the same for names that follow, if they run into the
limit alike. -/
theorem resolve_eq_of_tooManyLinks_iff {root root' : String} {es' : List Entry}
    (h : t.resolve (TreePath.mk root []).toPath = .ok (.directory location es))
    (h' : t.resolve (TreePath.mk root' []).toPath = .ok (.directory location es'))
    {names : List FileName}
    (hlimit : t.resolve (TreePath.mk root names).toPath = .error .tooManyLinks ↔
      t.resolve (TreePath.mk root' names).toPath = .error .tooManyLinks) :
    t.resolve (TreePath.mk root' names).toPath = t.resolve (TreePath.mk root names).toPath := by
  rw [TreePath.toPath_root] at h h'
  obtain ⟨left, hleft⟩ := resolve_append h
  obtain ⟨left', hleft'⟩ := resolve_append h'
  have hroot : t.resolve (TreePath.mk root names).toPath =
      t.follow left location (names.map .name) := hleft _
  have hroot' : t.resolve (TreePath.mk root' names).toPath =
      t.follow left' location (names.map .name) := hleft' _
  rw [hroot, hroot'] at hlimit ⊢
  exact (follow_eq_of_tooManyLinks_iff hlimit).symm

end FileTree

/-! ## Dots and slashes -/

/-- Whether a step leads away from where it is taken. -/
def PathStep.moves : PathStep → Bool
  | here => false
  | slash => false
  | parent => true
  | name _ => true

namespace FileTree

variable {t : FileTree} {more : List PathStep}

/-- Only steps that move matter for what follows, if links see no difference. -/
theorem take_moving {onLink : Location → Path → List PathStep → Except FileError Target}
    (hmore : more ≠ []) (hlink : ∀ here target steps,
      onLink here target (steps ++ more) = onLink here target (steps.filter (·.moves) ++ more))
    (here : Location) (steps : List PathStep) :
    t.take onLink here (steps ++ more) = t.take onLink here (steps.filter (·.moves) ++ more) := by
  induction steps generalizing here with
  | nil => rfl
  | cons step steps ih =>
    cases step with
    | here => exact ih here
    | slash => exact ih here
    | parent => exact ih here.dropLast
    | name n =>
      rw [List.cons_append, take, List.filter_cons_of_pos rfl, List.cons_append, take]
      cases (t.entriesAt here).bind (Entry.find? · n) with
      | none => rfl
      | some e =>
        cases e with
        | file m content => simp [hmore]
        | directory m inner => exact ih (here ++ [n])
        | link m target => exact hlink here target steps

/-- Steps that do not move make no difference before others. By induction on the number of links. -/
theorem follow_moving (hmore : more ≠ []) (links : Nat) (here : Location) (steps : List PathStep) :
    t.follow links here (steps ++ more) = t.follow links here (steps.filter (·.moves) ++ more) := by
  induction links generalizing here steps with
  | zero =>
    rw [follow, follow]
    exact take_moving hmore (fun _ _ _ => rfl) here steps
  | succ links ih =>
    rw [follow, follow]
    refine take_moving hmore ?_ here steps
    intro here target steps
    rw [← List.append_assoc, ih, ← List.append_assoc, ih _ (target.steps ++ steps.filter (·.moves))]
    simp only [List.filter_append, List.filter_filter, Bool.and_self]

/-- Steps lead to what they lead to with a dot behind them, if links do. -/
theorem take_of_dot {onLink : Location → Path → List PathStep → Except FileError Target}
    {target : Target} (hlink : ∀ here path steps, onLink here path (steps ++ [.here]) = .ok target →
      onLink here path steps = .ok target)
    {here : Location} {steps : List PathStep}
    (h : t.take onLink here (steps ++ [.here]) = .ok target) :
    t.take onLink here steps = .ok target := by
  induction steps generalizing here with
  | nil => exact h
  | cons step steps ih =>
    cases step with
    | here => exact ih h
    | slash => exact ih h
    | parent => exact ih h
    | name n =>
      rw [List.cons_append, take] at h
      rw [take]
      cases hfind : (t.entriesAt here).bind (Entry.find? · n) with
      | none =>
        rw [hfind] at h
        contradiction
      | some e =>
        rw [hfind] at h
        cases e with
        | file m content => simp at h
        | directory m inner => exact ih h
        | link m path => exact hlink here path steps h

/-- What a path with a dot behind it leads to, the path leads to. -/
theorem follow_of_dot {links : Nat} {here : Location} {steps : List PathStep} {target : Target}
    (h : t.follow links here (steps ++ [.here]) = .ok target) :
    t.follow links here steps = .ok target := by
  induction links generalizing here steps with
  | zero =>
    rw [follow] at h ⊢
    refine take_of_dot ?_ h
    intro _ _ _ hlink
    contradiction
  | succ links ih =>
    rw [follow] at h ⊢
    refine take_of_dot ?_ h
    intro here path steps hlink
    rw [← List.append_assoc] at hlink
    exact ih hlink

end FileTree

namespace Path

/-- Two texts are spellings of one path: they start alike, and the steps that move are the same. -/
structure SameButForDots (text text' : String) : Prop where
  absolute : (ofString text').absolute = (ofString text).absolute
  moving : (ofString text').steps.filter (·.moves) = (ofString text).steps.filter (·.moves)

/-- All pieces of a text move but the dot. -/
theorem stepOf_moves (piece : String) : (stepOf piece).moves = (piece != ".") := by
  rw [stepOf]
  split
  · next h => simp [h, PathStep.moves]
  · split <;> simp_all [PathStep.moves]

/-- The steps of a text that move are its pieces without empty ones and single dots. -/
theorem filter_moves_ofString (text : String) :
    (ofString text).steps.filter (·.moves) =
      ((pieces text).filter fun piece => !piece.isEmpty && piece != ".").map stepOf := by
  have hlast (steps : List PathStep) : (if steps ≠ [] ∧ text.toList.getLast? = some '/' then
      [PathStep.slash] else []).filter (·.moves) = [] := by
    split <;> rfl
  simp only [ofString, List.filter_append, hlast, List.append_nil, List.filter_map, List.filter_filter,
    Function.comp_def, stepOf_moves, Bool.and_comm]

/-- The pieces of a text are those before a slash and those behind it. -/
theorem pieces_append (before after : String) :
    pieces (before ++ "/" ++ after) = pieces before ++ pieces after := by
  have hlists : (before ++ "/" ++ after).toList = before.toList ++ '/' :: after.toList := by simp
  rw [pieces, hlists, List.splitOn_append_cons_self, List.map_append, pieces, pieces]

/-- Texts with the same pieces, empty ones and dots apart, are spellings of one path. -/
theorem sameButForDots_of_pieces {text text' : String}
    (habsolute : (ofString text').absolute = (ofString text).absolute)
    (hpieces : (pieces text').filter (fun piece => !piece.isEmpty && piece != ".") =
      (pieces text).filter fun piece => !piece.isEmpty && piece != ".") :
    SameButForDots text text' where
  absolute := habsolute
  moving := by rw [filter_moves_ofString, filter_moves_ofString, hpieces]

/-- A dot and a slash in front of a path that starts where one stands. -/
theorem sameButForDots_dotSlash {text : String} (h : text.toList.head? ≠ some '/') :
    SameButForDots text ("./" ++ text) := by
  refine sameButForDots_of_pieces ?_ ?_
  · simp [ofString, h]
  · have hpieces : pieces ("./" ++ text) = ["."] ++ pieces text := pieces_append "." text
    rw [hpieces]
    rfl

/-- A slash behind a path, and nothing or a dot behind the slash. -/
theorem sameButForDots_slash {text : String} (h : text ≠ "") (dot : String)
    (hdot : (pieces dot).filter (fun piece => !piece.isEmpty && piece != ".") = []) :
    SameButForDots text (text ++ "/" ++ dot) := by
  refine sameButForDots_of_pieces ?_ ?_
  · obtain ⟨c, cs, hcs⟩ := List.exists_cons_of_ne_nil (l := text.toList) (by simpa using h)
    simp [ofString, hcs]
  · rw [pieces_append, List.filter_append, hdot, List.append_nil]

/-- Only the empty text is the empty path. -/
theorem isEmpty_ofString {text : String} (h : text ≠ "") : (ofString text).isEmpty = false := by
  obtain ⟨c, cs, hcs⟩ := List.exists_cons_of_ne_nil (l := text.toList) (by simpa using h)
  by_cases hc : c = '/'
  · simp [isEmpty, ofString, hcs, hc]
  · obtain ⟨first, rest, hsplit⟩ : ∃ first rest, (c :: cs).splitOn '/' = (c :: first) :: rest := by
      rw [List.splitOn, List.splitOnP_cons_eq_if_modifyHead, if_neg (by simpa using hc)]
      obtain ⟨first, rest, hrest⟩ :=
        List.exists_cons_of_ne_nil (List.splitOnP_ne_nil (· == '/') cs)
      exact ⟨first, rest, by rw [hrest]; rfl⟩
    simp [isEmpty, ofString, pieces, hcs, hsplit]

end Path

namespace FileTree

variable {t : FileTree} {root root' : String}

/-- A path that leads anywhere is not empty. -/
theorem ne_empty_of_resolve {target : Target} (h : t.resolve (.ofString root) = .ok target) :
    root ≠ "" := by
  rintro rfl
  contradiction

/-- Spellings of a root lead to the same for names that follow. -/
theorem resolve_eq_of_sameButForDots (h : Path.SameButForDots root root') {names : List FileName}
    (hnames : names ≠ []) :
    t.resolve (TreePath.mk root' names).toPath = t.resolve (TreePath.mk root names).toPath := by
  have hmore : names.map PathStep.name ≠ [] := by simpa using hnames
  have hresolve (text : String) : t.resolve (TreePath.mk text names).toPath =
      t.follow linkLimit (startOf (.ofString text) t.workingDirectory)
        ((Path.ofString text).steps.filter (·.moves) ++ names.map .name) := by
    have hempty : ¬ Path.isEmpty (TreePath.mk text names).toPath = true := by
      simp [Path.isEmpty, TreePath.toPath, hnames]
    rw [resolve, if_neg hempty, ← follow_moving hmore]
    rfl
  rw [hresolve, hresolve, h.moving, startOf, startOf, h.absolute]

/-- Spellings of a root lead to the same directory. -/
theorem resolve_of_sameButForDots (h : Path.SameButForDots root root') (hroot' : root' ≠ "")
    {location : Location} {es : List Entry}
    (hroot : t.resolve (.ofString root) = .ok (.directory location es)) :
    t.resolve (.ofString root') = .ok (.directory location es) := by
  have hes := entriesAt_of_resolve hroot
  have hempty : ¬ (Path.ofString root').isEmpty = true := by simp [Path.isEmpty_ofString hroot']
  rw [resolve] at hroot
  split at hroot
  · contradiction
  obtain ⟨left, hleft⟩ := follow_append hroot
  have hdot : t.follow left location [.here] = .ok (.directory location es) := by
    cases left <;> rw [follow, take, take, hes]
  rw [resolve, if_neg hempty]
  refine follow_of_dot ?_
  rw [follow_moving (by simp), h.moving, ← follow_moving (by simp), startOf, h.absolute, ← startOf,
    hleft, hdot]

end FileTree

end BareCallGraph
