import BareCallGraph.Proofs.Definitions
import BareCallGraph.Proofs.Passes
import BareCallGraph.Proofs.Preorder
import Mathlib.Data.List.Flatten

/-!
# Comments and line continuations

Comments and line continuations may stand between any two tokens. The outline of a tree is what is left
without them: the nodes, the parts they play, and the texts of names and keywords. Two trees of the same
outline define the same functions, and call the same names in the same order, unless parentheses open
with a line continuation: such a call is hidden, and lost.
-/

namespace BareCallGraph

/-- The kinds of node that may stand between any two tokens. -/
def Kind.isExtra : Kind → Bool
  | .comment | .lineContinuation => true
  | _ => false

namespace SyntaxTree

/-- Whether the text of a node tells it from others of its kind: a name, a keyword or operator, or whatever
stands for the name of a definition. -/
def isTelling (kind : Kind) (role : Option Role) : Bool :=
  kind == .name || kind == .token || role == some .name

mutual
/-- A tree without comments and line continuations, places, and texts that do not tell. -/
def outline : SyntaxTree → SyntaxTree
  | node kind role _ text children =>
    node kind role .start (if isTelling kind role then text else "") (outlineAll children)

/-- Trees without comments and line continuations, places, and texts that do not tell. -/
def outlineAll : List SyntaxTree → List SyntaxTree
  | [] => []
  | t :: ts => if t.kind.isExtra then outlineAll ts else t.outline :: outlineAll ts
end

/-- The comments and line continuations among the children of a node have no children, play no part, and
do not come first in a definition. -/
def SeparatesExtras (u : SyntaxTree) : Prop :=
  (∀ c ∈ u.children, c.kind.isExtra = true → c.children = [] ∧ c.role = none) ∧
    (u.kind = .functionDefinition → ∀ c ∈ u.children.head?, c.kind.isExtra = false)

instance : DecidablePred SeparatesExtras := fun _ => inferInstanceAs (Decidable (_ ∧ _))

/-- All nodes of a tree keep their comments and line continuations apart. -/
def ExtrasApart (t : SyntaxTree) : Prop := ∀ u : SyntaxTree, u.Within t → u.SeparatesExtras

/-- The outline of a node is of the same kind. -/
@[simp]
theorem kind_outline (t : SyntaxTree) : t.outline.kind = t.kind := by
  cases t
  rfl

/-- The outline of a node plays the same part. -/
@[simp]
theorem role_outline (t : SyntaxTree) : t.outline.role = t.role := by
  cases t
  rfl

/-- A text that tells stays in the outline. -/
theorem text_outline {t : SyntaxTree} (h : isTelling t.kind t.role = true) : t.outline.text = t.text := by
  cases t
  exact if_pos h

/-- The outline leaves the extras out and takes the outlines of the others. -/
theorem outlineAll_eq (ts : List SyntaxTree) :
    outlineAll ts = (ts.filter fun c => !c.kind.isExtra).map outline := by
  induction ts with
  | nil => rfl
  | cons t ts ih =>
    rw [outlineAll, ih]
    cases h : t.kind.isExtra <;> simp [h]

/-- The children of an outline are the outlines of the children that are no extras. -/
theorem children_outline (t : SyntaxTree) : t.outline.children = outlineAll t.children := by
  cases t
  rfl

/-- No child of an outline is an extra. -/
theorem isExtra_of_mem_children_outline {t d : SyntaxTree} (h : d ∈ t.outline.children) :
    d.kind.isExtra = false := by
  rw [children_outline, outlineAll_eq] at h
  obtain ⟨c, hc, rfl⟩ := List.mem_map.1 h
  simpa using (List.mem_filter.1 hc).2

/-- What no outline of an extra gives is the same without the extras. -/
theorem filterMap_outlines {β : Type} {f : SyntaxTree → Option β} {us : List SyntaxTree}
    (hf : ∀ u ∈ us, u.kind.isExtra = true → f u.outline = none) :
    ((us.filter fun c => !c.kind.isExtra).map outline).filterMap f =
      us.filterMap fun u => f u.outline := by
  rw [List.filterMap_map, List.filterMap_filter]
  refine List.filterMap_congr fun u hu => ?_
  cases hextra : u.kind.isExtra with
  | true => simp [hf u hu hextra]
  | false => simp

/-- What is searched for by a test that no extra passes is found in the outline too. -/
theorem find?_outlineAll {ts : List SyntaxTree} {p : SyntaxTree → Bool} (hp : ∀ c, p c.outline = p c)
    (hextra : ∀ c ∈ ts, c.kind.isExtra = true → p c = false) :
    (outlineAll ts).find? p = (ts.find? p).map outline := by
  induction ts with
  | nil => rfl
  | cons t ts ih =>
    have hlater := ih fun c hc => hextra c (.tail _ hc)
    rw [outlineAll]
    cases h : t.kind.isExtra with
    | true =>
      rw [if_pos rfl, hlater, List.find?_cons, hextra t (.head _) h]
    | false =>
      rw [if_neg Bool.false_ne_true, List.find?_cons, List.find?_cons, hp, hlater]
      cases p t <;> rfl

/-! ## Definitions -/

variable {t u s : SyntaxTree}

/-- An extra plays no part, so the first child with a role is the same in the outline. -/
theorem child?_outline (h : u.SeparatesExtras) (r : Role) :
    u.outline.child? r = (u.child? r).map outline := by
  rw [child?, children_outline, find?_outlineAll, child?]
  · intro c
    rw [role_outline]
  · intro c hc hextra
    rw [(h.1 c hc hextra).2]
    rfl

/-- The first child of a definition is no extra, so it is the first in the outline. -/
theorem isAsync_outline (h : u.SeparatesExtras) (hu : u.kind = .functionDefinition) :
    u.outline.isAsync = u.isAsync := by
  have hfirst := h.2 hu
  rw [isAsync, children_outline, isAsync]
  cases hchildren : u.children with
  | nil => rfl
  | cons c cs =>
    have hextra : c.kind.isExtra = false := hfirst c (by rw [hchildren]; rfl)
    rw [outlineAll, hextra, if_neg Bool.false_ne_true]
    by_cases hk : c.kind = .token
    · have htext : c.outline.text = c.text := text_outline (by simp [isTelling, hk])
      simp [hk, htext]
    · have hother : (c.kind == .token) = false := beq_false_of_ne hk
      simp [hother]

/-- A decorated definition has the same definition in it in the outline. -/
theorem definition?_outline (h : s.SeparatesExtras) : s.outline.definition? = s.definition?.map outline := by
  rw [definition?, definition?, kind_outline]
  split
  · rfl
  · rw [child?_outline h]
    cases s.child? .definition with
    | none => rfl
    | some d => by_cases hd : d.kind = .functionDefinition <;> simp [Option.filter, hd]
  · rfl

end SyntaxTree

/-- A function with the outline of its scope. -/
def TopLevelFunction.outline (f : TopLevelFunction) : TopLevelFunction := ⟨f.name, f.scope.outline⟩

namespace SyntaxTree

variable {t u s : SyntaxTree}

/-- What is within a tree with its extras apart has its extras apart. -/
theorem ExtrasApart.within (h : t.ExtrasApart) (hu : u.Within t) : u.ExtrasApart :=
  fun _ hv => h _ (hv.trans hu)

/-- So has each child. -/
theorem ExtrasApart.child (h : t.ExtrasApart) (hu : u ∈ t.children) : u.ExtrasApart :=
  h.within (.inChild hu .whole)

/-- The outline of a statement defines the same function as the statement. -/
theorem plainFunction?_outline (h : s.ExtrasApart) :
    s.outline.plainFunction? = s.plainFunction?.map TopLevelFunction.outline := by
  rw [plainFunction?, plainFunction?, definition?_outline (h s .whole)]
  cases hd : s.definition? with
  | none => rfl
  | some d =>
    have hextras := h d (within_of_definition? hd)
    have hasync := isAsync_outline hextras (kind_of_definition? hd)
    simp only [Option.map_some, bind, Option.bind_some, hasync, child?_outline hextras]
    split
    · rfl
    · cases hname : d.child? .name with
      | none => rfl
      | some n =>
        have hrole : n.role = some .name := by simpa using List.find?_some hname
        have htext : n.outline.text = n.text := text_outline (by simp [isTelling, hrole])
        simp [htext, TopLevelFunction.outline]

/-- An extra defines no function. -/
theorem plainFunction?_of_isExtra (h : s.kind.isExtra = true) : s.plainFunction? = none := by
  have hd : s.definition? = none := by
    unfold definition?
    split <;> simp_all [Kind.isExtra]
  rw [plainFunction?, hd]
  rfl

/-- The outline of a module defines the same functions as the module. -/
theorem topLevelFunctions_outline (h : t.ExtrasApart) :
    t.outline.topLevelFunctions = t.topLevelFunctions.map TopLevelFunction.outline := by
  rw [topLevelFunctions, children_outline, outlineAll_eq, filterMap_outlines, topLevelFunctions,
    List.map_filterMap]
  · exact List.filterMap_congr fun c hc => plainFunction?_outline (h.child hc)
  · exact fun c _ hextra => plainFunction?_of_isExtra (by rwa [kind_outline])

/-! ## Calls -/

/-- What the parentheses of an outline are around is the outline of what they are around in the tree. -/
theorem encloses_outline {d : SyntaxTree} :
    t.outline.Encloses d ↔ ∃ c, t.Encloses c ∧ c.outline = d := by
  have hfind : t.outline.children.find? (fun d => !d.kind.isFiller) =
      (t.children.find? fun d => !d.kind.isFiller).map outline := by
    rw [children_outline]
    refine find?_outlineAll (fun c => by rw [kind_outline]) fun c _ hextra => ?_
    cases hk : c.kind <;> simp_all [Kind.isExtra, Kind.isFiller]
  simp only [encloses_iff_find?, kind_outline, hfind, Option.map_eq_some_iff]
  grind

/-- Parentheses are around the same name in the outline. -/
theorem wraps_outline {b : String} : t.outline.Wraps b ↔ t.Wraps b := by
  constructor
  · intro h
    generalize ho : t.outline = o at h
    induction h generalizing t with
    | name kind =>
      subst ho
      rw [kind_outline] at kind
      rw [text_outline (by simp [isTelling, kind])]
      exact .name kind
    | layer content _ ih =>
      subst ho
      obtain ⟨c, hc, hcontent⟩ := encloses_outline.1 content
      exact .layer hc (ih hcontent)
  · intro h
    induction h with
    | @name t kind =>
      rw [← text_outline (by simp [isTelling, kind])]
      exact .name (by rw [kind_outline, kind])
    | layer content _ ih => exact .layer (encloses_outline.2 ⟨_, content, rfl⟩) ih

/-- No parentheses open with a line continuation in an outline. -/
theorem not_continued_outline : ¬ t.outline.Continued := by
  intro h
  generalize ho : t.outline = o at h
  induction h generalizing t with
  | outermost opens =>
    subst ho
    obtain ⟨-, before, d, after, hs, hd, -⟩ := opens
    have hextra := isExtra_of_mem_children_outline (t := t) (d := d) (by simp [hs])
    rw [hd] at hextra
    contradiction
  | layer content _ ih =>
    subst ho
    obtain ⟨c, -, hcontent⟩ := encloses_outline.1 content
    exact ih hcontent

/-- In the outline every call is seen, under the name that it calls. -/
theorem calledName?_outline (h : u.SeparatesExtras) {b : String} :
    u.outline.calledName? = some b ↔ u.Calls b := by
  have hhidden : ¬ u.outline.Hidden := by
    rintro ⟨callee, hcallee, hcontinued⟩
    rw [child?_outline h] at hcallee
    obtain ⟨c, -, rfl⟩ := Option.map_eq_some_iff.1 hcallee
    exact not_continued_outline hcontinued
  rw [calledName?_eq_some_iff, and_iff_left hhidden]
  simp only [Calls, kind_outline, child?_outline h, Option.map_eq_some_iff]
  refine and_congr_right fun _ => ?_
  constructor
  · rintro ⟨_, ⟨callee, hcallee, rfl⟩, hwraps⟩
    exact ⟨callee, hcallee, wraps_outline.1 hwraps⟩
  · rintro ⟨callee, hcallee, hwraps⟩
    exact ⟨_, ⟨callee, hcallee, rfl⟩, wraps_outline.2 hwraps⟩

/-- An extra calls nothing. -/
theorem calledName?_of_isExtra (h : u.kind.isExtra = true) : u.outline.calledName? = none := by
  refine if_neg fun hk => ?_
  rw [kind_outline] at hk
  rw [hk] at h
  contradiction

/-- The nodes of the outline are the outlines of all nodes but the extras. -/
theorem preorder_outline (h : t.ExtrasApart) :
    t.outline.preorder =
      t.outline :: ((t.children.flatMap preorder).filter fun c => !c.kind.isExtra).map outline := by
  induction t using childInduction with
  | step t ih =>
    have hall (ts : List SyntaxTree) (hts : ∀ c ∈ ts, c ∈ t.children) :
        (outlineAll ts).flatMap preorder =
          ((ts.flatMap preorder).filter fun c => !c.kind.isExtra).map outline := by
      induction ts with
      | nil => rfl
      | cons c ts ihts =>
        have hc := hts c (.head _)
        have hlater := ihts fun d hd => hts d (.tail _ hd)
        rw [outlineAll, List.flatMap_cons, List.filter_append, List.map_append, ← hlater, preorder_eq c]
        cases hextra : c.kind.isExtra with
        | true =>
          -- an extra has no children, so nothing of it is left
          have hleaf := ((h t .whole).1 c hc hextra).1
          simp [hleaf, hextra]
        | false =>
          rw [if_neg Bool.false_ne_true, List.flatMap_cons, ih c hc (h.child hc)]
          simp [hextra]
    rw [preorder_eq t.outline, children_outline, hall t.children fun _ hc => hc]

/-- The calls of the outline are those that the outlines of the nodes make. -/
theorem bareCalls_outline (h : t.ExtrasApart) :
    t.outline.bareCalls = t.preorder.filterMap fun u => u.outline.calledName? := by
  rw [bareCalls_eq_filterMap, preorder_outline h, preorder_eq t, List.filterMap_cons,
    List.filterMap_cons, filterMap_outlines fun u _ hextra => calledName?_of_isExtra hextra]

/-- A hidden call calls nothing, and any other node calls what it does in the outline. -/
theorem calledName?_eq_none_or (h : u.SeparatesExtras) :
    u.calledName? = none ∨ u.calledName? = u.outline.calledName? := by
  cases hcalled : u.calledName? with
  | none => exact .inl rfl
  | some b => exact .inr ((calledName?_outline h).2 (calledName?_eq_some_iff.1 hcalled).1).symm

/-- A node calls the same as its outline exactly if it is no hidden call. -/
theorem calledName?_eq_outline_iff (h : u.SeparatesExtras) :
    u.calledName? = u.outline.calledName? ↔ ∀ b, u.Calls b → ¬ u.Hidden := by
  constructor
  · intro heq b hb
    have hcalled := (calledName?_outline h).2 hb
    rw [← heq] at hcalled
    exact (calledName?_eq_some_iff.1 hcalled).2
  · intro hseen
    refine Option.ext fun b => ?_
    rw [calledName?_eq_some_iff, calledName?_outline h]
    exact and_iff_left_of_imp (hseen b)

end SyntaxTree

/-! ## What is lost -/

/-- Parts of several lists make up all of them only if each part is the whole list. -/
theorem flatMap_eq_flatMap_iff {α β : Type} {xs : List α} {f g : α → List β}
    (h : ∀ x ∈ xs, (f x).Sublist (g x)) : xs.flatMap f = xs.flatMap g ↔ ∀ x ∈ xs, f x = g x := by
  refine ⟨fun heq => ?_, fun heq => List.flatMap_congr heq⟩
  induction xs with
  | nil => simp
  | cons x xs ih =>
    rw [List.flatMap_cons, List.flatMap_cons] at heq
    have hhead := h x (.head _)
    have hlater : ∀ y ∈ xs, (f y).Sublist (g y) := fun y hy => h y (.tail _ hy)
    have hrest := (List.Sublist.flatMap_right xs hlater).length_le
    have hlength := congrArg List.length heq
    rw [List.length_append, List.length_append] at hlength
    have hx : f x = g x := hhead.eq_of_length (by have := hhead.length_le; omega)
    rw [hx] at heq
    exact List.forall_mem_cons.2 ⟨hx, ih hlater (List.append_cancel_left heq)⟩

namespace SyntaxTree

variable {s : SyntaxTree}

/-- Some call within a tree is hidden. -/
def HidesCalls (t : SyntaxTree) : Prop :=
  ∃ (u : SyntaxTree) (b : String), u.Within t ∧ u.Calls b ∧ u.Hidden

/-- A node makes no call that its outline does not make. -/
theorem toList_calledName?_sublist {u : SyntaxTree} (h : u.SeparatesExtras) :
    u.calledName?.toList.Sublist u.outline.calledName?.toList := by
  rcases calledName?_eq_none_or h with hnone | hsame
  · rw [hnone]
    exact List.nil_sublist _
  · rw [hsame]

/-- The calls in a tree are some of those in its outline. -/
theorem bareCalls_sublist_outline (h : s.ExtrasApart) : s.bareCalls.Sublist s.outline.bareCalls := by
  rw [bareCalls_outline h, bareCalls_eq_filterMap, List.filterMap_eq_flatMap_toList,
    List.filterMap_eq_flatMap_toList]
  exact .flatMap_right _ fun u hu => toList_calledName?_sublist (h u (mem_preorder.1 hu))

/-- They are all of them exactly if no call in the tree is hidden. -/
theorem bareCalls_eq_outline_iff (h : s.ExtrasApart) :
    s.bareCalls = s.outline.bareCalls ↔ ¬ s.HidesCalls := by
  have hnodes (u : SyntaxTree) (hu : u ∈ s.preorder) : u.SeparatesExtras := h u (mem_preorder.1 hu)
  rw [bareCalls_outline h, bareCalls_eq_filterMap, List.filterMap_eq_flatMap_toList,
    List.filterMap_eq_flatMap_toList,
    flatMap_eq_flatMap_iff fun u hu => toList_calledName?_sublist (hnodes u hu)]
  constructor
  · rintro hall ⟨u, b, hu, hb, hhidden⟩
    have hmem := mem_preorder.2 hu
    have hsame : u.calledName? = u.outline.calledName? := by
      have hlists := congrArg List.head? (hall u hmem)
      simpa using hlists
    exact (calledName?_eq_outline_iff (hnodes u hmem)).1 hsame b hb hhidden
  · intro hno u hu
    rw [(calledName?_eq_outline_iff (hnodes u hu)).2]
    exact fun b hb hhidden => hno ⟨u, b, mem_preorder.1 hu, hb, hhidden⟩

/-- Without line continuations no call is hidden. -/
theorem not_hidesCalls {t : SyntaxTree} (h : ∀ u : SyntaxTree, u.Within t → u.kind ≠ .lineContinuation) :
    ¬ t.HidesCalls := by
  have hcontinued {u : SyntaxTree} (hu : u.Continued) : ¬ u.Within t := by
    induction hu with
    | @outermost u opens =>
      intro hwithin
      obtain ⟨-, before, d, after, hs, hd, -⟩ := opens
      exact h d (Within.trans (.inChild (by simp [hs]) .whole) hwithin) hd
    | layer content _ ih =>
      intro hwithin
      obtain ⟨-, before, after, hs, -⟩ := content
      exact ih (Within.trans (.inChild (by simp [hs]) .whole) hwithin)
  rintro ⟨u, b, hu, -, callee, hcallee, hhidden⟩
  exact hcontinued hhidden (Within.trans (.inChild (List.mem_of_find?_eq_some hcallee) .whole) hu)

end SyntaxTree

namespace NameTable

/-- The table in which each of the given names stands for itself. -/
def ofNames (names : List String) : NameTable := empty.insertAll (names.map fun b => (b, b))

/-- The names of such a table are found there, each under itself. -/
theorem resolve?_ofNames (names : List String) : ∀ b ∈ names, (ofNames names).resolve? b = some b := by
  intro b hb
  have hbound : ∃ p ∈ names.map fun b => (b, b), p.1 = b := ⟨(b, b), List.mem_map.2 ⟨b, hb, rfl⟩, rfl⟩
  obtain ⟨before, p, after, hsplit, rfl, hafter⟩ := exists_last hbound
  have hp : p ∈ names.map fun b => (b, b) := by simp [hsplit]
  obtain ⟨b, -, rfl⟩ := List.mem_map.1 hp
  exact resolve?_insertAll.2 (.inl ⟨before, after, hsplit, hafter⟩)

end NameTable

namespace ParsedModule

variable {m : ParsedModule}

/-- A module with the outline of its tree. -/
def outline (m : ParsedModule) : ParsedModule := ⟨m.name, m.tree.outline⟩

/-- The edges of the outline go out from the same functions, with the calls in their outlines. -/
theorem edges_outline (h : m.tree.ExtrasApart) (table : NameTable) :
    m.outline.edges table = m.tree.topLevelFunctions.flatMap fun f => m.edgesOf table f.outline := by
  rw [edges, outline, SyntaxTree.topLevelFunctions_outline h, List.flatMap_map]
  rfl

/-- The scope of a function has its extras apart if the tree of the module has. -/
theorem extrasApart_scope (h : m.tree.ExtrasApart) {f : TopLevelFunction}
    (hf : f ∈ m.tree.topLevelFunctions) : f.scope.ExtrasApart :=
  h.child (SyntaxTree.mem_topLevelFunctions.1 hf).1

/-- A function has no edge that it does not have in the outline. -/
theorem edgesOf_sublist_outline (h : m.tree.ExtrasApart) (table : NameTable) {f : TopLevelFunction}
    (hf : f ∈ m.tree.topLevelFunctions) :
    (m.edgesOf table f).Sublist (m.edgesOf table f.outline) :=
  ((SyntaxTree.bareCalls_sublist_outline (extrasApart_scope h hf)).filterMap _).map _

/-- The edges are those of the outline under every table exactly if no function hides a call. -/
theorem edges_eq_outline_iff (h : m.tree.ExtrasApart) :
    (∀ table, m.edges table = m.outline.edges table) ↔
      ∀ f ∈ m.tree.topLevelFunctions, ¬ f.scope.HidesCalls := by
  constructor
  · intro hall f hf
    -- a table that binds every name called in the outlines loses none of them
    have hresolve := NameTable.resolve?_ofNames
      (m.tree.topLevelFunctions.flatMap fun f => f.scope.outline.bareCalls)
    generalize NameTable.ofNames _ = table at hresolve
    have hsame := hall table
    rw [edges_outline h, edges,
      flatMap_eq_flatMap_iff fun f hf => edgesOf_sublist_outline h table hf] at hsame
    have hextras := extrasApart_scope h hf
    have hkept {bs : List String} (hbs : ∀ b ∈ bs, b ∈ f.scope.outline.bareCalls) :
        bs.filterMap table.resolve? = bs := by
      rw [List.filterMap_congr fun b hb =>
        hresolve b (List.mem_flatMap.2 ⟨f, hf, hbs b hb⟩), List.filterMap_some]
    have hsublist := SyntaxTree.bareCalls_sublist_outline hextras
    have hlength := congrArg List.length (hsame f hf)
    rw [edgesOf, edgesOf, TopLevelFunction.outline, hkept fun b hb => hsublist.subset hb,
      hkept fun b hb => hb, List.length_map, List.length_map] at hlength
    exact (SyntaxTree.bareCalls_eq_outline_iff hextras).1 (hsublist.eq_of_length hlength)
  · intro hno table
    rw [edges_outline h, edges]
    refine List.flatMap_congr fun f hf => ?_
    rw [edgesOf, edgesOf, TopLevelFunction.outline,
      (SyntaxTree.bareCalls_eq_outline_iff (extrasApart_scope h hf)).2 (hno f hf)]

end ParsedModule

/-- Two trees of one outline define the same functions in the same order, with scopes of one outline. What
is called in scopes of one outline is the same, and so are the edges under every table, as long as neither
side hides calls. If one side hides none, this is the exact condition on the other. Only a line continuation
can hide a call. -/
theorem extras_matter_only_by_hiding (t t' : SyntaxTree) (ht : t.ExtrasApart) (ht' : t'.ExtrasApart)
    (h : t.outline = t'.outline) :
    (t.topLevelFunctions.map (·.name) = t'.topLevelFunctions.map (·.name) ∧
      t.topLevelFunctions.map (·.scope.outline) = t'.topLevelFunctions.map (·.scope.outline)) ∧
    (∀ s s' : SyntaxTree, s.Within t → s'.Within t' → s.outline = s'.outline → ¬ s.HidesCalls →
      (s'.bareCalls = s.bareCalls ↔ ¬ s'.HidesCalls)) ∧
    (∀ name, (∀ f ∈ t.topLevelFunctions, ¬ f.scope.HidesCalls) →
      ((∀ table, (ParsedModule.mk name t').edges table = (ParsedModule.mk name t).edges table) ↔
        ∀ f ∈ t'.topLevelFunctions, ¬ f.scope.HidesCalls)) ∧
    ((∀ u : SyntaxTree, u.Within t → u.kind ≠ .lineContinuation) →
      ∀ s : SyntaxTree, s.Within t → ¬ s.HidesCalls) := by
  have hfunctions : t.topLevelFunctions.map TopLevelFunction.outline =
      t'.topLevelFunctions.map TopLevelFunction.outline := by
    rw [← SyntaxTree.topLevelFunctions_outline ht, h, SyntaxTree.topLevelFunctions_outline ht']
  refine ⟨⟨?_, ?_⟩, ?_, ?_, ?_⟩
  · have hnames := congrArg (List.map TopLevelFunction.name) hfunctions
    rwa [List.map_map, List.map_map] at hnames
  · have hscopes := congrArg (List.map TopLevelFunction.scope) hfunctions
    rwa [List.map_map, List.map_map] at hscopes
  · intro s s' hs hs' houtline hseen
    rw [(SyntaxTree.bareCalls_eq_outline_iff (ht.within hs)).2 hseen, houtline]
    exact SyntaxTree.bareCalls_eq_outline_iff (ht'.within hs')
  · intro name hseen
    have hedges := (ParsedModule.edges_eq_outline_iff (m := ⟨name, t⟩) ht).2 hseen
    have houtline : (ParsedModule.mk name t).outline = (ParsedModule.mk name t').outline := by
      rw [ParsedModule.outline, h, ParsedModule.outline]
    simp only [hedges, houtline]
    exact ParsedModule.edges_eq_outline_iff (m := ⟨name, t'⟩) ht'
  · intro hplain s hs
    exact SyntaxTree.not_hidesCalls fun u hu => hplain u (hu.trans hs)

namespace ParenthesizedCall

open TwoModules (leaf callOf functionOf)

/-- A function `g` that calls `f` in parentheses, with extras behind the first of them. The places are
those of the name, of what closes the parentheses, and of the arguments. -/
def treeWith (extras : List SyntaxTree) (name closing arguments : Position) : SyntaxTree :=
  .node .module none ⟨0, 1, 1⟩ "" [functionOf "g" ⟨0, 1, 1⟩
    (callOf (.node .parenthesized (some .callee) ⟨13, 2, 5⟩ ""
      ([leaf .token none ⟨13, 2, 5⟩ "("] ++ extras ++
        [leaf .name none name "f", leaf .token none closing ")"])) arguments)]

/-- The call `(f)()`. -/
def plain : SyntaxTree := treeWith [] ⟨14, 2, 6⟩ ⟨15, 2, 7⟩ ⟨16, 2, 8⟩

/-- The call with a comment between the parenthesis and the name. -/
def commented : SyntaxTree :=
  treeWith [leaf .comment none ⟨14, 2, 6⟩ "#"] ⟨16, 3, 1⟩ ⟨17, 3, 2⟩ ⟨18, 3, 3⟩

/-- The call with a line continuation between the parenthesis and the name. -/
def continued : SyntaxTree :=
  treeWith [leaf .lineContinuation none ⟨14, 2, 6⟩ "\\\n"] ⟨16, 3, 1⟩ ⟨17, 3, 2⟩ ⟨18, 3, 3⟩

/-- The comments and line continuations of the three trees are where they may be, and the comment is no
line continuation. -/
theorem extrasApart :
    (plain.ExtrasApart ∧ commented.ExtrasApart ∧ continued.ExtrasApart) ∧
      (∀ u : SyntaxTree, u.Within plain → u.kind ≠ .lineContinuation) ∧
      ∀ u : SyntaxTree, u.Within commented → u.kind ≠ .lineContinuation := by
  simp only [SyntaxTree.ExtrasApart, ← SyntaxTree.mem_preorder]
  decide +kernel

end ParenthesizedCall

section ParenthesizedCall

open ParenthesizedCall

/-- A comment between a parenthesis and a name changes nothing. -/
theorem commentedCall_seen :
    plain.outline = commented.outline ∧ (plain.ExtrasApart ∧ commented.ExtrasApart) ∧
      commented.bareCalls = plain.bareCalls ∧
      ∀ table, (ParsedModule.mk "m" commented).edges table = (ParsedModule.mk "m" plain).edges table := by
  obtain ⟨⟨hplain, hcommented, -⟩, hplainKinds, hcommentedKinds⟩ := extrasApart
  obtain ⟨-, hcalls, hedges, hplainSeen⟩ := extras_matter_only_by_hiding plain commented hplain hcommented rfl
  obtain ⟨-, -, -, hcommentedSeen⟩ := extras_matter_only_by_hiding commented plain hcommented hplain rfl
  have hscope {t : SyntaxTree} {f : TopLevelFunction} (hf : f ∈ t.topLevelFunctions) : f.scope.Within t :=
    .inChild (SyntaxTree.mem_topLevelFunctions.1 hf).1 .whole
  have hseen := hplainSeen hplainKinds
  have hseen' := hcommentedSeen hcommentedKinds
  refine ⟨rfl, ⟨hplain, hcommented⟩, ?_, ?_⟩
  · exact (hcalls plain commented .whole .whole rfl (hseen plain .whole)).2 (hseen' commented .whole)
  · exact (hedges "m" fun f hf => hseen f.scope (hscope hf)).2 fun f hf => hseen' f.scope (hscope hf)

/-- A line continuation between a parenthesis and a name hides the call. -/
theorem continuation_hides_call :
    plain.outline = continued.outline ∧ (plain.ExtrasApart ∧ continued.ExtrasApart) ∧
      (plain.firstFault? = none ∧ continued.firstFault? = none) ∧
      (plain.bareCalls = ["f"] ∧ continued.bareCalls = []) ∧
      (ParsedModule.mk "m" plain).edges (.ofNames ["f"]) = [⟨"m.g", "f"⟩] ∧
      (ParsedModule.mk "m" continued).edges (.ofNames ["f"]) = [] := by
  obtain ⟨⟨hplain, -, hcontinued⟩, -⟩ := extrasApart
  exact ⟨rfl, ⟨hplain, hcontinued⟩, by decide +kernel⟩

end ParenthesizedCall

end BareCallGraph
