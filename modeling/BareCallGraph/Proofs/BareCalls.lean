import BareCallGraph.SyntaxTree.Functions

/-!
# What the scan for calls finds

A call counts wherever it stands in a tree, and it counts for the name that it calls when the callee is
that name in any number of parentheses. The scan with a stack finds exactly these calls, apart from those
in which a line continuation stands between a parenthesis and its content: they are hidden.

Trees are arbitrary here. Nothing is said about which trees a source text can have.
-/

namespace BareCallGraph

/-- What parentheses hold beside their content: brackets, comments and line continuations. -/
def Kind.isFiller : Kind → Bool
  | .token | .comment | .lineContinuation => true
  | _ => false

namespace SyntaxTree

/-- A node stands within a tree: it is the whole tree or stands within a child. -/
inductive Within (u : SyntaxTree) : SyntaxTree → Prop where
  | whole : Within u u
  | inChild {t c : SyntaxTree} (child : c ∈ t.children) (inner : Within u c) : Within u t

/-- A node stands within a tree exactly if it is the tree or stands within a child. -/
theorem within_iff {u t : SyntaxTree} :
    u.Within t ↔ u = t ∨ ∃ c ∈ t.children, u.Within c := by
  constructor
  · intro h
    cases h with
    | whole => exact .inl rfl
    | inChild child inner => exact .inr ⟨_, child, inner⟩
  · intro h
    rcases h with rfl | ⟨c, child, inner⟩
    · exact .whole
    · exact .inChild child inner

/-- What stands within a part of a tree stands within the tree. -/
theorem Within.trans {u s t : SyntaxTree} (hu : u.Within s) (hs : s.Within t) : u.Within t := by
  induction hs with
  | whole => exact hu
  | inChild child _ ih => exact .inChild child ih

/-- What holds of all nodes within a tree holds of its root and of all nodes within its children. -/
theorem forall_within_node {P : SyntaxTree → Prop} {kind : Kind} {role : Option Role} {start : Position}
    {characters : String} {children : List SyntaxTree} :
    (∀ u : SyntaxTree, u.Within (.node kind role start characters children) → P u) ↔
      P (.node kind role start characters children) ∧
        ∀ c ∈ children, ∀ u : SyntaxTree, u.Within c → P u := by
  constructor
  · exact fun h => ⟨h _ .whole, fun c hc u hu => h u (.inChild hc hu)⟩
  · rintro ⟨hroot, hchildren⟩ u hu
    rcases within_iff.1 hu with rfl | ⟨c, hc, hu⟩
    · exact hroot
    · exact hchildren c hc u hu

/-- The scan adds to what it has found every name that some node within a pending tree calls. -/
theorem mem_bareCallsOnto {b : String} (found : List String) (pending : List SyntaxTree) :
    b ∈ bareCallsOnto found pending ↔
      b ∈ found ∨ ∃ t ∈ pending, ∃ u : SyntaxTree, u.Within t ∧ u.calledName? = some b := by
  induction found, pending using bareCallsOnto.induct with
  | case1 found => simp [bareCallsOnto]
  | case2 found t pending ih =>
    have hhead : (∃ u : SyntaxTree, u.Within t ∧ u.calledName? = some b) ↔
        t.calledName? = some b ∨
          ∃ c ∈ t.children, ∃ u : SyntaxTree, u.Within c ∧ u.calledName? = some b := by
      constructor
      · intro h
        obtain ⟨u, hu, hb⟩ := h
        rcases within_iff.1 hu with rfl | ⟨c, hc, hu⟩
        · exact .inl hb
        · exact .inr ⟨c, hc, u, hu, hb⟩
      · intro h
        rcases h with hb | ⟨c, hc, u, hu, hb⟩
        · exact ⟨t, .whole, hb⟩
        · exact ⟨u, .inChild hc hu, hb⟩
    rw [pushChildren_eq] at ih
    rw [bareCallsOnto_cons, ih, List.mem_append, Option.mem_toList]
    simp only [List.mem_append, List.mem_cons, or_and_right, exists_or, exists_eq_left, hhead]
    grind

/-- A name is among the bare calls of a tree exactly when some node within the tree calls it. -/
theorem mem_bareCalls {b : String} {t : SyntaxTree} :
    b ∈ t.bareCalls ↔ ∃ u : SyntaxTree, u.Within t ∧ u.calledName? = some b := by
  rw [bareCalls, mem_bareCallsOnto]
  simp

/-- Parentheses and their content: the first child that is no filler. -/
def Encloses (t c : SyntaxTree) : Prop :=
  t.kind = .parenthesized ∧ ∃ before after, t.children = before ++ c :: after ∧
    c.kind.isFiller = false ∧ ∀ d ∈ before, d.kind.isFiller = true

/-- Parentheses in which a line continuation comes first, brackets and comments apart. -/
def OpensContinued (t : SyntaxTree) : Prop :=
  t.kind = .parenthesized ∧ ∃ before d after, t.children = before ++ d :: after ∧
    d.kind = .lineContinuation ∧ ∀ e ∈ before, e.kind = .token ∨ e.kind = .comment

/-- An expression is a name in any number of parentheses. -/
inductive Wraps : SyntaxTree → String → Prop where
  | name {t : SyntaxTree} (kind : t.kind = .name) : Wraps t t.text
  | layer {t c : SyntaxTree} {b : String} (content : t.Encloses c) (inner : Wraps c b) : Wraps t b

/-- Some layer of the parentheses around an expression has a line continuation before its content. -/
inductive Continued : SyntaxTree → Prop where
  | outermost {t : SyntaxTree} (opens : t.OpensContinued) : Continued t
  | layer {t c : SyntaxTree} (content : t.Encloses c) (inner : Continued c) : Continued t

/-- The content of parentheses is what a search for the first child that is no filler finds. -/
theorem encloses_iff_find? {t c : SyntaxTree} :
    t.Encloses c ↔ t.kind = .parenthesized ∧
      t.children.find? (fun d => !d.kind.isFiller) = some c := by
  simp only [Encloses, List.find?_eq_some_iff_append, Bool.not_eq_true', Bool.not_not]
  grind

/-- Parentheses have one content only. -/
theorem Encloses.unique {t c d : SyntaxTree} (hc : t.Encloses c) (hd : t.Encloses d) : c = d := by
  have h := (encloses_iff_find?.1 hc).2.symm.trans (encloses_iff_find?.1 hd).2
  exact Option.some.inj h

/-- The scan takes for the content of parentheses the first child that is no token and no comment. -/
theorem content?_eq_some_iff {t c : SyntaxTree} :
    t.content? = some c ↔ ∃ before after, t.children = before ++ c :: after ∧
      (c.kind ≠ .token ∧ c.kind ≠ .comment) ∧ ∀ d ∈ before, d.kind = .token ∨ d.kind = .comment := by
  simp only [content?, List.find?_eq_some_iff_append, isNamed, Bool.and_eq_true, bne_iff_ne,
    Bool.not_and, Bool.or_eq_true, Bool.not_eq_true', bne_eq_false_iff_eq]
  grind

/-- Parentheses open with a line continuation exactly if that is what is taken for their content. -/
theorem opensContinued_iff {t : SyntaxTree} :
    t.OpensContinued ↔ t.kind = .parenthesized ∧
      ∃ d, t.content? = some d ∧ d.kind = .lineContinuation := by
  simp only [OpensContinued, content?_eq_some_iff]
  constructor
  · intro h
    obtain ⟨hp, before, d, after, hs, hd, hb⟩ := h
    exact ⟨hp, d, ⟨before, after, hs, by simp [hd], hb⟩, hd⟩
  · intro h
    obtain ⟨hp, d, ⟨before, after, hs, -, hb⟩, hd⟩ := h
    exact ⟨hp, before, d, after, hs, hd, hb⟩

/-- Fillers are brackets and other tokens, comments, and line continuations. -/
theorem isFiller_iff {k : Kind} :
    k.isFiller = true ↔ k = .token ∨ k = .comment ∨ k = .lineContinuation := by
  cases k <;> simp [Kind.isFiller]

/-- Unless it is a line continuation, what the scan takes for the content of parentheses is it. -/
theorem encloses_of_content? {t c : SyntaxTree} (hp : t.kind = .parenthesized)
    (h : t.content? = some c) (hc : c.kind ≠ .lineContinuation) : t.Encloses c := by
  obtain ⟨before, after, hs, hk, hb⟩ := content?_eq_some_iff.1 h
  refine ⟨hp, before, after, hs, ?_, fun d hd => isFiller_iff.2 ?_⟩
  · rw [← Bool.not_eq_true, isFiller_iff]
    simp [hk, hc]
  · exact (hb d hd).imp_right .inl

/-- Without a line continuation in front, the scan takes the content of parentheses for what it is. -/
theorem content?_of_encloses {t c : SyntaxTree} (h : t.Encloses c) (ho : ¬ t.OpensContinued) :
    t.content? = some c := by
  cases hx : t.content? with
  | none =>
    obtain ⟨-, before, after, hs, hc, -⟩ := h
    have hnone := List.find?_eq_none.1 hx c (by simp [hs])
    cases hkind : c.kind <;> simp_all [Kind.isFiller, isNamed]
  | some x =>
    have hk : x.kind ≠ .lineContinuation := fun hk => ho (opensContinued_iff.2 ⟨h.1, x, hx, hk⟩)
    rw [(encloses_of_content? h.1 hx hk).unique h]

/-- A name comes down to its text. -/
theorem plainName?_of_name {t : SyntaxTree} (h : t.kind = .name) : t.plainName? = some t.text := by
  rw [plainName?, h]

/-- Parentheses come down to what their content comes down to. -/
theorem plainName?_of_content {t c : SyntaxTree} (hp : t.kind = .parenthesized)
    (h : t.content? = some c) : t.plainName? = c.plainName? := by
  rw [plainName?]
  simp only [hp]
  split
  · next x hx => rw [Option.some.inj (hx.symm.trans h)]
  · next hx => rw [h] at hx; contradiction

/-- Parentheses without content come down to no name. -/
theorem plainName?_of_content_none {t : SyntaxTree} (hp : t.kind = .parenthesized)
    (h : t.content? = none) : t.plainName? = none := by
  rw [plainName?]
  simp only [hp]
  split
  · next x hx => rw [h] at hx; contradiction
  · rfl

/-- What is neither a name nor in parentheses comes down to no name. -/
theorem plainName?_of_other {t : SyntaxTree} (hn : t.kind ≠ .name) (hp : t.kind ≠ .parenthesized) :
    t.plainName? = none := by
  rw [plainName?]
  split <;> simp_all

/-- A name wraps nothing but itself. -/
theorem wraps_name_iff {t : SyntaxTree} {b : String} (h : t.kind = .name) :
    t.Wraps b ↔ b = t.text := by
  constructor
  · intro hw
    cases hw with
    | name => rfl
    | layer content =>
      have := h.symm.trans content.1
      contradiction
  · intro heq
    subst heq
    exact .name h

/-- What is not in parentheses has no line continuation before its content. -/
theorem not_continued_of_kind {t : SyntaxTree} (h : t.kind ≠ .parenthesized) : ¬ t.Continued := by
  intro hc
  cases hc with
  | outermost opens => exact h opens.1
  | layer content => exact h content.1

/-- One layer of parentheses wraps what its content wraps. -/
theorem wraps_layer_iff {t c : SyntaxTree} {b : String} (h : t.Encloses c) :
    t.Wraps b ↔ c.Wraps b := by
  constructor
  · intro hw
    cases hw with
    | name kind =>
      have := kind.symm.trans h.1
      contradiction
    | layer content inner => exact h.unique content ▸ inner
  · exact .layer h

/-- A layer that does not open with a line continuation leaves the question to the layers inside. -/
theorem continued_layer_iff {t c : SyntaxTree} (h : t.Encloses c) (ho : ¬ t.OpensContinued) :
    t.Continued ↔ c.Continued := by
  constructor
  · intro hc
    cases hc with
    | outermost opens => exact absurd opens ho
    | layer content inner => exact h.unique content ▸ inner
  · exact .layer h

/-- The name that the scan sees in an expression: the one that parentheses are around, unless some
layer of them opens with a line continuation. -/
theorem plainName?_eq_some_iff {t : SyntaxTree} {b : String} :
    t.plainName? = some b ↔ t.Wraps b ∧ ¬ t.Continued := by
  induction t using plainName?.induct with
  | case1 t hn =>
    have hc : ¬ t.Continued := not_continued_of_kind (by simp [hn])
    rw [plainName?_of_name hn, wraps_name_iff hn, and_iff_left hc, Option.some.injEq, eq_comm]
  | case2 t hp c h ih =>
    rw [plainName?_of_content hp h]
    by_cases hk : c.kind = .lineContinuation
    · have hc : t.Continued := .outermost (opensContinued_iff.2 ⟨hp, c, h, hk⟩)
      rw [plainName?_of_other (by simp [hk]) (by simp [hk])]
      simp [hc]
    · have henc := encloses_of_content? hp h hk
      have ho : ¬ t.OpensContinued := by
        intro hopens
        obtain ⟨-, d, hd, hdk⟩ := opensContinued_iff.1 hopens
        exact hk (Option.some.inj (h.symm.trans hd) ▸ hdk)
      rw [ih, wraps_layer_iff henc, continued_layer_iff henc ho]
  | case3 t hp h =>
    -- Without content there is nothing that the parentheses could wrap.
    have hw : ¬ t.Wraps b := by
      intro hw
      cases hw with
      | name kind =>
        have := kind.symm.trans hp
        contradiction
      | layer content =>
        have hno : ¬ t.OpensContinued := by simp [opensContinued_iff, h]
        have := (content?_of_encloses content hno).symm.trans h
        contradiction
    rw [plainName?_of_content_none hp h]
    simp [hw]
  | case4 t hn hp =>
    have hw : ¬ t.Wraps b := by
      intro hw
      cases hw with
      | name kind => exact hn kind
      | layer content => exact hp content.1
    rw [plainName?_of_other hn hp]
    simp [hw]

/-- A call whose callee is a name in any number of parentheses. -/
def Calls (u : SyntaxTree) (b : String) : Prop :=
  u.kind = .call ∧ ∃ callee, u.child? .callee = some callee ∧ callee.Wraps b

/-- A call is hidden when some layer of parentheses around its callee opens with a line
continuation. -/
def Hidden (u : SyntaxTree) : Prop :=
  ∃ callee, u.child? .callee = some callee ∧ callee.Continued

/-- The scan sees the calls that are not hidden, each under the name that it calls. -/
theorem calledName?_eq_some_iff {u : SyntaxTree} {b : String} :
    u.calledName? = some b ↔ u.Calls b ∧ ¬ u.Hidden := by
  unfold calledName?
  split
  · next hk =>
    simp only [bareCallee?, Option.bind_eq_some_iff, plainName?_eq_some_iff, Calls, Hidden, hk]
    grind
  · next hk => simp [Calls, hk]

end SyntaxTree

end BareCallGraph
