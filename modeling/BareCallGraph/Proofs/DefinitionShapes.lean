import BareCallGraph.Proofs.FunctionNames

/-!
# The shape of definitions

In the tree of every text, whether it is accepted or not, a function definition has a name
(`Follows.exists_name`), and a function definition among the children of a decorated definition is the one
that is decorated (`Follows.child?_definition`). Both are read off the rules: a node of these kinds is a
phrase, and its parts fill one of the few sequences that the rule of the phrase is spelled out as.
-/

namespace BareCallGraph

namespace SyntaxTree

/-- Every function definition in a tree has a name, and one among the children of a decorated definition
is what is decorated. -/
structure HasWholeDefinitions (t : SyntaxTree) : Prop where
  /-- There is a name. -/
  named : ∀ u : SyntaxTree, u.Within t → u.kind = .functionDefinition →
    ∃ c ∈ u.children, c.kind = .name ∧ c.role = some .name
  /-- It is what is decorated. -/
  decorated : ∀ u : SyntaxTree, u.Within t → u.kind = .decoratedDefinition →
    ∀ c ∈ u.children, c.kind = .functionDefinition → u.child? .definition = some c

/-- Whether a node is the definition of a function without `async`. -/
def isPlain (t : SyntaxTree) : Bool := t.kind == .functionDefinition && !t.isAsync

/-- Whether a statement is the definition of a function without `async`, or a decorated one. -/
def holdsPlain (t : SyntaxTree) : Bool :=
  t.isPlain || t.kind == .decoratedDefinition && t.children.any isPlain

/-- A plain definition is a definition that is not asynchronous. -/
theorem isPlain_iff {t : SyntaxTree} :
    t.isPlain = true ↔ t.kind = .functionDefinition ∧ t.isAsync = false := by
  rw [isPlain, Bool.and_eq_true, beq_iff_eq, Bool.not_eq_true']

/-- A statement holds a plain definition if it is one, or a decorated one. -/
theorem holdsPlain_iff {t : SyntaxTree} : t.holdsPlain = true ↔ t.isPlain = true ∨
    t.kind = .decoratedDefinition ∧ ∃ d ∈ t.children, d.isPlain = true := by
  rw [holdsPlain, Bool.or_eq_true, Bool.and_eq_true, beq_iff_eq, List.any_eq_true]

/-- A child of a tree with whole definitions has whole definitions. -/
theorem HasWholeDefinitions.child {t c : SyntaxTree} (h : t.HasWholeDefinitions) (hc : c ∈ t.children) :
    c.HasWholeDefinitions :=
  ⟨fun u hu => h.named u (.inChild hc hu), fun u hu => h.decorated u (.inChild hc hu)⟩

/-- A plain definition with a name defines a function. -/
theorem HasWholeDefinitions.exists_isPlainDef {d : SyntaxTree} (h : d.HasWholeDefinitions)
    (hd : d.isPlain = true) : ∃ b, d.IsPlainDef b := by
  obtain ⟨hkind, hasync⟩ := isPlain_iff.1 hd
  obtain ⟨c, hc, -, hrole⟩ := h.named d .whole hkind
  cases hname : d.child? .name with
  | none => exact absurd (beq_iff_eq.2 hrole) (List.find?_eq_none.1 hname c hc)
  | some n => exact ⟨n.text, hkind, hasync, n, hname, rfl⟩

/-- A statement defines a function exactly if it is a plain definition, or a decorated one. -/
theorem HasWholeDefinitions.exists_defines_iff {s : SyntaxTree} (h : s.HasWholeDefinitions) :
    (∃ b, s.Defines b) ↔ s.holdsPlain = true := by
  rw [holdsPlain_iff]
  constructor
  · rintro ⟨b, hb⟩
    cases hb with
    | plain definition => exact .inl (isPlain_iff.2 ⟨definition.1, definition.2.1⟩)
    | decorated kind under definition =>
      refine .inr ⟨kind, _, List.mem_of_find?_eq_some under, ?_⟩
      exact isPlain_iff.2 ⟨definition.1, definition.2.1⟩
  · rintro (hs | ⟨hkind, d, hd, hplain⟩)
    · obtain ⟨b, hb⟩ := h.exists_isPlainDef hs
      exact ⟨b, .plain hb⟩
    · obtain ⟨b, hb⟩ := (h.child hd).exists_isPlainDef hplain
      exact ⟨b, .decorated hkind (h.decorated s .whole hkind d hd hb.1) hb⟩

/-- The scope of the function that a statement defines is the statement itself, if it holds a plain
definition. -/
theorem HasWholeDefinitions.map_scope {s : SyntaxTree} (h : s.HasWholeDefinitions) :
    s.plainFunction?.map (·.scope) = Option.guard holdsPlain s := by
  ext u
  rw [Option.map_eq_some_iff, Option.guard_eq_some_iff, ← h.exists_defines_iff]
  constructor
  · rintro ⟨f, hf, rfl⟩
    obtain ⟨hscope, hb⟩ := plainFunction?_eq_some_iff.1 hf
    exact ⟨hscope.symm, _, hb⟩
  · rintro ⟨rfl, b, hb⟩
    exact ⟨⟨b, s⟩, plainFunction?_eq_some_iff.2 ⟨rfl, hb⟩, rfl⟩

/-- The scopes of the functions at the top of a module are the statements that are plain definitions or
decorated ones, in order and each once. -/
theorem HasWholeDefinitions.scopes_eq {t : SyntaxTree} (h : t.HasWholeDefinitions) :
    t.topLevelFunctions.map (·.scope) = t.children.filter holdsPlain := by
  rw [topLevelFunctions, List.map_filterMap, ← List.filterMap_eq_filter]
  exact List.filterMap_congr fun s hs => (h.child hs).map_scope

end SyntaxTree

namespace Python

open Grammar (Definition Derivation Derives Fills Mark Outcome Production Rule Step Table Token)

/-! ## How phrases are shown -/

/-- A grammar with the phrases and the rules of Python. -/
structure IsPython (g : Definition Terminal Nonterminal) : Prop where
  nonterminals : g.nonterminals = Nonterminal.all
  rules : g.rule = rule

/-- Every nonterminal is listed. -/
theorem Nonterminal.mem_all (n : Nonterminal) : n ∈ all := by
  cases n <;> decide

/-- The kinds of phrases are listed in the order of the nonterminals. -/
theorem phraseKinds_getD (k : Nat) :
    phraseKinds.getD k none = Nonterminal.all[k]?.bind Nonterminal.kind? := by
  rw [phraseKinds, Array.getD_eq_getD_getElem?, List.getElem?_toArray, List.getElem?_map]
  cases Nonterminal.all[k]? <;> rfl

section

variable {g : Definition Terminal Nonterminal} {p : Production}

/-- The phrases of a nonterminal are shown as its kind says. -/
theorem IsPython.phraseKinds_nonterminal (hg : IsPython g) (n : Nonterminal) :
    phraseKinds.getD (g.coding.nonterminal n) none = n.kind? := by
  have hindex : g.coding.nonterminal n = Nonterminal.all.idxOf n := by
    rw [← hg.nonterminals]
    rfl
  rw [phraseKinds_getD, hindex, List.getElem?_idxOf n.mem_all, Option.bind_some]

/-- Repetitions are not shown. -/
theorem IsPython.phraseKinds_repetition (hg : IsPython g) (body : Phrase) :
    phraseKinds.getD (g.coding.repetition body) none = none := by
  have hle : Nonterminal.all.length ≤ g.coding.repetition body := by
    rw [← hg.nonterminals]
    exact Nat.le_add_right _ _
  rw [phraseKinds_getD, List.getElem?_eq_none hle, Option.bind_none]

/-- A production whose phrase is shown is that of a nonterminal. -/
theorem IsPython.exists_nonterminal (hg : IsPython g) (hp : p ∈ g.productions) {kind : Kind}
    (hkind : phraseKinds.getD p.head none = some kind) :
    ∃ n : Nonterminal, p.head = g.coding.nonterminal n ∧ n.kind? = some kind := by
  rcases List.mem_append.1 hp with hp | hp
  · obtain ⟨n, -, hp⟩ := List.mem_flatMap.1 hp
    have hhead := (Definition.mem_productionsOf hp).1
    rw [hhead, hg.phraseKinds_nonterminal] at hkind
    exact ⟨n, hhead, hkind⟩
  · obtain ⟨body, -, hp⟩ := List.mem_flatMap.1 hp
    rw [(Definition.mem_productionsOf hp).1, hg.phraseKinds_repetition] at hkind
    contradiction

/-- The production of a phrase is one of the alternatives of its rule. -/
theorem IsPython.exists_alternative (hg : IsPython g) (hp : p ∈ g.productions) {n : Nonterminal}
    (hhead : p.head = g.coding.nonterminal n) :
    ∃ a ∈ (rule n).alternatives g.coding, p.steps = a.steps := by
  have hn : n ∈ g.nonterminals := by
    rw [hg.nonterminals]
    exact n.mem_all
  rw [← hg.rules]
  exact Definition.exists_alternative_of_nonterminal hp hn hhead

end

/-- A phrase is shown as its mark says, or else as its nonterminal. -/
theorem phraseKind?_eq_some {n symbol : Nat} {mark : Mark} {kind : Kind}
    (h : phraseKind? n mark symbol = some kind) : mark.kind = some kind ∨
      mark.kind = none ∧ phraseKinds.getD (symbol - n) none = some kind := by
  rwa [phraseKind?, Option.orElse_eq_orElse, Option.orElse_eq_or, Option.or_eq_some_iff] at h

/-- The kinds that a token is shown as. -/
def tokenKinds : List Kind := markedKinds ++ [.token, .comment, .lineContinuation]

/-- A kind that a part may be marked with is one that a token may be shown as. -/
theorem mem_tokenKinds {kind : Kind} (h : kind ∈ markedKinds) : kind ∈ tokenKinds :=
  List.mem_append_left _ h

/-- A token is shown as one of the kinds of tokens, if its mark is one of those that parts have. -/
theorem leafKind?_mem {mark : Mark} {token : Token Terminal} {kind : Kind}
    (hmark : ∀ k, mark.kind = some k → k ∈ markedKinds) (h : leafKind? mark token = some kind) :
    kind ∈ tokenKinds := by
  rw [leafKind?, Option.orElse_eq_orElse, Option.orElse_eq_or, Option.or_eq_some_iff] at h
  rcases h with h | ⟨-, h⟩
  · exact mem_tokenKinds (hmark kind h)
  · generalize token.terminal = t at h
    cases t <;> cases h <;> decide

section

variable {g : Definition Terminal Nonterminal} {mark : Mark} {d : Derivation Terminal} {u : SyntaxTree}

/-- What follows the grammar is marked as parts are. -/
theorem Follows.marked (h : Follows g mark d) : ∀ k, mark.kind = some k → k ∈ markedKinds := by
  intro k hk
  cases h with
  | derives _ fits => exact fits.other k hk
  | extra kind _ =>
    rw [kind] at hk
    contradiction

/-- A phrase is shown as its rule says unless it is marked. -/
theorem phraseKind?_of_unmarked (hkind : mark.kind = none) (head : Nat) :
    phraseKind? g.terminals.length mark (g.terminals.length + head) = phraseKinds.getD head none := by
  rw [phraseKind?, hkind, Nat.add_sub_cancel_left, Option.orElse_eq_orElse, Option.orElse_eq_or,
    Option.none_or]

/-- A node of a kind that no token and no mark has is a phrase of that kind. -/
theorem Follows.exists_fills (hg : IsPython g) (h : Follows g mark d)
    (hu : ShownAs g.terminals.length mark d u) (hkind : u.kind ∉ tokenKinds) :
    ∃ p n parts, p ∈ g.productions ∧ p.head = g.coding.nonterminal n ∧ n.kind? = some u.kind ∧
      Fills g vocabulary p.steps parts ∧ u.children = shownAllOnto g.terminals.length none [] parts := by
  cases hu with
  | token shown => exact absurd (leafKind?_mem h.marked shown) hkind
  | @phrase _ _ _ _ parts kind shown =>
    rcases phraseKind?_eq_some shown with hmarked | ⟨-, hown⟩
    · exact absurd (mem_tokenKinds (h.marked kind hmarked)) hkind
    · cases h with
      | derives derives _ =>
        cases derives with
        | @phrase p _ _ _ _ production fills =>
          rw [Nat.add_sub_cancel_left] at hown
          obtain ⟨n, hhead, hn⟩ := hg.exists_nonterminal production hown
          exact ⟨p, n, parts, production, hhead, hn, fills, rfl⟩

/-! ## Function definitions -/

/-- Only definitions of functions are shown as such. -/
theorem Nonterminal.eq_functionDefinition {n : Nonterminal} (h : n.kind? = some .functionDefinition) :
    n = .functionDefinition := by
  cases n with
  | functionDefinition => rfl
  | _ => contradiction

/-- However a function definition is written, one of its parts is its name. -/
theorem exists_name_step {code : Grammar.Coding Terminal Nonterminal} {a : Grammar.Alternative}
    (ha : a ∈ (rule .functionDefinition).alternatives code) :
    ∃ s ∈ a.steps, s.mark = ⟨none, some .name⟩ := by
  have hpart : Phrase.playing .name Phrase.identifier ∈ [.optional (Phrase.tok "async"), Phrase.tok "def",
      Phrase.playing .name Phrase.identifier, .optional (Phrase.sub .typeParameters),
      Phrase.sub .parameters, .optional (Phrase.seq [Phrase.tok "->", Phrase.sub .type]), Phrase.tok ":",
      Phrase.suite] := .tail _ (.tail _ (.head _))
  obtain ⟨b, hb, hsteps⟩ := Rule.exists_of_mem_sequence hpart ha
  rw [List.mem_singleton.1 hb] at hsteps
  exact ⟨_, hsteps (.head _), rfl⟩

/-- A token in the role of a name is shown as a name. -/
theorem exists_shownAs_name (hn : NamesIdentifiers g) (hd : Derives g vocabulary d)
    (hsymbol : d.symbol = g.coding.terminal .identifier) (n : Nat) :
    ∃ u, ShownAs n ⟨none, some .name⟩ d u ∧ u.kind = .name ∧ u.role = some .name := by
  cases hd with
  | @leaf m token stop terminal _ =>
    have hterminal := terminal_eq_of_number terminal hsymbol
    have hkind : leafKind? ⟨none, some .name⟩ token = some .name := by
      rw [leafKind?, hterminal]
      rfl
    exact ⟨_, .token hkind, rfl, rfl⟩
  | phrase => exact absurd hsymbol (hn.ne_phrase (.head _) _)

/-- Every function definition has a name. -/
theorem Follows.exists_name (hg : IsPython g) (hn : NamesIdentifiers g) (h : Follows g mark d)
    (hu : ShownAs g.terminals.length mark d u) (hkind : u.kind = .functionDefinition) :
    ∃ c ∈ u.children, c.kind = .name ∧ c.role = some .name := by
  obtain ⟨p, n, parts, hp, hhead, hshown, hfills, hchildren⟩ :=
    h.exists_fills hg hu (hkind ▸ by decide)
  rw [hkind] at hshown
  obtain rfl := Nonterminal.eq_functionDefinition hshown
  obtain ⟨a, ha, hsteps⟩ := hg.exists_alternative hp hhead
  obtain ⟨s, hs, hmark⟩ := exists_name_step ha
  rw [← hsteps] at hs
  obtain ⟨d, hd, hderives, hsymbol⟩ := hfills.exists_part hs
  have hidentifier := (hn.markFits hp hs).role (by rw [hmark])
  obtain ⟨c, hc, hname⟩ :=
    exists_shownAs_name hn hderives (hsymbol.trans hidentifier) g.terminals.length
  refine ⟨c, ?_, hname⟩
  rw [hchildren]
  refine (mem_shownAllOnto parts).2 (.inl ⟨_, hd, ?_⟩)
  rw [inheriting_none, hmark]
  exact .itself hc

/-! ## Decorated definitions -/

/-- Only decorated definitions are shown as such. -/
theorem Nonterminal.eq_decoratedDefinition {n : Nonterminal} (h : n.kind? = some .decoratedDefinition) :
    n = .decoratedDefinition := by
  cases n with
  | decoratedDefinition => rfl
  | _ => contradiction

/-- A decorated definition is some decorators and a definition that is shown. -/
theorem steps_of_decorated {code : Grammar.Coding Terminal Nonterminal} {a : Grammar.Alternative}
    (ha : a ∈ (rule .decoratedDefinition).alternatives code) :
    ∃ n : Nonterminal, (∃ kind, n.kind? = some kind) ∧
      a.steps = [{ symbol := .nonterminal (code.repetition (.nonterminal .decorator)) },
        { symbol := .nonterminal (code.nonterminal n), mark := ⟨none, some .definition⟩ }] := by
  rcases List.mem_cons.1 ha with rfl | ha
  · exact ⟨.classDefinition, ⟨_, rfl⟩, rfl⟩
  · rw [List.mem_singleton.1 ha]
    exact ⟨.functionDefinition, ⟨_, rfl⟩, rfl⟩

/-- An extra token plays no part and is no definition. -/
theorem role_of_shows_extra {n : Nat} (hd : d.IsExtra vocabulary) (h : Shows n {} d u) :
    u.role = none ∧ u.kind ∈ tokenKinds := by
  obtain ⟨m, token, stop, rfl, -⟩ := hd
  cases h with
  | itself shown =>
    cases shown with
    | token shown =>
      have hunmarked : ∀ k, ({} : Mark).kind = some k → k ∈ markedKinds := nofun
      exact ⟨rfl, leafKind?_mem hunmarked shown⟩

/-- A phrase that is not marked is shown as its nonterminal says, in the part it plays. -/
theorem exists_shownAs_of_nonterminal (hg : IsPython g) (hd : Derives g vocabulary d) {n : Nonterminal}
    (hsymbol : d.symbol = g.terminals.length + g.coding.nonterminal n) {kind : Kind}
    (hn : n.kind? = some kind) (hmark : mark.kind = none) :
    ∃ u, ShownAs g.terminals.length mark d u ∧ u.kind = kind ∧ u.role = mark.role := by
  obtain ⟨p, _, _, _, parts, -, hhead, -, rfl⟩ := hd.exists_phrase hsymbol
  have hkind : phraseKind? g.terminals.length mark (g.terminals.length + p.head) = some kind := by
    rw [phraseKind?_of_unmarked hmark, hhead, hg.phraseKinds_nonterminal, hn]
  exact ⟨_, .phrase hkind, rfl, rfl⟩

/-- Decorators are the nonterminal itself, or what was there before and one more. -/
theorem steps_of_decorators (hg : IsPython g) {p : Production} (hp : p ∈ g.productions)
    (hhead : p.head = g.coding.repetition (.nonterminal .decorator)) {s : Step} (hs : s ∈ p.steps) :
    s.mark = {} ∧ (s.symbol = .nonterminal (g.coding.nonterminal .decorator) ∨
      s.symbol = .nonterminal (g.coding.repetition (.nonterminal .decorator))) := by
  have hrepeated : Rule.nonterminal .decorator ∈ g.repetitions := by
    refine List.mem_eraseDups.2 (List.mem_flatMap.2 ⟨.decoratedDefinition, ?_, ?_⟩)
    · rw [hg.nonterminals]
      exact Nonterminal.mem_all _
    · rw [hg.rules]
      exact .head _
  obtain ⟨a, ha, hsteps⟩ := Definition.exists_alternative_of_repetition hp hrepeated hhead
  rw [List.mem_singleton.1 ha] at hsteps
  rcases hsteps with hsteps | hsteps
  · rw [hsteps] at hs
    rw [List.mem_singleton.1 hs]
    exact ⟨rfl, .inl rfl⟩
  · rw [hsteps] at hs
    rcases List.mem_cons.1 hs with rfl | hs
    · exact ⟨rfl, .inr rfl⟩
    · rw [List.mem_singleton.1 hs]
      exact ⟨rfl, .inl rfl⟩

/-- What stands for decorators plays no part and is no definition. -/
theorem role_of_shows_decorators (hg : IsPython g) (hd : Derives g vocabulary d)
    (hsymbol : d.symbol = g.terminals.length + g.coding.repetition (.nonterminal .decorator))
    (hmark : mark = {}) (h : Shows g.terminals.length mark d u) :
    u.role = none ∧ u.kind ∈ tokenKinds := by
  induction h with
  | @itself mark d u shown =>
    obtain ⟨p, _, _, _, parts, -, hhead, -, rfl⟩ := hd.exists_phrase hsymbol
    refine absurd shown (not_shownAs_phrase ?_)
    rw [hmark, phraseKind?_of_unmarked rfl, hhead, hg.phraseKinds_repetition]
  | @part mark symbol weight start stop parts part u hidden mem shows ih =>
    obtain ⟨p, _, _, _, parts, hp, hhead, hfills, heq⟩ := hd.exists_phrase hsymbol
    cases heq
    rw [hmark, inheriting_none] at shows ih
    rcases hfills.of_mem mem with ⟨s, hs, hpart, hderives, hnumber⟩ | ⟨hpart, hextra⟩
    · obtain ⟨hunmarked, hstep | hstep⟩ := steps_of_decorators hg hp hhead hs
      · rw [hstep] at hnumber
        rw [hpart, hunmarked] at shows
        have hdecorator : Nonterminal.decorator.kind? = some .other := rfl
        obtain ⟨v, hv, hkind, hrole⟩ := exists_shownAs_of_nonterminal hg hderives hnumber hdecorator
          (rfl : ({} : Mark).kind = none)
        rw [shows.eq_of_shownAs hv, hkind, hrole]
        exact ⟨rfl, by decide⟩
      · rw [hstep] at hnumber
        exact ih hderives hnumber (hpart.trans hunmarked)
    · rw [hpart] at shows
      exact role_of_shows_extra hextra shows

/-- Of the children of a decorated definition one is what is decorated. The others play no part and are
no definitions. -/
theorem Follows.exists_decorated (hg : IsPython g) (h : Follows g mark d)
    (hu : ShownAs g.terminals.length mark d u) (hkind : u.kind = .decoratedDefinition) :
    ∃ c ∈ u.children, c.role = some .definition ∧
      ∀ c' ∈ u.children, c' = c ∨ c'.role = none ∧ c'.kind ∈ tokenKinds := by
  obtain ⟨p, n, parts, hp, hhead, hshown, hfills, hchildren⟩ :=
    h.exists_fills hg hu (hkind ▸ by decide)
  rw [hkind] at hshown
  obtain rfl := Nonterminal.eq_decoratedDefinition hshown
  obtain ⟨a, ha, hsteps⟩ := hg.exists_alternative hp hhead
  obtain ⟨n, ⟨kind, hn⟩, hsteps'⟩ := steps_of_decorated ha
  rw [hsteps, hsteps'] at hfills
  -- one part fills the step of the decorators, one that of the definition, and the others are extra
  obtain ⟨first, later, hfirst, hfirstSymbol, hlater, hparts⟩ := hfills.exists_first
  obtain ⟨last, extras, hlast, hlastSymbol, hextras, hrest⟩ := hlater.exists_first
  obtain ⟨c, hc, -, hrole⟩ := exists_shownAs_of_nonterminal hg hlast hlastSymbol hn
    (rfl : (⟨none, some .definition⟩ : Mark).kind = none)
  rw [hchildren]
  refine ⟨c, ?_, hrole, ?_⟩
  · refine (mem_shownAllOnto _).2 (.inl ⟨_, (hparts _).2 (.inr ((hrest _).2 (.inl rfl))), ?_⟩)
    rw [inheriting_none]
    exact .itself hc
  · intro c' hc'
    obtain ⟨part, hpart, hshows⟩ := ((mem_shownAllOnto _).1 hc').resolve_right List.not_mem_nil
    rw [inheriting_none] at hshows
    rcases (hparts part).1 hpart with rfl | hpart
    · exact .inr (role_of_shows_decorators hg hfirst hfirstSymbol rfl hshows)
    rcases (hrest part).1 hpart with rfl | hpart
    · exact .inl (hshows.eq_of_shownAs hc)
    obtain ⟨hunmarked, hextra⟩ := (hextras.of_mem hpart).resolve_left fun ⟨s, hs, _⟩ => nomatch hs
    rw [hunmarked] at hshows
    exact .inr (role_of_shows_extra hextra hshows)

/-- A function definition among the children of a decorated definition is what is decorated. -/
theorem Follows.child?_definition (hg : IsPython g) (h : Follows g mark d)
    (hu : ShownAs g.terminals.length mark d u) (hkind : u.kind = .decoratedDefinition) {c : SyntaxTree}
    (hc : c ∈ u.children) (hfunction : c.kind = .functionDefinition) :
    u.child? .definition = some c := by
  obtain ⟨decorated, hmem, hrole, hothers⟩ := h.exists_decorated hg hu hkind
  have hfound : c = decorated := by
    refine (hothers c hc).resolve_right fun hother => ?_
    rw [hfunction] at hother
    exact absurd hother.2 (by decide)
  cases hchild : u.child? .definition with
  | none => exact absurd (beq_iff_eq.2 hrole) (List.find?_eq_none.1 hchild decorated hmem)
  | some c' =>
    have hrole' := List.find?_some hchild
    rcases hothers c' (List.mem_of_find?_eq_some hchild) with rfl | ⟨hnone, -⟩
    · rw [hfound]
    · rw [hnone] at hrole'
      contradiction

/-- The tree of what follows the grammar has whole definitions. -/
theorem hasWholeDefinitions_treeOf (hg : IsPython g) (hn : NamesIdentifiers g) {outcome : Outcome Terminal}
    (h : outcome.Sound g vocabulary) : (treeOf g.terminals.length outcome).HasWholeDefinitions := by
  have hshown {u : SyntaxTree} (hu : u.Within (treeOf g.terminals.length outcome))
      (hkind : u.kind = .functionDefinition ∨ u.kind = .decoratedDefinition) :
      ∃ mark d, Follows g mark d ∧ ShownAs g.terminals.length mark d u := by
    refine (shownAs_of_within_treeOf (hn.passesOn _) (hn.follows_pieces h) hu).resolve_left ?_
    rintro ⟨hroot | herror, -⟩
    · simp [hroot] at hkind
    · simp [herror] at hkind
  constructor
  · intro u hu hkind
    obtain ⟨mark, d, hd, hu⟩ := hshown hu (.inl hkind)
    exact hd.exists_name hg hn hu hkind
  · intro u hu hkind c hc hfunction
    obtain ⟨mark, d, hd, hu⟩ := hshown hu (.inr hkind)
    exact hd.child?_definition hg hu hkind hc hfunction

end

/-- The grammar has the phrases and rules of Python. -/
theorem grammar_isPython : IsPython grammar := ⟨rfl, rfl⟩

/-- The tree of every text has whole definitions. -/
theorem syntaxTree_definitions (source : String) : (syntaxTree source).HasWholeDefinitions := by
  have hsize : table.numbers.size = grammar.terminals.length :=
    (Table.tracks_ofDefinition grammar 16384).size
  rw [syntaxTree, hsize]
  exact hasWholeDefinitions_treeOf grammar_isPython grammar_namesIdentifiers (read_sound source)

end Python

end BareCallGraph
