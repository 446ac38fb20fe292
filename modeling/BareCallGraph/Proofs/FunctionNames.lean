import BareCallGraph.Proofs.Passes
import BareCallGraph.Proofs.ReadingSoundness
import BareCallGraph.Proofs.RuleMarks
import BareCallGraph.Proofs.ShownTrees
import Mathlib.Data.List.TakeWhile

/-!
# The names of functions are words

In the grammar of Python only a word can be the name of a function: the role `Role.name` is given to
single tokens, and to no others than those that the lexer takes for words. Since what is read follows the
grammar, in the tree of every text a node that plays this role is a word (`Python.syntaxTree_names`).
So no function name has a dot or a line feed in it.
-/

namespace BareCallGraph

namespace Text

/-- The first characters that form an identifier do so on their own. -/
theorem identifierLength_take (cs : List Char) :
    identifierLength (cs.take (identifierLength cs)) = identifierLength cs := by
  cases cs with
  | nil => rfl
  | cons c cs =>
    by_cases hc : isIdentifierStart c = true
    · have htake : cs.take (cs.takeWhile isIdentifierPart).length = cs.takeWhile isIdentifierPart :=
        (List.prefix_iff_eq_take.1 (List.takeWhile_prefix isIdentifierPart)).symm
      rw [identifierLength, if_pos hc, Nat.add_comm, List.take_succ_cons, htake, identifierLength,
        if_pos hc, List.takeWhile_idem, Nat.add_comm]
    · simp [identifierLength, hc]

/-- An identifier is no longer than the text that it starts. -/
theorem identifierLength_le (cs : List Char) : identifierLength cs ≤ cs.length := by
  cases cs with
  | nil => exact Nat.le_refl 0
  | cons c cs =>
    rw [identifierLength, List.length_cons]
    split
    · have hle := (List.takeWhile_prefix (l := cs) isIdentifierPart).length_le
      omega
    · omega

/-- A text that starts with another one starts with an identifier at least as long. -/
theorem identifierLength_le_of_prefix {cs ds : List Char} (h : cs <+: ds) :
    identifierLength cs ≤ identifierLength ds := by
  obtain ⟨es, rfl⟩ := h
  cases cs with
  | nil => exact Nat.zero_le _
  | cons c cs =>
    have hle : (cs.takeWhile isIdentifierPart).length ≤ ((cs ++ es).takeWhile isIdentifierPart).length := by
      rw [List.takeWhile_append]
      split
      · rw [List.length_append]
        omega
      · exact Nat.le_refl _
    rw [List.cons_append, identifierLength, identifierLength]
    split
    · exact Nat.add_le_add_left hle 1
    · exact Nat.le_refl 0

end Text

namespace Python

open Grammar (Definition Derivation Derives DerivesWhole Fills Lexeme Mark Outcome Readings Rule Step
  Table Token Vocabulary)

/-! ## Words -/

/-- Whether a run of characters is one word. -/
def isWord (text : List Char) : Bool := !text.isEmpty && Text.identifierLength text == text.length

/-- The identifier that a text starts with is a word. -/
theorem isWord_take {cs : List Char} (h : Text.identifierLength cs ≠ 0) :
    isWord (cs.take (Text.identifierLength cs)) = true := by
  have hle := Text.identifierLength_le cs
  have hlength : (cs.take (Text.identifierLength cs)).length = Text.identifierLength cs := by
    rw [List.length_take]
    omega
  have hne : cs.take (Text.identifierLength cs) ≠ [] :=
    fun h' => h (by rw [← hlength, h', List.length_nil])
  simp [isWord, Text.identifierLength_take, hlength, hne]

/-- A word is an identifier as a whole. -/
theorem identifierLength_of_isWord {text : List Char} (h : isWord text = true) :
    Text.identifierLength text = text.length := by
  rw [isWord, Bool.and_eq_true] at h
  exact beq_iff_eq.1 h.2

/-- A character that is in no identifier is in no word. -/
theorem notMem_of_isWord {text : List Char} (h : isWord text = true) {c : Char}
    (hc : Text.isIdentifierPart c = false) : c ∉ text := by
  cases text with
  | nil => exact List.not_mem_nil
  | cons d ds =>
    simp only [isWord, Text.identifierLength, List.length_cons, Bool.and_eq_true,
      beq_iff_eq] at h
    split at h
    · next hd =>
      have hlength : (ds.takeWhile Text.isIdentifierPart).length = ds.length := by omega
      have hall := (List.takeWhile_prefix Text.isIdentifierPart).eq_of_length hlength
      have hparts : ∀ e ∈ d :: ds, Text.isIdentifierPart e = true :=
        List.forall_mem_cons.2 ⟨Text.isIdentifierPart_of_start hd, List.takeWhile_eq_self_iff.1 hall⟩
      intro hmem
      rw [hparts c hmem] at hc
      contradiction
    · omega

/-! ## The lexer finds words -/

/-- Whether the tokens of a kind are words: identifiers and keywords are. -/
def Terminal.isWord : Terminal → Bool
  | .identifier => true
  | .literal spelling => spelling.toList.all Text.isIdentifierPart
  | _ => false

/-- The tokens that the lexer finds: identifiers and keywords are words. -/
def vocabulary : Vocabulary Terminal where
  isToken token := token.terminal.isWord = true → isWord token.text = true
  isExtra _ := True

section

variable {accepts : Terminal → Bool} {mode : Mode} {cs : List Char} {f : Found} {c : Candidate}

/-- What ends a line, or changes its indentation, is no word. -/
theorem lineToken?_terminal {m : Margin} (h : lineToken? accepts mode m = some f) :
    f.terminal.isWord = false := by
  unfold lineToken? at h
  split at h
  · contradiction
  split at h
  · cases h
    rfl
  split at h
  · cases h
    rfl
  split at h
  · cases h
    rfl
  · contradiction

/-- What opens a string is no word. -/
theorem stringStart?_terminal {m : Margin} (h : stringStart? accepts mode m = some f) :
    f.terminal.isWord = false := by
  unfold stringStart? at h
  split at h
  · obtain ⟨d, -, rfl⟩ := Option.map_eq_some_iff.1 h
    rfl
  · contradiction

/-- A token of layout, or the opening of a string, is no word. -/
theorem layoutToken?_terminal (h : layoutToken? accepts mode cs = some f) :
    f.terminal.isWord = false := by
  obtain ⟨m, -, h⟩ := Option.bind_eq_some_iff.1 h
  rw [Option.orElse_eq_orElse, Option.orElse_eq_or, Option.or_eq_some_iff] at h
  rcases h with h | ⟨-, h⟩
  · exact lineToken?_terminal h
  · exact stringStart?_terminal h

/-- A token that layout or an open string determines is no word. -/
theorem contextToken?_terminal (h : contextToken? accepts mode cs = some f) :
    f.terminal.isWord = false := by
  unfold contextToken? at h
  split at h
  · exact layoutToken?_terminal h
  split at h
  · split at h
    · cases h
      rfl
    · contradiction
  split at h
  · split at h
    · cases h
      rfl
    · cases h
      rfl
    · contradiction
    · obtain ⟨e, he, rfl⟩ := Option.map_eq_some_iff.1 h
      have hterminal : e.terminal.isWord = false := layoutToken?_terminal he
      exact hterminal
  · exact layoutToken?_terminal h

/-- The candidate that is chosen is one of the candidates. -/
theorem Candidate.mem_of_best? {candidates : List Candidate} (h : best? candidates = some c) :
    c ∈ candidates := by
  cases candidates with
  | nil => contradiction
  | cons d ds =>
    have hfold (best : Candidate) (ds : List Candidate) :
        ds.foldl (fun best d => if d.beats best then d else best) best ∈ best :: ds := by
      induction ds generalizing best with
      | nil => exact .head _
      | cons e ds ih =>
        rw [List.foldl_cons]
        split
        · exact .tail _ (ih e)
        · rcases List.mem_cons.1 (ih best) with hbest | hlater
          · rw [hbest]
            exact .head _
          · exact .tail _ (.tail _ hlater)
    cases h
    exact hfold d ds

/-- A candidate is of the kind that it was put up for. -/
theorem Candidate.terminal_of_mem_ofLength {t : Terminal} {skipped length : Nat}
    (h : c ∈ ofLength accepts t skipped length) : c.terminal = t := by
  unfold ofLength at h
  split at h
  · rw [List.mem_singleton.1 h]
  · contradiction

/-- What stands inside a string is no word. -/
theorem terminal_of_mem_textCandidates (h : c ∈ textCandidates accepts cs) :
    c.terminal.isWord = false := by
  rcases List.mem_append.1 h with h | h
  · obtain ⟨d, hd, rfl⟩ := List.mem_map.1 h
    rcases List.mem_append.1 hd with hd | hd
    · rw [Candidate.asUrgent, Candidate.terminal_of_mem_ofLength hd]
      rfl
    · unfold formatCandidate at hd
      split at hd
      · rw [Candidate.asUrgent, Candidate.terminal_of_mem_ofLength hd]
        rfl
      · contradiction
  · rw [Candidate.terminal_of_mem_ofLength h]
    rfl

/-- No operator is spelled as a word. -/
theorem Terminal.isWord_of_operator? {t : Terminal} {spelling : List Char}
    (h : t.operator? = some spelling) : t.isWord = false := by
  cases t with
  | literal =>
    rw [operator?] at h
    split at h
    · contradiction
    · next hpart => simpa [isWord] using hpart
  | _ => contradiction

/-- Operators are no words. -/
theorem terminal_of_mem_operatorCandidates {skipped : Nat}
    (h : c ∈ operatorCandidates accepts skipped cs) : c.terminal.isWord = false := by
  obtain ⟨⟨t, spelling⟩, ht, h⟩ := List.mem_flatMap.1 h
  obtain ⟨u, -, hu⟩ := List.mem_filterMap.1 ht
  obtain ⟨w, hw, heq⟩ := Option.map_eq_some_iff.1 hu
  obtain ⟨rfl, rfl⟩ := Prod.mk.inj heq
  dsimp only at h
  split at h
  · rw [Candidate.terminal_of_mem_ofLength h]
    exact Terminal.isWord_of_operator? hw
  · exact absurd h List.not_mem_nil

/-- Of what may stand behind blank space only the word there is one. -/
theorem mem_wordCandidate_of_isWord {skipped : Nat} (h : c ∈ plainCandidates accepts skipped cs)
    (hc : c.terminal.isWord = true) : c ∈ wordCandidate accepts skipped cs := by
  have hother {accepts : Terminal → Bool} {t : Terminal} {length : Nat}
      (h : c ∈ Candidate.ofLength accepts t skipped length) : t.isWord = true :=
    Candidate.terminal_of_mem_ofLength h ▸ hc
  simp only [plainCandidates, List.mem_append] at h
  rcases h with (((((h | h) | h) | h) | h) | h) | h
  · exact h
  · rw [terminal_of_mem_operatorCandidates h] at hc
    contradiction
  all_goals exact absurd (hother h) (by decide)

/-- A word behind blank space is all of the word that stands there. -/
theorem plainToken?_word (h : plainToken? accepts mode cs = some f) (hf : f.terminal.isWord = true) :
    f.length = Text.identifierLength (cs.drop f.skipped) ∧ f.length ≠ 0 := by
  unfold plainToken? at h
  dsimp only at h
  split at h
  · next c hbest =>
    cases h
    rcases List.mem_append.1 (Candidate.mem_of_best? hbest) with hc | hc
    · rw [terminal_of_mem_textCandidates hc] at hf
      contradiction
    · have hword := mem_wordCandidate_of_isWord hc hf
      unfold wordCandidate at hword
      dsimp only at hword
      split at hword
      · contradiction
      · next hne =>
        rw [List.mem_singleton.1 hword]
        exact ⟨rfl, hne⟩
  · split at h
    · cases h
      contradiction
    · contradiction

/-- A word that the lexer finds is all of the word that stands behind the blank space at the cursor. -/
theorem lexer_word {cursor : Cursor} {lexeme : Lexeme Terminal Mode}
    (h : lexer accepts mode cursor = .ok lexeme) (hword : lexeme.token.terminal.isWord = true) :
    ∃ skipped, let here := cursor.skip skipped
      Text.identifierLength here.rest ≠ 0 ∧ lexeme.token.start = here.position ∧
        lexeme.token.text = here.take (Text.identifierLength here.rest) := by
  unfold lexer at h
  split at h
  · contradiction
  · next f hfound =>
    cases h
    rw [Option.orElse_eq_orElse, Option.orElse_eq_or, Option.or_eq_some_iff] at hfound
    rcases hfound with hfound | ⟨-, hfound⟩
    · rw [contextToken?_terminal hfound] at hword
      contradiction
    · obtain ⟨hlength, hne⟩ := plainToken?_word hfound hword
      have hlength : f.length = Text.identifierLength (cursor.skip f.skipped).rest := hlength
      exact ⟨f.skipped, hlength ▸ hne, rfl, hlength ▸ rfl⟩

/-- All tokens that the lexer finds are in the vocabulary. -/
theorem lexer_finds : Readings.Finds vocabulary lexer where
  token {accepts mode cursor lexeme} h := by
    intro hterminal
    obtain ⟨skipped, hne, -, htext⟩ := lexer_word h hterminal
    rw [htext]
    exact isWord_take hne
  extra _ _ := trivial

end

/-! ## Trees in which names are words -/

/-- Every node of a tree that plays the part of a name is a word. -/
def NamesAreWords (t : SyntaxTree) : Prop :=
  ∀ n : SyntaxTree, n.Within t → n.role = some .name → isWord n.text.toList = true

/-- Names are words in a child if they are in the whole tree. -/
theorem NamesAreWords.child {t c : SyntaxTree} (h : NamesAreWords t) (hc : c ∈ t.children) :
    NamesAreWords c :=
  fun n hn => h n (.inChild hc hn)

/-! ### What follows a grammar

The grammar stays a variable here: nothing about it matters but what it marks as names. -/

/-- The keywords that may be used as names. -/
def softKeywords : List Terminal :=
  [.literal "print", .literal "exec", .literal "async", .literal "await", .literal "match",
    .literal "type"]

/-- The kinds that a part may be shown as when it is not shown as what it is. -/
def markedKinds : List Kind := [.name, .other, .parenthesized]

section

variable {N : Type} [BEq N] {g : Definition Terminal N}

/-- A token with the number of a terminal is of that kind. -/
theorem terminal_eq_of_number {n : Nat} {t u : Terminal} (h : g.terminals[n]? = some u)
    (hn : n = g.coding.terminal t) : u = t := by
  subst hn
  obtain ⟨hlt, heq⟩ := List.getElem?_eq_some_iff.1 h
  exact heq.symm.trans (List.getElem_idxOf hlt)

/-- A grammar that gives the role of a name to identifiers, and shows as names besides them only keywords
that may be used as such. -/
structure NamesIdentifiers (g : Definition Terminal N) : Prop where
  /-- There are such tokens. -/
  mem : ∀ t ∈ .identifier :: softKeywords, t ∈ g.terminals
  /-- Only identifiers have the role. -/
  role : ∀ n ∈ g.nonterminals, (g.rule n).marksOnly (·.role.any (· == .name)) [.identifier] = true
  /-- Only these keywords are marked to be shown as names. -/
  kind : ∀ n ∈ g.nonterminals, (g.rule n).marksOnly (·.kind.any (· == .name)) softKeywords = true
  /-- Nothing is marked to be shown as a definition or the like. -/
  other : ∀ n ∈ g.nonterminals, (g.rule n).marksOnly (·.kind.any (!markedKinds.contains ·)) [] = true

/-- The numbers of these tokens are not those of phrases. -/
theorem NamesIdentifiers.ne_phrase (hg : NamesIdentifiers g) {t : Terminal}
    (ht : t ∈ .identifier :: softKeywords) (head : Nat) :
    g.terminals.length + head ≠ g.coding.terminal t := by
  have hlt : g.coding.terminal t < g.terminals.length := List.idxOf_lt_length_iff.2 (hg.mem t ht)
  omega

/-- A mark names nothing but an identifier or a keyword that may be used as a name. -/
structure MarkFits (g : Definition Terminal N) (mark : Mark) (symbol : Nat) : Prop where
  /-- Only an identifier has the role. -/
  role : mark.role = some .name → symbol = g.coding.terminal .identifier
  /-- Only such a keyword is marked to be shown as a name. -/
  kind : mark.kind = some .name → ∃ t ∈ softKeywords, symbol = g.coding.terminal t
  /-- Nothing is marked to be shown as a definition or the like. -/
  other : ∀ k, mark.kind = some k → k ∈ markedKinds

/-- No mark at all fits every symbol. -/
theorem markFits_unmarked (symbol : Nat) : MarkFits g {} symbol where
  role h := by contradiction
  kind h := by contradiction
  other k h := by contradiction

/-- A part that is a name by its own mark or by that of the phrase around it is one by its own, if the
phrase is none. -/
theorem role_of_orElse {own around : Option Role} (h : (own <|> around) = some .name)
    (haround : around ≠ some .name) : own = some .name := by
  cases own with
  | none => exact absurd h haround
  | some role => exact h

/-- A mark fits still when it takes over a role from around it that is not that of a name. -/
theorem MarkFits.inheriting {mark : Mark} {symbol : Nat} (h : MarkFits g mark symbol)
    {role : Option Role} (hrole : role ≠ some .name) : MarkFits g (inheriting role mark) symbol where
  role hname := h.role (role_of_orElse hname hrole)
  kind := h.kind
  other := h.other

/-- The marks of productions fit. -/
theorem NamesIdentifiers.markFits [LawfulBEq N] (hg : NamesIdentifiers g) {p : Grammar.Production}
    (hp : p ∈ g.productions) {s : Step} (hs : s ∈ p.steps) :
    MarkFits g s.mark (s.symbol.number g.terminals.length) where
  role hrole := by
    have hfits := Definition.stepFits_of_mem_productions (Mark.composes_role _) hg.role hp hs
    obtain ⟨t, ht, hsymbol⟩ := hfits (by simp [hrole])
    rw [hsymbol, List.mem_singleton.1 ht, Grammar.Symbol.number]
  kind hkind := by
    have hfits := Definition.stepFits_of_mem_productions (Mark.composes_kind _) hg.kind hp hs
    obtain ⟨t, ht, hsymbol⟩ := hfits (by simp [hkind])
    exact ⟨t, ht, by rw [hsymbol, Grammar.Symbol.number]⟩
  other k hkind := by
    have hfits := Definition.stepFits_of_mem_productions (Mark.composes_kind _) hg.other hp hs
    refine Classical.byContradiction fun hk => ?_
    obtain ⟨t, ht, -⟩ := hfits (by simp [hkind, hk])
    contradiction

/-- A derivation follows the grammar, or is an extra token, and its mark fits. -/
inductive Follows (g : Definition Terminal N) : Mark → Derivation Terminal → Prop where
  | derives {mark : Mark} {d : Derivation Terminal} (derives : Derives g vocabulary d)
      (fits : MarkFits g mark d.symbol) : Follows g mark d
  | extra {mark : Mark} {n : Nat} {token : Token Terminal} {stop : Position} (kind : mark.kind = none)
      (role : mark.role ≠ some .name) : Follows g mark (.leaf n token stop)

/-- The parts of a phrase follow the grammar if the phrase does, whatever part it plays itself. -/
theorem NamesIdentifiers.follows_part [LawfulBEq N] (hg : NamesIdentifiers g) {p : Grammar.Production}
    (hp : p ∈ g.productions) {parts : List (Mark × Derivation Terminal)}
    (hfills : Fills g vocabulary p.steps parts) {part : Mark × Derivation Terminal} (hpart : part ∈ parts)
    {role : Option Role} (hrole : role ≠ some .name) : Follows g (inheriting role part.1) part.2 := by
  rcases hfills.of_mem hpart with ⟨s, hs, hmark, hderives, hsymbol⟩ | ⟨hmark, m, token, stop, hextra, -⟩
  · refine .derives hderives (MarkFits.inheriting ?_ hrole)
    rw [hmark, hsymbol]
    exact hg.markFits hp hs
  · rw [hmark, hextra]
    exact .extra rfl hrole

/-- Following the grammar is passed on from a derivation to the parts that are shown. -/
theorem NamesIdentifiers.passesOn [LawfulBEq N] (hg : NamesIdentifiers g) (n : Nat) :
    PassesOn n (Follows g) where
  part h part hpart := by
    cases h with
    | derives derives fits =>
      cases derives with
      | phrase hp hfills =>
        rw [← inheriting_none part.1]
        exact hg.follows_part hp hfills hpart (by simp)
  hidden h _ part hpart := by
    cases h with
    | derives derives fits =>
      cases derives with
      | phrase hp hfills =>
        refine hg.follows_part hp hfills hpart fun hrole => ?_
        exact hg.ne_phrase (.head _) _ (fits.role hrole)

/-- What was read of a text follows the grammar piece by piece. -/
theorem NamesIdentifiers.follows_pieces [LawfulBEq N] (hg : NamesIdentifiers g)
    {outcome : Outcome Terminal} (h : outcome.Sound g vocabulary) :
    ∀ p ∈ pieces outcome, Follows g p.1 p.2 := by
  cases h with
  | accepted whole =>
    obtain ⟨p, _, _, _, parts, hp, -, hfills, rfl⟩ := whole.1.exists_phrase whole.2
    exact (hg.passesOn 0).part (.derives whole.1 (markFits_unmarked _))
  | rejected read =>
    intro part hpart
    obtain ⟨d, hd, rfl⟩ := List.mem_map.1 hpart
    rcases read d hd with hderives | ⟨m, token, stop, rfl, -⟩
    · exact .derives hderives (markFits_unmarked _)
    · exact .extra rfl (by simp)

/-- What plays the part of a name is a word. -/
theorem Follows.isWord_of_shownAs (hg : NamesIdentifiers g) {n : Nat} {mark : Mark}
    {d : Derivation Terminal} (h : Follows g mark d) {u : SyntaxTree} (hu : ShownAs n mark d u)
    (hrole : u.role = some .name) : isWord u.text.toList = true := by
  cases hu with
  | @token m token stop kind shown =>
    cases h with
    | derives derives fits =>
      cases derives with
      | leaf terminal isToken =>
        have hterminal := terminal_eq_of_number terminal (fits.role hrole)
        rw [SyntaxTree.text, String.toList_ofList]
        exact isToken (hterminal ▸ rfl)
    | extra _ role => exact absurd hrole role
  | phrase shown =>
    cases h with
    | derives derives fits =>
      cases derives with
      | phrase => exact absurd (fits.role hrole) (hg.ne_phrase (.head _) _)

/-- In the tree of an outcome that follows the grammar names are words. -/
theorem namesAreWords_treeOf [LawfulBEq N] (hg : NamesIdentifiers g) (n : Nat)
    {outcome : Outcome Terminal} (h : outcome.Sound g vocabulary) : NamesAreWords (treeOf n outcome) := by
  intro u hu hrole
  rcases shownAs_of_within_treeOf (hg.passesOn n) (hg.follows_pieces h) hu with
    ⟨-, hroot⟩ | ⟨mark, d, hd, hshown⟩
  · rw [hroot] at hrole
    contradiction
  · exact hd.isWord_of_shownAs hg hshown hrole

end

/-! ### The trees of texts -/

/-- The grammar of Python names identifiers only. -/
theorem grammar_namesIdentifiers : NamesIdentifiers grammar where
  mem t ht := by
    -- all of them may stand before `:=`
    refine List.mem_eraseDups.2 (List.mem_append_left _ (List.mem_flatMap.2 ?_))
    exact ⟨.namedExpressionTarget, by decide, by revert t; decide⟩
  role n _ := by cases n <;> rfl
  kind n _ := by cases n <;> rfl
  other n _ := by cases n <;> rfl

/-- What is read of a text follows the grammar. -/
theorem read_sound (source : String) :
    (table.read lexer .start (startOf source)).Sound grammar vocabulary :=
  Table.read_sound (Table.tracks_ofDefinition grammar 16384) lexer_finds .start (startOf source)

/-- In the tree of every text, what plays the part of a name is a word. -/
theorem syntaxTree_names (source : String) : NamesAreWords (syntaxTree source) :=
  namesAreWords_treeOf grammar_namesIdentifiers _ (read_sound source)

/-- The name of a definition is a word. -/
theorem isWord_of_child? {d n : SyntaxTree} (h : NamesAreWords d) (hn : d.child? .name = some n) :
    isWord n.text.toList = true := by
  have hrole := List.find?_some hn
  exact h n (.inChild (List.mem_of_find?_eq_some hn) .whole) (beq_iff_eq.1 hrole)

/-- What a statement of such a tree defines is named by a word. -/
theorem isWord_of_defines {s : SyntaxTree} {b : String} (h : NamesAreWords s) (hb : s.Defines b) :
    isWord b.toList = true := by
  cases hb with
  | plain definition =>
    obtain ⟨-, -, n, hn, rfl⟩ := definition
    exact isWord_of_child? h hn
  | decorated _ under definition =>
    obtain ⟨-, -, n, hn, rfl⟩ := definition
    exact isWord_of_child? (h.child (List.mem_of_find?_eq_some under)) hn

end Python

/-- A parser names functions by words. -/
def Parser.NamesWords (p : Parser) : Prop :=
  ∀ file source m, p file source = .ok m →
    ∀ s ∈ m.tree.children, ∀ b, s.Defines b → Python.isWord b.toList = true

/-- The parser of the language does. -/
theorem Python.parser_namesWords : Parser.NamesWords Python.parser := by
  intro file source m h s hs b hb
  rw [(Python.parser_eq_ok_iff.1 h).2.2] at hs
  exact isWord_of_defines ((syntaxTree_names source).child hs) hb

end BareCallGraph
