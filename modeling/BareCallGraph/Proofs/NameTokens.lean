import BareCallGraph.Proofs.DefinitionShapes
import BareCallGraph.Proofs.Places
import BareCallGraph.Proofs.Preorder

/-!
# Names are identifiers of the text

In the tree of a text a name is a whole word that stands in the text where the name says it does, never a
piece of a longer word (`Python.syntaxTree_identifiers`). Cutting the bytes of a name out of the text
therefore succeeds and gives the name (`slice?_of_standsAt`), whatever characters come before it, so
functions and calls that are read by cutting are those that the tree holds.
-/

namespace BareCallGraph

/-! ## Cutting bytes out of a text -/

/-- The characters between two bytes of a text. There is nothing to cut out if one of the two is behind
the end, or inside a character, or if they are in the wrong order. -/
def slice? (text : String) (first last : Nat) : Option String :=
  if h : String.Pos.Raw.IsValid text ⟨first⟩ ∧ String.Pos.Raw.IsValid text ⟨last⟩ ∧ first ≤ last then
    some (String.extract ⟨⟨first⟩, h.1⟩ ⟨⟨last⟩, h.2.1⟩)
  else none

/-- What stands between two parts of a text is cut out of it by the sizes of the parts. -/
theorem slice?_append (before cut after : String) :
    slice? (before ++ cut ++ after) before.utf8ByteSize (before.utf8ByteSize + cut.utf8ByteSize) =
      some cut := by
  have hfirst : String.Pos.Raw.IsValid (before ++ cut ++ after) ⟨before.utf8ByteSize⟩ :=
    String.Pos.Raw.isValid_iff_exists_append.2 ⟨before, cut ++ after, String.append_assoc, rfl⟩
  have hlast : String.Pos.Raw.IsValid (before ++ cut ++ after)
      ⟨before.utf8ByteSize + cut.utf8ByteSize⟩ := by
    refine String.Pos.Raw.isValid_iff_exists_append.2 ⟨before ++ cut, after, rfl, ?_⟩
    rw [String.rawEndPos, String.utf8ByteSize_append]
  have hcut : (before.toByteArray ++ (cut.toByteArray ++ after.toByteArray)).extract
      (before.toByteArray.size + 0) (before.toByteArray.size + cut.toByteArray.size) =
        cut.toByteArray := by
    rw [ByteArray.extract_append_size_add, ByteArray.extract_append_eq_left rfl]
  rw [slice?, dif_pos ⟨hfirst, hlast, Nat.le_add_right _ _⟩, Option.some_inj, ← String.toByteArray_inj,
    String.toByteArray_extract, String.toByteArray_append, String.toByteArray_append,
    ByteArray.append_assoc]
  exact hcut

/-- What stands at a place of a text is what is cut out there. -/
theorem slice?_of_standsAt {text cut : String} {p : Position}
    (h : StandsAt text.toList p cut.toList) :
    slice? text p.offset (p.offset + cut.utf8ByteSize) = some cut := by
  obtain ⟨before, after, htext, hp⟩ := h
  have htext : text = String.ofList before ++ cut ++ String.ofList after := by
    rw [← String.ofList_toList (s := text), htext, String.ofList_append, String.ofList_append,
      String.ofList_toList]
  rw [hp, Position.pastAll_start, htext]
  exact slice?_append _ _ _

/-! ## Functions and calls, with names read in some way -/

namespace SyntaxTree

section

variable (read : SyntaxTree → Option String)

/-- The name that an expression is, looking through parentheses. -/
def plainNameBy? (t : SyntaxTree) : Option String :=
  match t.kind with
  | .name => read t
  | .parenthesized =>
    match _h : t.content? with
    | some c => plainNameBy? c
    | none => none
  | _ => none
termination_by t.size
decreasing_by
  exact size_lt_of_mem_children (content?_mem _h)

/-- The name that a node calls bare, when the node is a call. -/
def calledNameBy? (t : SyntaxTree) : Option String :=
  if t.kind = .call then (t.child? .callee).bind (plainNameBy? read) else none

/-- The names called bare anywhere in a tree. -/
def bareCallsBy (t : SyntaxTree) : List String := t.preorder.filterMap (calledNameBy? read)

/-- The plain function that a statement defines. -/
def plainFunctionBy? (t : SyntaxTree) : Option TopLevelFunction := do
  let definition ← t.definition?
  if definition.isAsync then none
  else
    let name ← definition.child? .name
    let text ← read name
    some ⟨text, t⟩

/-- The plain functions defined at the top of a module. -/
def topLevelFunctionsBy (t : SyntaxTree) : List TopLevelFunction :=
  t.children.filterMap (plainFunctionBy? read)

/-- All names in a tree are read as they are. -/
def ReadsNames (t : SyntaxTree) : Prop :=
  ∀ n : SyntaxTree, n.Within t → n.kind = .name ∨ n.role = some .name → read n = some n.text

end

variable {read : SyntaxTree → Option String} {t : SyntaxTree}

/-- If all names in a tree are read as they are, so are those in a child. -/
theorem ReadsNames.child {c : SyntaxTree} (h : t.ReadsNames read) (hc : c ∈ t.children) :
    c.ReadsNames read :=
  fun n hn => h n (.inChild hc hn)

/-- If all names are read as they are, so is the name that an expression comes down to. -/
theorem ReadsNames.plainNameBy?_eq (h : t.ReadsNames read) : t.plainNameBy? read = t.plainName? := by
  induction t using plainName?.induct with
  | case1 t hn =>
    rw [plainName?_of_name hn, plainNameBy?, hn]
    exact h t .whole (.inl hn)
  | case2 t hp c hc ih =>
    rw [plainName?_of_content hp hc, ← ih (h.child (content?_mem hc)), plainNameBy?]
    simp only [hp]
    split
    · next x hx => rw [Option.some.inj (hx.symm.trans hc)]
    · next hx =>
      rw [hc] at hx
      contradiction
  | case3 t hp hc =>
    rw [plainName?_of_content_none hp hc, plainNameBy?]
    simp only [hp]
    split
    · next x hx =>
      rw [hc] at hx
      contradiction
    · rfl
  | case4 t hn hp =>
    rw [plainName?_of_other hn hp, plainNameBy?]
    split <;> simp_all

/-- If all names are read as they are, so is the name that a node calls. -/
theorem ReadsNames.calledNameBy?_eq (h : t.ReadsNames read) : t.calledNameBy? read = t.calledName? := by
  rw [calledNameBy?, calledName?, bareCallee?]
  split
  · refine Option.bind_congr fun callee hcallee => ?_
    exact (h.child (List.mem_of_find?_eq_some hcallee)).plainNameBy?_eq
  · rfl

/-- If all names are read as they are, so are the calls. -/
theorem ReadsNames.bareCallsBy_eq (h : t.ReadsNames read) : t.bareCallsBy read = t.bareCalls := by
  rw [bareCallsBy, bareCalls_eq_filterMap]
  refine List.filterMap_congr fun u hu => ReadsNames.calledNameBy?_eq ?_
  exact fun n hn => h n (hn.trans (mem_preorder.1 hu))

/-- If all names are read as they are, so is the function that a statement defines. -/
theorem ReadsNames.plainFunctionBy?_eq (h : t.ReadsNames read) :
    t.plainFunctionBy? read = t.plainFunction? := by
  rw [plainFunctionBy?, plainFunction?]
  refine Option.bind_congr fun d hd => ?_
  split
  · rfl
  · refine Option.bind_congr fun n hn => ?_
    have hrole := List.find?_some hn
    have hwithin : n.Within t :=
      .trans (.inChild (List.mem_of_find?_eq_some hn) .whole) (within_of_definition? hd)
    rw [h n hwithin (.inr (beq_iff_eq.1 hrole))]
    rfl

/-- If all names are read as they are, so are the functions. -/
theorem ReadsNames.topLevelFunctionsBy_eq (h : t.ReadsNames read) :
    t.topLevelFunctionsBy read = t.topLevelFunctions :=
  List.filterMap_congr fun _ hs => (h.child hs).plainFunctionBy?_eq

/-- A plain name is the text of a name in the expression. -/
theorem exists_name_of_plainName? {b : String} (h : t.plainName? = some b) :
    ∃ n : SyntaxTree, n.Within t ∧ n.kind = .name ∧ n.text = b := by
  induction t using plainName?.induct with
  | case1 t hn =>
    rw [plainName?_of_name hn] at h
    exact ⟨t, .whole, hn, Option.some.inj h⟩
  | case2 t hp c hc ih =>
    rw [plainName?_of_content hp hc] at h
    obtain ⟨n, hn, hname⟩ := ih h
    exact ⟨n, .inChild (content?_mem hc) hn, hname⟩
  | case3 t hp hc =>
    rw [plainName?_of_content_none hp hc] at h
    contradiction
  | case4 t hn hp =>
    rw [plainName?_of_other hn hp] at h
    contradiction

/-- The name that a call calls is the text of a name within the call. -/
theorem exists_name_of_calledName? {b : String} (h : t.calledName? = some b) :
    t.kind = .call ∧ ∃ n : SyntaxTree, n.Within t ∧ n.kind = .name ∧ n.text = b := by
  unfold calledName? at h
  split at h
  · next hkind =>
    obtain ⟨callee, hcallee, hb⟩ := Option.bind_eq_some_iff.1 h
    obtain ⟨n, hn, hname⟩ := exists_name_of_plainName? hb
    exact ⟨hkind, n, .inChild (List.mem_of_find?_eq_some hcallee) hn, hname⟩
  · contradiction

end SyntaxTree

/-! ## The names of a tree -/

namespace Python

open Grammar (Definition Derivation Mark Outcome Token)

/-- A token is shown as a name only if it is marked as one or is an identifier. -/
theorem leafKind?_eq_name {mark : Mark} {token : Token Terminal} (h : leafKind? mark token = some .name) :
    mark.kind = some .name ∨ token.terminal = .identifier := by
  rw [leafKind?, Option.orElse_eq_orElse, Option.orElse_eq_or, Option.or_eq_some_iff] at h
  rcases h with hmark | ⟨-, hkind⟩
  · exact .inl hmark
  · refine .inr ?_
    generalize token.terminal = t at hkind
    cases t with
    | identifier => rfl
    | _ => cases hkind

/-- No phrase is a name by itself. -/
theorem phraseKind?_eq_name {n symbol : Nat} {mark : Mark} (h : phraseKind? n mark symbol = some .name) :
    mark.kind = some .name := by
  refine (phraseKind?_eq_some h).resolve_right fun ⟨_, hkind⟩ => ?_
  rw [phraseKinds_getD, Option.bind_eq_some_iff] at hkind
  obtain ⟨phrase, -, hkind⟩ := hkind
  cases phrase <;> cases hkind

section

variable {g : Definition Terminal Nonterminal} {mark : Mark} {d : Derivation Terminal} {u : SyntaxTree}
  {n : Nat} {text : List Char}

/-- A token that is shown as a name, or plays the part of one, is a word. -/
theorem Follows.isWord {symbol : Nat} {token : Token Terminal} {stop : Position}
    (h : Follows g mark (.leaf symbol token stop))
    (hname : leafKind? mark token = some .name ∨ mark.role = some .name) :
    token.terminal.isWord = true := by
  have hidentifier (hterminal : token.terminal = .identifier) : token.terminal.isWord = true := by
    rw [hterminal]
    rfl
  cases h with
  | derives derives fits =>
    cases derives with
    | leaf terminal _ =>
      rcases hname with hname | hname
      · rcases leafKind?_eq_name hname with hmark | hterminal
        · have hkeyword : ∀ t ∈ softKeywords, t.isWord = true := by decide
          obtain ⟨t, ht, hsymbol⟩ := fits.kind hmark
          rw [terminal_eq_of_number terminal hsymbol]
          exact hkeyword t ht
        · exact hidentifier hterminal
      · exact hidentifier (terminal_eq_of_number terminal (fits.role hname))
  | extra unmarked role =>
    rcases hname with hname | hname
    · rcases leafKind?_eq_name hname with hmark | hterminal
      · rw [unmarked] at hmark
        contradiction
      · exact hidentifier hterminal
    · exact absurd hname role

/-- No phrase is shown as a name or plays the part of one. -/
theorem Follows.phrase_ne_name (hg : NamesIdentifiers g) {symbol : Nat} {weight : Int}
    {start stop : Position} {parts : List (Mark × Derivation Terminal)}
    (h : Follows g mark (.phrase symbol weight start stop parts)) :
    phraseKind? n mark symbol ≠ some .name ∧ mark.role ≠ some .name := by
  cases h with
  | derives derives fits =>
    cases derives with
    | phrase =>
      constructor
      · intro hkind
        obtain ⟨t, ht, hsymbol⟩ := fits.kind (phraseKind?_eq_name hkind)
        exact hg.ne_phrase (.tail _ ht) _ hsymbol
      · exact fun hrole => hg.ne_phrase (.head _) _ (fits.role hrole)

/-- A name is what a word is shown as. -/
theorem Follows.exists_word (hg : NamesIdentifiers g) (h : Follows g mark d) (hu : ShownAs n mark d u)
    (hname : u.kind = .name ∨ u.role = some .name) :
    ∃ symbol token stop, d = .leaf symbol token stop ∧ token.terminal.isWord = true ∧
      u.start = token.start ∧ u.text.toList = token.text := by
  cases hu with
  | @token symbol token stop kind shown =>
    have hshown : leafKind? mark token = some .name ∨ mark.role = some .name :=
      hname.imp_left fun hkind : kind = .name => hkind ▸ shown
    exact ⟨symbol, token, stop, rfl, h.isWord hshown, rfl, String.toList_ofList⟩
  | @phrase _ _ _ _ _ kind shown =>
    obtain ⟨hkind, hrole⟩ := h.phrase_ne_name hg
    rcases hname with hname | hname
    · have hname : kind = .name := hname
      exact absurd (hname ▸ shown) hkind
    · exact absurd hname hrole

/-- In a tree of what was read from a text, a name is an identifier of the text. -/
theorem identifierAt_of_within (hg : NamesIdentifiers g) {outcome : Outcome Terminal}
    (hsound : outcome.Sound g vocabulary) (hplaced : outcome.PlacedIn text (WholeWord text))
    (hu : u.Within (treeOf n outcome)) (hname : u.kind = .name ∨ u.role = some .name) :
    IdentifierAt text u.start u.text.toList := by
  have hpasses : PassesOn n fun mark d => Follows g mark d ∧ d.PlacedIn text (WholeWord text) :=
    (hg.passesOn n).and (passesOn_placedIn n)
  have hpieces : ∀ p ∈ pieces outcome, Follows g p.1 p.2 ∧ p.2.PlacedIn text (WholeWord text) :=
    fun p hp => ⟨hg.follows_pieces hsound p hp, placedIn_pieces hplaced p hp⟩
  rcases shownAs_of_within_treeOf hpasses hpieces hu with
    ⟨hkind, hrole⟩ | ⟨mark, d, ⟨hfollows, hplaced⟩, hshown⟩
  · rcases hname with hname | hname
    · rw [hname] at hkind
      simp at hkind
    · rw [hrole] at hname
      contradiction
  · obtain ⟨symbol, token, stop, rfl, hword, hstart, htext⟩ := hfollows.exists_word hg hshown hname
    cases hplaced with
    | leaf _ found =>
      rw [hstart, htext]
      exact found hword

end

/-- In the tree of every text a name is an identifier of the text. -/
theorem syntaxTree_identifiers (source : String) {u : SyntaxTree} (hu : u.Within (syntaxTree source))
    (hname : u.kind = .name ∨ u.role = some .name) :
    IdentifierAt source.toList u.start u.text.toList :=
  identifierAt_of_within grammar_namesIdentifiers (read_sound source) (read_placedIn source) hu hname

/-! ## What names are free of -/

/-- The characters that Unicode takes for white space. -/
def whiteSpace : List Char :=
  ['\t', '\n', '\x0b', '\x0c', '\r', ' ', '\u0085', '\u00a0', '\u1680', '\u2000', '\u2001', '\u2002',
    '\u2003', '\u2004', '\u2005', '\u2006', '\u2007', '\u2008', '\u2009', '\u200a', '\u2028', '\u2029',
    '\u202f', '\u205f', '\u3000']

/-- The characters that quote. -/
def quotes : List Char := ['\x22', '\x27', '\x60']

/-- A text that is not empty, and has neither dots nor white space nor quotes in it. -/
structure Unbroken (b : String) : Prop where
  /-- There is a character. -/
  nonempty : b ≠ ""
  /-- None is one of these. -/
  free : ∀ c ∈ b.toList, c ≠ '.' ∧ c ∉ whiteSpace ∧ c ∉ quotes

/-- A word is unbroken: no character of an identifier is a dot, white space or a quote. -/
theorem unbroken_of_isWord {b : String} (h : isWord b.toList = true) : Unbroken b := by
  have hfree : ∀ c ∈ '.' :: whiteSpace ++ quotes, c ∉ b.toList := by
    intro c hc
    have hpart : ('.' :: whiteSpace ++ quotes).all (fun c => !Text.isIdentifierPart c) = true := by
      decide +kernel
    have hc := List.all_eq_true.1 hpart c hc
    rw [Bool.not_eq_true'] at hc
    exact notMem_of_isWord h hc
  constructor
  · rintro rfl
    contradiction
  · intro c hc
    refine ⟨?_, fun hspace => ?_, fun hquote => ?_⟩
    · rintro rfl
      exact hfree '.' (.head _) hc
    · exact hfree c (List.mem_append_left _ (.tail _ hspace)) hc
    · exact hfree c (List.mem_append_right _ hquote) hc

end Python

/-- The characters of a text that a node stands for. -/
def SyntaxTree.cut? (source : String) (n : SyntaxTree) : Option String :=
  slice? source n.start.offset (n.start.offset + n.text.utf8ByteSize)

/-- The definitions in the tree of a text are whole, and names are identifiers of the text. -/
structure SyntaxTree.NamedAfter (t : SyntaxTree) (source : String) : Prop
    extends t.HasWholeDefinitions where
  /-- A name is an identifier at the place of its node. -/
  identifier : ∀ n : SyntaxTree, n.Within t → n.kind = .name ∨ n.role = some .name →
    Python.IdentifierAt source.toList n.start n.text.toList

/-- The name of a node is an identifier of the text at the place of the node, and what the text has
there. -/
structure SyntaxTree.NamesAt (source : String) (n : SyntaxTree) (b : String) : Prop where
  /-- It is the text of the node. -/
  text : n.text = b
  /-- It stands in the text, as a whole word. -/
  token : Python.IdentifierAt source.toList n.start b.toList
  /-- It can be cut out of the text. -/
  cut : n.cut? source = some b
  /-- It has no dots, white space or quotes in it. -/
  unbroken : Python.Unbroken b

/-- A parser names functions and calls after its texts. -/
def Parser.NamesTokens (p : Parser) : Prop :=
  ∀ file source m, p file source = .ok m → m.tree.NamedAfter source

/-- The parser of the language does. -/
theorem Python.parser_namesTokens : Parser.NamesTokens Python.parser := by
  intro file source m h
  rw [(Python.parser_eq_ok_iff.1 h).2.2]
  exact ⟨syntaxTree_definitions source, fun _ hn hname => syntaxTree_identifiers source hn hname⟩

namespace SyntaxTree

variable {t u : SyntaxTree} {source : String}

/-- A node with a name in a tree that is named after a text has its name from the text. -/
theorem NamedAfter.namesAt (h : t.NamedAfter source) {n : SyntaxTree} (hn : n.Within t)
    (hname : n.kind = .name ∨ n.role = some .name) : n.NamesAt source n.text := by
  have htoken := h.identifier n hn hname
  obtain ⟨before, after, htext, hstart, hword, -⟩ := htoken
  exact ⟨rfl, h.identifier n hn hname, slice?_of_standsAt ⟨before, after, htext, hstart⟩,
    Python.unbroken_of_isWord hword⟩

/-- Cutting the names out of the text gives the names in its tree. -/
theorem NamedAfter.readsNames (h : t.NamedAfter source) (hu : u.Within t) :
    u.ReadsNames (cut? source) :=
  fun _ hn hname => (h.namesAt (hn.trans hu) hname).cut

end SyntaxTree

/-- Names are identifiers of the text, and none is lost when names are cut out of it. In the tree of a
text that a parser of this sort accepts, the functions at the top are those of the statements that define
one, each once. The name of a function and the name that a call calls stand in the text where their nodes
are, as whole words. So functions and calls are the same when the bytes of the names are cut out of the
text, where a cut outside the text or inside a character would have lost one. -/
theorem names_are_identifiers :
    Python.parser.NamesTokens ∧
    ∀ (p : Parser), p.NamesTokens → ∀ file source m, p file source = .ok m →
      m.tree.topLevelFunctions.map (·.scope) = m.tree.children.filter SyntaxTree.holdsPlain ∧
      (∀ f ∈ m.tree.topLevelFunctions, ∃ d n, f.scope.definition? = some d ∧
        d.child? .name = some n ∧ n.NamesAt source f.name) ∧
      (∀ u : SyntaxTree, u.Within m.tree → ∀ b ∈ u.bareCalls, ∃ call n : SyntaxTree,
        call.Within u ∧ call.kind = .call ∧ n.Within call ∧ n.kind = .name ∧ n.NamesAt source b) ∧
      m.tree.topLevelFunctionsBy (SyntaxTree.cut? source) = m.tree.topLevelFunctions ∧
      ∀ u : SyntaxTree, u.Within m.tree → u.bareCallsBy (SyntaxTree.cut? source) = u.bareCalls := by
  refine ⟨Python.parser_namesTokens, ?_⟩
  intro p hp file source m hm
  have hnamed := hp file source m hm
  refine ⟨hnamed.scopes_eq, ?_, ?_, (hnamed.readsNames .whole).topLevelFunctionsBy_eq,
    fun u hu => (hnamed.readsNames hu).bareCallsBy_eq⟩
  · intro f hf
    obtain ⟨s, hs, hf⟩ := List.mem_filterMap.1 hf
    obtain ⟨hscope, d, hd, -, n, hn, htext⟩ := SyntaxTree.plainFunction?_eq_some_iff_definition?.1 hf
    have hrole := List.find?_some hn
    have hwithin : n.Within m.tree := .inChild hs (.trans
      (.inChild (List.mem_of_find?_eq_some hn) .whole) (SyntaxTree.within_of_definition? hd))
    rw [hscope, ← htext]
    exact ⟨d, n, hd, hn, hnamed.namesAt hwithin (.inr (beq_iff_eq.1 hrole))⟩
  · intro u hu b hb
    obtain ⟨call, hcall, hcalled⟩ := SyntaxTree.mem_bareCalls.1 hb
    obtain ⟨hkind, n, hn, hname, rfl⟩ := SyntaxTree.exists_name_of_calledName? hcalled
    exact ⟨call, n, hcall, hkind, hn, hname, hnamed.namesAt (hn.trans (hcall.trans hu)) (.inl hname)⟩

namespace AccentedNames

/-! ## Names with accents

A decorated function that calls another one. There are characters of two bytes before and in all names. -/

open TwoModules (leaf brackets callOf)

/-- The text. -/
def text : String := "# ж\n@é\ndef né():\n    (ñ)()\n"

/-- The name of the function. -/
def nameOfFunction : SyntaxTree := leaf .name (some .name) ⟨13, 3, 5⟩ "né"

/-- The name that is called. -/
def nameOfCallee : SyntaxTree := leaf .name none ⟨25, 4, 6⟩ "ñ"

/-- The call, of a name in parentheses. -/
def call : SyntaxTree :=
  callOf (.node .parenthesized (some .callee) ⟨24, 4, 5⟩ "" [leaf .token none ⟨24, 4, 5⟩ "(",
    nameOfCallee, leaf .token none ⟨27, 4, 8⟩ ")"]) ⟨28, 4, 9⟩

/-- The definition. -/
def definition : SyntaxTree :=
  .node .functionDefinition (some .definition) ⟨9, 3, 1⟩ "" [leaf .token none ⟨9, 3, 1⟩ "def",
    nameOfFunction, brackets ⟨16, 3, 8⟩, leaf .token none ⟨18, 3, 10⟩ ":",
    .node .other none ⟨24, 4, 5⟩ "" [.node .other none ⟨24, 4, 5⟩ "" [call]]]

/-- The name of the decorator. -/
def nameOfDecorator : SyntaxTree := leaf .name none ⟨6, 2, 2⟩ "é"

/-- The definition with its decorator. -/
def decorated : SyntaxTree :=
  .node .decoratedDefinition none ⟨5, 2, 1⟩ "" [.node .other none ⟨5, 2, 1⟩ ""
    [leaf .token none ⟨5, 2, 1⟩ "@", nameOfDecorator], definition]

/-- The tree of the text. -/
def tree : SyntaxTree :=
  .node .module none ⟨0, 1, 1⟩ "" [leaf .comment none ⟨0, 1, 1⟩ "# ж", decorated]

/-- Reads the text and no other. -/
def parser : Parser := fun file source =>
  if source = text then .ok ⟨file.module, tree⟩ else .error (.parse file.path 1 1)

/-- A word that a cursor in the text comes to is an identifier of the text. -/
theorem identifierAt {n : Nat} {p : Position} {name : String}
    (hp : ((Cursor.ofString text).skip n).position = p)
    (hlength : Text.identifierLength ((Cursor.ofString text).skip n).rest = name.toList.length)
    (hname : ((Cursor.ofString text).skip n).take name.toList.length = name.toList)
    (hne : name.toList.length ≠ 0) : Python.IdentifierAt text.toList p name.toList := by
  have hstart : (Cursor.ofString text).IsIn text.toList := ⟨[], rfl, rfl⟩
  rw [← hp, ← hname, ← hlength]
  exact Python.identifierAt_cursor (hstart.skip n) (hlength ▸ hne)

/-- The tree of the sample is named after its text. -/
theorem namedAfter : tree.NamedAfter text := by
  have hfunction : Python.IdentifierAt text.toList ⟨13, 3, 5⟩ "né".toList := by
    apply identifierAt (n := 11) <;> decide +kernel
  have hcallee : Python.IdentifierAt text.toList ⟨25, 4, 6⟩ "ñ".toList := by
    apply identifierAt (n := 22) <;> decide +kernel
  have hdecorator : Python.IdentifierAt text.toList ⟨6, 2, 2⟩ "é".toList := by
    apply identifierAt (n := 5) <;> decide +kernel
  have hnodes : ∀ u : SyntaxTree, u.Within tree →
      (u.kind = .functionDefinition → ∃ c ∈ u.children, c.kind = .name ∧ c.role = some .name) ∧
      (u.kind = .decoratedDefinition → ∀ c ∈ u.children, c.kind = .functionDefinition →
        u.child? .definition = some c) ∧
      (u.kind = .name ∨ u.role = some .name →
        Python.IdentifierAt text.toList u.start u.text.toList) := by
    simpa [tree, decorated, definition, nameOfFunction, nameOfCallee, nameOfDecorator, call, leaf,
      brackets, callOf, SyntaxTree.forall_within_node, SyntaxTree.child?] using
      And.intro hdecorator ⟨hfunction, hcallee⟩
  exact ⟨⟨fun u hu => (hnodes u hu).1, fun u hu => (hnodes u hu).2.1⟩, fun u hu => (hnodes u hu).2.2⟩

/-- The parser of the sample names functions and calls after its text. -/
theorem parser_namesTokens : parser.NamesTokens := by
  intro file source m h
  unfold parser at h
  split at h
  · next htext =>
    cases h
    rw [htext]
    exact namedAfter
  · contradiction

end AccentedNames

section AccentedNames

open AccentedNames

/-- The function and the call of the sample are found by cutting their names out of its text. -/
theorem accentedNames_are_identifiers :
    parser.NamesTokens ∧ ∃ m, parser ⟨⟨"m.py", []⟩, "m"⟩ text = .ok m ∧
      m.tree.topLevelFunctions.map (·.scope) = [decorated] ∧
      m.tree.topLevelFunctionsBy (SyntaxTree.cut? text) = [⟨"né", decorated⟩] ∧
      decorated.bareCallsBy (SyntaxTree.cut? text) = ["ñ"] ∧
      (∃ d n, decorated.definition? = some d ∧ d.child? .name = some n ∧ n.NamesAt text "né") ∧
      ∃ call n : SyntaxTree, call.Within decorated ∧ call.kind = .call ∧ n.Within call ∧
        n.kind = .name ∧ n.NamesAt text "ñ" := by
  have hparses : parser ⟨⟨"m.py", []⟩, "m"⟩ text = .ok ⟨"m", tree⟩ := if_pos rfl
  have hfunctions : tree.topLevelFunctions = [⟨"né", decorated⟩] := by rfl
  have hcalls : decorated.bareCalls = ["ñ"] := by decide +kernel
  have hwithin : decorated.Within tree := .inChild (.tail _ (.head _)) .whole
  obtain ⟨hscopes, hnames, hcalled, hcut, hcutCalls⟩ :=
    names_are_identifiers.2 _ parser_namesTokens _ _ _ hparses
  refine ⟨parser_namesTokens, _, hparses, ?_, ?_, ?_, ?_, ?_⟩
  · rw [hscopes]
    rfl
  · rw [hcut, hfunctions]
  · rw [hcutCalls decorated hwithin, hcalls]
  · refine hnames ⟨"né", decorated⟩ ?_
    rw [hfunctions]
    exact .head _
  · refine hcalled decorated hwithin "ñ" ?_
    rw [hcalls]
    exact .head _

end AccentedNames

end BareCallGraph
