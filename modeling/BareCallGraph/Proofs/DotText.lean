import BareCallGraph.Export.Dot
import BareCallGraph.Proofs.GraphSets

/-!
# Graphs read back from Graphviz texts

A Graphviz text is made of names in quotes and of characters outside of quotes. `tokens` takes a text
apart: a quote ends a name unless a backslash protects it, and a backslash protects any character that
follows. Statements end at semicolons outside of quotes. One that is a single name says that there is a
node, one with an arrow between two names that there is an edge, and all others are about the looks of
the graph.

A quoted name is one token, whatever characters it has and whatever follows. So the statements that are
read from the text of a graph are one for each node and one for each edge, and nothing a name says adds
to them.
-/

namespace BareCallGraph.Export.Dot

/-! ## Reading a text -/

/-- A piece of a Graphviz text. -/
inductive Token where
  /-- A character outside of quotes. -/
  | plain (c : Char)
  /-- A name in quotes. -/
  | name (text : String)
deriving DecidableEq, Repr

/-- Takes a text apart. Inside of quotes it is known what was read of the name, last character first. A
text that ends inside of quotes cannot be taken apart. -/
def tokens : Option (List Char) → List Char → Option (List Token)
  | none, [] => some []
  | some _, [] => none
  | none, c :: cs =>
    if c = '\x22' then tokens (some []) cs else (tokens none cs).map (.plain c :: ·)
  | some before, '\\' :: c :: cs => tokens (some (c :: before)) cs
  | some before, c :: cs =>
    if c = '\x22' then (tokens none cs).map (.name (String.ofList before.reverse) :: ·)
    else tokens (some (c :: before)) cs

/-- What a text says about a graph. -/
inductive Statement where
  /-- There is a node of this name. -/
  | node (name : String)
  /-- There is an edge. -/
  | edge (e : Edge)
deriving DecidableEq, Repr

/-- Whether a token is a blank outside of quotes. -/
def Token.isBlank : Token → Bool
  | plain c => c == ' ' || c == '\n'
  | name _ => false

/-- Whether a token ends a statement. -/
def Token.isEnd (t : Token) : Bool := t == .plain ';'

/-- The statement that some tokens make, if it is about a node or an edge. -/
def statement? (ts : List Token) : Option Statement :=
  match ts.filter (!·.isBlank) with
  | [.name name] => some (.node name)
  | [.name caller, .plain '-', .plain '>', .name callee] => some (.edge ⟨caller, callee⟩)
  | _ => none

/-- The statements about nodes and edges that tokens make, in order. -/
def statements (ts : List Token) : List Statement :=
  (ts.splitOnP Token.isEnd).filterMap statement?

/-- The statements about nodes and edges of a text, in order. -/
def read (text : String) : Option (List Statement) := (tokens none text.toList).map statements

/-- The graph that has what statements say. -/
def graphOf (ss : List Statement) : CallGraph where
  nodes := .ofList (ss.filterMap fun | .node name => some name | .edge _ => none)
  edges := .ofList (ss.filterMap fun | .edge e => some e | .node _ => none)

/-! ## Tokens of written texts -/

/-- Some characters, whatever follows them, are taken apart into some tokens. -/
def Yields (cs : List Char) (ts : List Token) : Prop :=
  ∀ rest, tokens none (cs ++ rest) = (tokens none rest).map (ts ++ ·)

/-- Characters behind one another yield their tokens behind one another. -/
theorem Yields.append {cs ds : List Char} {ts us : List Token} (h : Yields cs ts)
    (h' : Yields ds us) : Yields (cs ++ ds) (ts ++ us) := by
  intro rest
  rw [List.append_assoc, h, h', Option.map_map]
  congr 1
  funext later
  exact (List.append_assoc ts us later).symm

/-- Characters without a quote among them stand for themselves. -/
theorem yields_plain {cs : List Char} (h : '\x22' ∉ cs) : Yields cs (cs.map .plain) := by
  intro rest
  induction cs with
  | nil => simp
  | cons c cs ih =>
    obtain ⟨hc, hcs⟩ : '\x22' ≠ c ∧ '\x22' ∉ cs := by simpa using h
    rw [List.cons_append, tokens, if_neg (Ne.symm hc), ih hcs, Option.map_map]
    rfl

/-- How one character is written inside of quotes. -/
def escapeChar (c : Char) : List Char :=
  if c = '\\' ∨ c = '\x22' then ['\\', c] else [c]

/-- Doubling the backslashes and then putting one before each quote writes every character by itself. -/
theorem escape_eq_flatMap (text : List Char) : escape text = text.flatMap escapeChar := by
  rw [escape, replace, replace, List.flatMap_assoc]
  congr 1
  funext c
  by_cases hbackslash : c = '\\'
  · simp [escapeChar, hbackslash]
  · by_cases hquote : c = '\x22' <;> simp [escapeChar, hbackslash, hquote]

/-- Inside of quotes a character is read from the way it is written. -/
theorem tokens_escapeChar (before : List Char) (c : Char) (rest : List Char) :
    tokens (some before) (escapeChar c ++ rest) = tokens (some (c :: before)) rest := by
  unfold escapeChar
  split
  · rfl
  · next h =>
    obtain ⟨hbackslash, hquote⟩ := not_or.1 h
    rw [List.singleton_append, tokens.eq_def]
    split <;> simp_all

/-- Inside of quotes a text is read from the way it is written. -/
theorem tokens_escape (before cs rest : List Char) :
    tokens (some before) (escape cs ++ rest) = tokens (some (cs.reverse ++ before)) rest := by
  rw [escape_eq_flatMap]
  induction cs generalizing before with
  | nil => rfl
  | cons c cs ih =>
    rw [List.flatMap_cons, List.append_assoc, tokens_escapeChar, ih]
    simp

/-- A quoted name is one token. -/
theorem yields_quote (name : String) : Yields (quote name) [.name name] := by
  intro rest
  have hopen (cs : List Char) : tokens none ('\x22' :: cs) = tokens (some []) cs := rfl
  have hclose (before cs : List Char) : tokens (some before) ('\x22' :: cs) =
      (tokens none cs).map (.name (String.ofList before.reverse) :: ·) := rfl
  rw [quote, List.append_assoc, List.cons_append, hopen, tokens_escape, List.singleton_append, hclose]
  simp

/-- A piece of a written character is nothing, the backslash before it, or all of it. -/
theorem eq_of_isPrefix_escapeChar {c : Char} {p : List Char} (h : p <+: escapeChar c) :
    p = [] ∨ p = ['\\'] ∨ p = escapeChar c := by
  unfold escapeChar at h ⊢
  split at h
  · next hc =>
    simp only [List.prefix_cons_iff, List.prefix_nil] at h
    rw [if_pos hc]
    grind
  · next hc =>
    simp only [List.prefix_cons_iff, List.prefix_nil] at h
    rw [if_neg hc]
    grind

/-- A piece of a name does not get out of the quotes. -/
theorem tokens_eq_none_of_isPrefix {cs p : List Char} (h : p <+: escape cs)
    (before : List Char) : tokens (some before) p = none := by
  rw [escape_eq_flatMap] at h
  induction cs generalizing p before with
  | nil =>
    obtain rfl := List.prefix_nil.1 h
    rfl
  | cons c cs ih =>
    have hlonger {q : List Char} (hq : q <+: cs.flatMap escapeChar) :
        tokens (some before) (escapeChar c ++ q) = none := by
      rw [tokens_escapeChar]
      exact ih hq _
    rw [List.flatMap_cons] at h
    rcases List.prefix_or_prefix_of_prefix h (List.prefix_append _ _) with hp | hp
    · rcases eq_of_isPrefix_escapeChar hp with rfl | rfl | rfl
      · rfl
      · rfl
      · simpa using hlonger List.nil_prefix
    · obtain ⟨q, rfl⟩ := hp
      exact hlonger ((List.prefix_append_right_inj _).1 h)

/-- Quotes are closed by the last character and no earlier one. -/
theorem tokens_eq_none_of_isPrefix_quote {name : String} {p : List Char} (h : p <+: quote name)
    (hempty : p ≠ []) (hproper : p ≠ quote name) : tokens none p = none := by
  cases p with
  | nil => contradiction
  | cons c p =>
    obtain ⟨rfl, hp⟩ := List.cons_prefix_cons.1 h
    have hopen : tokens none ('\x22' :: p) = tokens (some []) p := rfl
    rw [hopen]
    rcases List.prefix_concat_iff.1 hp with rfl | hp
    · contradiction
    · exact tokens_eq_none_of_isPrefix hp []

/-! ## Statements of written texts -/

/-- A blank before a statement changes nothing. -/
theorem statements_blank {t : Token} (h : t.isBlank = true) (ts : List Token) :
    statements (t :: ts) = statements ts := by
  have hend : ¬ t.isEnd = true := by
    intro hend
    obtain rfl : t = .plain ';' := eq_of_beq hend
    contradiction
  have hstatement (us : List Token) : statement? (t :: us) = statement? us := by
    simp [statement?, h]
  unfold statements
  rw [List.splitOnP_cons_eq_if_modifyHead, if_neg hend]
  cases ts.splitOnP Token.isEnd with
  | nil => rfl
  | cons us rest => simp [List.filterMap_cons, hstatement]

/-- Tokens that make no statement, and are not ended within, make no statements. -/
theorem statements_eq_nil {ts : List Token} (hend : ∀ t ∈ ts, t.isEnd = false)
    (h : statement? ts = none) : statements ts = [] := by
  rw [statements, List.splitOnP_eq_singleton hend, List.filterMap_cons_none h, List.filterMap_nil]

/-- Some characters make some statements, whatever follows them. -/
def Says (cs : List Char) (ss : List Statement) : Prop :=
  ∀ rest, (tokens none (cs ++ rest)).map statements =
    (tokens none rest).map fun ts => ss ++ statements ts

/-- Characters behind one another make their statements behind one another. -/
theorem Says.append {cs ds : List Char} {ss us : List Statement} (h : Says cs ss) (h' : Says ds us) :
    Says (cs ++ ds) (ss ++ us) := by
  intro rest
  have hmap : (tokens none (ds ++ rest)).map (fun ts => ss ++ statements ts) =
      ((tokens none (ds ++ rest)).map statements).map (ss ++ ·) := by
    rw [Option.map_map]
    rfl
  rw [List.append_assoc, h, hmap, h', Option.map_map]
  congr 1
  funext ts
  exact (List.append_assoc ss us (statements ts)).symm

/-- No characters make no statements. -/
theorem says_nil : Says [] [] := by
  intro rest
  simp

/-- Texts that make one statement each make all of them, one after the other. -/
theorem says_flatMap {α : Type} {f : α → List Char} {g : α → Statement} (xs : List α)
    (h : ∀ x, Says (f x) [g x]) : Says (xs.flatMap f) (xs.map g) := by
  induction xs with
  | nil => exact says_nil
  | cons x xs ih =>
    rw [List.flatMap_cons, List.map_cons]
    exact (h x).append ih

/-- Characters up to a semicolon and the end of the line make the statement of their tokens. -/
theorem says_line {cs : List Char} {ts : List Token} (h : Yields cs ts) :
    Says (cs ++ [';', '\n']) (statements ts) := by
  intro rest
  have hend : Yields [';', '\n'] [.plain ';', .plain '\n'] := yields_plain (by simp)
  rw [h.append hend, Option.map_map]
  congr 1
  funext later
  have hsplit : (ts ++ .plain ';' :: .plain '\n' :: later).splitOnP Token.isEnd =
      ts.splitOnP Token.isEnd ++ (Token.plain '\n' :: later).splitOnP Token.isEnd :=
    List.splitOnP_append_cons _ _ rfl
  calc statements (ts ++ [.plain ';', .plain '\n'] ++ later)
      = statements ts ++ statements (.plain '\n' :: later) := by
        rw [List.append_assoc, List.cons_append, List.singleton_append, statements, hsplit,
          List.filterMap_append, ← statements, ← statements]
    _ = statements ts ++ statements later := by rw [statements_blank rfl]

/-- The line of a node says that there is the node. -/
theorem says_nodeLine (name : String) : Says (nodeLine name ++ ['\n']) [.node name] := by
  have hyields : Yields ("    ".toList ++ quote name) ("    ".toList.map .plain ++ [.name name]) :=
    (yields_plain (by simp)).append (yields_quote name)
  have hline : nodeLine name ++ ['\n'] = "    ".toList ++ quote name ++ [';', '\n'] :=
    List.append_assoc _ [';'] ['\n']
  rw [hline]
  exact says_line hyields

/-- The line of an edge says that there is the edge. -/
theorem says_edgeLine (e : Edge) : Says (edgeLine e ++ ['\n']) [.edge e] := by
  have hyields : Yields ("    ".toList ++ quote e.caller ++ " -> ".toList ++ quote e.callee)
      ("    ".toList.map .plain ++ [.name e.caller] ++ " -> ".toList.map .plain ++
        [.name e.callee]) :=
    (((yields_plain (by simp)).append (yields_quote e.caller)).append
      (yields_plain (by simp))).append (yields_quote e.callee)
  have hline : edgeLine e ++ ['\n'] =
      "    ".toList ++ quote e.caller ++ " -> ".toList ++ quote e.callee ++ [';', '\n'] :=
    List.append_assoc _ [';'] ['\n']
  rw [hline]
  exact says_line hyields

/-- The lines before those of the nodes say nothing about nodes and edges. -/
theorem says_heading : Says (heading.flatMap (· ++ ['\n'])) [] := by
  have hlines : heading.flatMap (· ++ ['\n']) =
      "digraph CallGraph \x7b\n    rankdir=LR".toList ++ [';', '\n'] ++
        ("    node [shape=box, fontname=".toList ++ quote "Helvetica" ++ [']'] ++ [';', '\n']) := by
    simp [heading, quote, escape, replace]
  have hdigraph : Says ("digraph CallGraph \x7b\n    rankdir=LR".toList ++ [';', '\n']) [] := by
    have hnothing : statements ("digraph CallGraph \x7b\n    rankdir=LR".toList.map .plain) = [] :=
      statements_eq_nil (by simp [Token.isEnd]) (by simp [statement?, Token.isBlank])
    rw [← hnothing]
    exact says_line (yields_plain (by simp))
  have hlooks : Says ("    node [shape=box, fontname=".toList ++ quote "Helvetica" ++ [']'] ++
      [';', '\n']) [] := by
    have hnothing : statements ("    node [shape=box, fontname=".toList.map .plain ++
        [.name "Helvetica"] ++ [']'].map .plain) = [] :=
      statements_eq_nil (by simp [Token.isEnd]) (by simp [statement?, Token.isBlank])
    rw [← hnothing]
    exact says_line (((yields_plain (by simp)).append (yields_quote "Helvetica")).append
      (yields_plain (by simp)))
  rw [hlines]
  exact hdigraph.append hlooks

/-- The statements of the text of a graph: one for each node and one for each edge, in order. -/
theorem read_render (g : CallGraph) : read (render g) =
    some (g.nodes.elements.map .node ++ g.edges.elements.map .edge) := by
  have hlines : (render g).toList = heading.flatMap (· ++ ['\n']) ++
      g.nodes.elements.flatMap (fun name => nodeLine name ++ ['\n']) ++
        g.edges.elements.flatMap (fun e => edgeLine e ++ ['\n']) ++ ['\x7d', '\n'] := by
    simp [render, lines, List.flatMap_map]
  have hsays := (says_heading.append (says_flatMap g.nodes.elements says_nodeLine)).append
    (says_flatMap g.edges.elements says_edgeLine)
  have hend : tokens none ['\x7d', '\n'] = some [.plain '\x7d', .plain '\n'] := rfl
  have hnothing : statements [.plain '\x7d', .plain '\n'] = [] := rfl
  rw [read, hlines, hsays, hend, Option.map_some, hnothing, List.append_nil, List.nil_append]

/-- The statements of a graph are those of no other one. -/
theorem graphOf_statements (g : CallGraph) :
    graphOf (g.nodes.elements.map .node ++ g.edges.elements.map .edge) = g := by
  refine CallGraph.eq_of_mem (fun q => ?_) (fun e => ?_)
  · rw [graphOf, SortedSet.mem_ofList, SortedSet.mem_iff]
    simp [List.filterMap_map]
  · rw [graphOf, SortedSet.mem_ofList, SortedSet.mem_iff]
    simp [List.filterMap_map]

/-- Graphviz texts lose nothing and say nothing else. The statements about nodes and edges that are read
from the text of a graph are one for each node and one for each edge, so that the graph is read back, and
no two graphs have one text. A quoted name is one token, whatever follows: it goes up to its last
character and is not closed before. -/
theorem dot_lossless :
    (∀ g, read (render g) = some (g.nodes.elements.map .node ++ g.edges.elements.map .edge)) ∧
    (∀ g, (read (render g)).map graphOf = some g) ∧ Function.Injective render ∧
    (∀ name rest, tokens none (quote name ++ rest) = (tokens none rest).map (.name name :: ·)) ∧
    ∀ name p, p <+: quote name → p ≠ [] → p ≠ quote name → tokens none p = none := by
  have hback (g : CallGraph) : (read (render g)).map graphOf = some g := by
    rw [read_render, Option.map_some, graphOf_statements]
  refine ⟨read_render, hback, ?_, yields_quote, ?_⟩
  · intro g h heq
    have := hback g
    rw [heq, hback h] at this
    exact (Option.some.inj this).symm
  · intro name p
    exact tokens_eq_none_of_isPrefix_quote

/-- A graph whose names look like pieces of a Graphviz text. -/
def hostileGraph : CallGraph where
  nodes := ⟨["\" -> \"x", "\";\n    \"y", "\\", "\\\";\n\x7d"], by decide⟩
  edges := ⟨[⟨"\\", "\" -> \"x"⟩, ⟨"\\\"", "\n;"⟩], by decide⟩

/-- The sample is read back. The quotes of one of its names are not closed by the quote in the name. -/
theorem hostileGraph_read :
    read (render hostileGraph) = some [.node "\" -> \"x", .node "\";\n    \"y", .node "\\",
      .node "\\\";\n\x7d", .edge ⟨"\\", "\" -> \"x"⟩, .edge ⟨"\\\"", "\n;"⟩] ∧
    tokens none "\"\\\"".toList = none := by
  obtain ⟨hread, -, -, -, hopen⟩ := dot_lossless
  exact ⟨hread hostileGraph, hopen "\" -> \"x" _ (by decide) (by decide) (by decide)⟩

end BareCallGraph.Export.Dot
