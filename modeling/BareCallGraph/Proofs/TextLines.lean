import BareCallGraph.Export.Text
import BareCallGraph.Proofs.EdgeIntegrity
import BareCallGraph.Proofs.FunctionNames
import BareCallGraph.Proofs.PathWinners
import Mathlib.Data.List.DropRight

/-!
# Graphs read back from plain texts

A plain text has no quotes, and the line of an edge can look like many edges. Still the graphs of source
trees are read back from their texts. The heading says how many of the lines that follow are nodes. What
stands behind the last dot of an edge's line is the bare name of the callee; the callee is one of the
nodes, and no other node has this bare name. So the line says where the caller ends.

For this a bare name must have no dot and no name a line feed (`Readable`). A function name is a word, so
both hold of a source tree if no file name has a line feed.
-/

namespace BareCallGraph

namespace Export.Text

/-! ## Reading a text -/

/-- The lines of a text, each of which ends with a line feed. -/
def linesOf (text : List Char) : List (List Char) := (text.splitOnP (· == '\n')).dropLast

/-- How many nodes a heading announces. -/
def announced (heading : List Char) : Nat :=
  Nat.ofDigitChars 10 ((heading.drop 2).takeWhile Char.isDigit) 0

/-- What stands behind the last dot. -/
def afterLastDot (cs : List Char) : List Char := cs.rtakeWhile (· != '.')

/-- The edge of a line. The callee is the node with the bare name that the line ends with, and the caller
is what the arrow and the callee leave. -/
def edgeOf? (nodes : List String) (line : List Char) : Option Edge :=
  (nodes.find? fun q => afterLastDot q.toList == afterLastDot line).map fun q =>
    ⟨String.ofList (line.take (line.length - (" -> ".toList ++ q.toList).length)), q⟩

/-- The graph of a text. -/
def read (text : String) : CallGraph :=
  let lines := linesOf text.toList
  let n := announced (lines.headD [])
  let nodes := (lines.tail.take n).map String.ofList
  ⟨.ofList nodes, .ofList ((lines.drop (n + 2)).filterMap (edgeOf? nodes))⟩

/-! ## Texts that are read back -/

/-- A graph that can be read back from its text. -/
structure Readable (g : CallGraph) : Prop where
  /-- No node has a line feed in its name. -/
  node : ∀ q ∈ g.nodes, '\n' ∉ q.toList
  /-- No caller has a line feed in its name. -/
  caller : ∀ e ∈ g.edges, '\n' ∉ e.caller.toList
  /-- Every callee is a node. -/
  callee : ∀ e ∈ g.edges, e.callee ∈ g.nodes
  /-- Every node has a bare name. -/
  dotted : ∀ q ∈ g.nodes, '.' ∈ q.toList
  /-- No two nodes have one bare name. -/
  apart : ∀ p ∈ g.nodes, ∀ q ∈ g.nodes, afterLastDot p.toList = afterLastDot q.toList → p = q

/-- Lines without line feeds are read back. -/
theorem linesOf_flatMap {lines : List (List Char)} (h : ∀ line ∈ lines, '\n' ∉ line) :
    linesOf (lines.flatMap fun line => line ++ ['\n']) = lines := by
  have hsplit : (lines.flatMap fun line => line ++ ['\n']).splitOnP (· == '\n') = lines ++ [[]] := by
    induction lines with
    | nil => rfl
    | cons line lines ih =>
      obtain ⟨hline, hlines⟩ := List.forall_mem_cons.1 h
      have hfirst : line.splitOnP (· == '\n') = [line] :=
        List.splitOnP_eq_singleton fun c hc => beq_eq_false_iff_ne.2 fun heq => hline (heq ▸ hc)
      rw [List.flatMap_cons, List.append_assoc, List.singleton_append,
        List.splitOnP_append_cons _ _ rfl, hfirst, ih hlines, List.singleton_append, List.cons_append]
  rw [linesOf, hsplit, List.dropLast_concat]

/-- The heading announces the nodes. -/
theorem announced_heading (g : CallGraph) : announced (heading g) = g.nodeCount := by
  have hrest : (heading g).drop 2 = Nat.toDigits 10 g.nodeCount ++
      (' ' :: ("functions, ".toList ++ Nat.toDigits 10 g.edgeCount ++ " calls".toList)) := by
    simp [heading]
  have hdigits : ((heading g).drop 2).takeWhile Char.isDigit = Nat.toDigits 10 g.nodeCount := by
    have hall : ∀ c ∈ Nat.toDigits 10 g.nodeCount, c.isDigit = true := fun c hc =>
      Nat.isDigit_of_mem_toDigits (by decide) (by decide) hc
    rw [hrest, List.takeWhile_append_of_pos hall, List.takeWhile_cons_of_neg (by decide),
      List.append_nil]
  rw [announced, hdigits, Nat.ofDigitChars_ten_toDigits]

/-- The heading is on one line. -/
theorem lineFeed_notMem_heading (g : CallGraph) : '\n' ∉ heading g := by
  have hdigits (n : Nat) : '\n' ∉ Nat.toDigits 10 n := fun h => by
    have hdigit := Nat.isDigit_of_mem_toDigits (by decide) (by decide) h
    contradiction
  simp [heading, hdigits]

/-- Behind a last dot everything is read. -/
theorem afterLastDot_append (before : List Char) {b : List Char} (hb : '.' ∉ b) :
    afterLastDot (before ++ '.' :: b) = b := by
  have hall : ∀ c ∈ b.reverse, (c != '.') = true := fun c hc =>
    bne_iff_ne.2 fun heq => hb (heq ▸ List.mem_reverse.1 hc)
  rw [afterLastDot, List.rtakeWhile, List.reverse_append, List.reverse_cons, List.append_assoc,
    List.takeWhile_append_of_pos hall, List.singleton_append, List.takeWhile_cons_of_neg (by simp),
    List.append_nil, List.reverse_reverse]

/-- What stands before a text with a dot in it does not matter to what is behind the last dot. -/
theorem afterLastDot_append_of_mem (before : List Char) {cs : List Char} (h : '.' ∈ cs) :
    afterLastDot (before ++ cs) = afterLastDot cs := by
  have hstops : (cs.reverse.takeWhile (· != '.')).length ≠ cs.reverse.length := by
    intro hlength
    have hself := (List.takeWhile_prefix (· != '.')).eq_of_length hlength
    have hdot := List.takeWhile_eq_self_iff.1 hself '.' (List.mem_reverse.2 h)
    contradiction
  rw [afterLastDot, List.rtakeWhile, List.reverse_append, List.takeWhile_append, if_neg hstops]
  rfl

/-- The line of an edge to a node is read as the edge. -/
theorem edgeOf?_edgeLine {g : CallGraph} (h : Readable g) {e : Edge} (hnode : e.callee ∈ g.nodes) :
    edgeOf? g.nodes.elements (edgeLine e) = some e := by
  have hlast : afterLastDot (edgeLine e) = afterLastDot e.callee.toList :=
    afterLastDot_append_of_mem _ (h.dotted _ hnode)
  have hfind : (g.nodes.elements.find? fun q =>
      afterLastDot q.toList == afterLastDot (edgeLine e)) = some e.callee := by
    cases hfound : g.nodes.elements.find? fun q =>
      afterLastDot q.toList == afterLastDot (edgeLine e) with
    | none =>
      have hnone := List.find?_eq_none.1 hfound e.callee hnode
      simp [hlast] at hnone
    | some q =>
      have hsame : afterLastDot q.toList = afterLastDot (edgeLine e) := by
        simpa using List.find?_some hfound
      rw [h.apart q (List.mem_of_find?_eq_some hfound) _ hnode (hsame.trans hlast)]
  have hcaller : (edgeLine e).take
      ((edgeLine e).length - (" -> ".toList ++ e.callee.toList).length) = e.caller.toList := by
    have hline : edgeLine e = e.caller.toList ++ (" -> ".toList ++ e.callee.toList) :=
      List.append_assoc _ _ _
    rw [hline, List.length_append, Nat.add_sub_cancel, List.take_left]
  rw [edgeOf?, hfind, Option.map_some, hcaller, String.ofList_toList]

/-- The line of an edge can be split into a caller, an arrow and a node in one way only. -/
theorem Readable.edgeLine_inj {g : CallGraph} (h : Readable g) {e f : Edge} (he : e.callee ∈ g.nodes)
    (hf : f.callee ∈ g.nodes) (heq : edgeLine f = edgeLine e) : f = e := by
  have hread := edgeOf?_edgeLine h hf
  rw [heq, edgeOf?_edgeLine h he] at hread
  exact (Option.some.inj hread).symm

/-- An edge of a graph that can be read back is on one line. -/
theorem lineFeed_notMem_edgeLine {g : CallGraph} (h : Readable g) {e : Edge} (he : e ∈ g.edges) :
    '\n' ∉ edgeLine e := by
  simp [edgeLine, h.caller e he, h.node _ (h.callee e he)]

/-- No line of such a graph has a line feed in it. -/
theorem lineFeed_notMem_lines {g : CallGraph} (h : Readable g) : ∀ line ∈ lines g, '\n' ∉ line := by
  intro line hline
  rcases List.mem_append.1 hline with hline | hline
  · rcases List.mem_append.1 hline with hline | hline
    · rcases List.mem_cons.1 hline with rfl | hline
      · exact lineFeed_notMem_heading g
      · obtain ⟨q, hq, rfl⟩ := List.mem_map.1 hline
        exact h.node q hq
    · split at hline
      · contradiction
      · rw [List.mem_singleton.1 hline]
        exact List.not_mem_nil
  · obtain ⟨e, he, rfl⟩ := List.mem_map.1 hline
    exact lineFeed_notMem_edgeLine h he

/-- Behind the heading, the nodes and the empty line come the edges. -/
theorem drop_lines (g : CallGraph) :
    (lines g).drop (g.nodeCount + 2) = g.edges.elements.map edgeLine := by
  have hnodes : (heading g :: g.nodes.elements.map String.toList).length = g.nodeCount + 1 := by
    rw [List.length_cons, List.length_map]
    rfl
  by_cases hedges : g.edges.isEmpty = true
  · have hnone : g.edges.elements = [] := List.isEmpty_iff.1 hedges
    rw [lines, if_pos hedges, hnone, List.map_nil, List.append_nil, List.append_nil]
    exact List.drop_eq_nil_of_le (by omega)
  · rw [lines, if_neg hedges]
    exact List.drop_left' (by rw [List.length_append, hnodes, List.length_singleton])

/-- A readable graph is read back. -/
theorem read_render {g : CallGraph} (h : Readable g) : read (render g) = g := by
  have hlines : linesOf (render g).toList = lines g := by
    rw [render, String.toList_ofList, linesOf_flatMap (lineFeed_notMem_lines h)]
  have hcount : announced ((lines g).headD []) = g.nodeCount := announced_heading g
  have hnodes : ((lines g).tail.take g.nodeCount).map String.ofList = g.nodes.elements := by
    have htail : (lines g).tail = g.nodes.elements.map String.toList ++
        ((if g.edges.isEmpty then [] else [[]]) ++ g.edges.elements.map edgeLine) :=
      List.append_assoc _ _ _
    have hlength : (g.nodes.elements.map String.toList).length = g.nodeCount := List.length_map _
    rw [htail, List.take_left' hlength, List.map_map]
    simp [Function.comp_def]
  have hedges : ((lines g).drop (g.nodeCount + 2)).filterMap (edgeOf? g.nodes.elements) =
      g.edges.elements := by
    rw [drop_lines, List.filterMap_map]
    have hread : ∀ e ∈ g.edges.elements, (edgeOf? g.nodes.elements ∘ edgeLine) e = some e :=
      fun e he => edgeOf?_edgeLine h (h.callee e he)
    rw [List.filterMap_congr hread, List.filterMap_some]
  rw [read, hlines, hcount, hnodes, hedges]
  exact CallGraph.eq_of_mem (fun q => SortedSet.mem_ofList) (fun e => SortedSet.mem_ofList)

/-- No two readable graphs have one text. -/
theorem eq_of_render_eq {g g' : CallGraph} (h : Readable g) (h' : Readable g')
    (heq : render g = render g') : g = g' := by
  rw [← read_render h, heq, read_render h']

end Export.Text

/-! ## The graphs of source trees -/

open Export.Text (Readable afterLastDot afterLastDot_append edgeLine eq_of_render_eq render)

/-- Modules with names on one line, whose functions are named by words. -/
structure PlainNames (modules : List ParsedModule) : Prop where
  /-- No module has a line feed in its name. -/
  module : ∀ m ∈ modules, '\n' ∉ m.name.toList
  /-- Functions are named by words. -/
  function : ∀ m ∈ modules, ∀ s ∈ m.tree.children, ∀ b, s.Defines b → Python.isWord b.toList = true

namespace PlainNames

variable {modules : List ParsedModule} {q : String}

/-- A function that is defined has no line feed in its qualified name. -/
theorem lineFeed_notMem (h : PlainNames modules) (hq : IsDefined modules q) : '\n' ∉ q.toList := by
  obtain ⟨m, hm, s, hs, b, hb, rfl⟩ := hq
  have hfunction : '\n' ∉ b.toList :=
    Python.notMem_of_isWord (h.function m hm s hs b hb) Text.isIdentifierPart_lineFeed
  simp [h.module m hm, hfunction]

/-- A name that was won has no dot in it. -/
theorem dot_notMem_of_winner (h : PlainNames modules) {b : String} (hq : Winner modules b q) :
    '.' ∉ b.toList := by
  obtain ⟨m, hm, s, hs, hb⟩ := hq.hasDefinition
  exact Python.notMem_of_isWord (h.function m hm s hs b hb) Text.isIdentifierPart_dot

/-- What stands behind the last dot of a winner is the name that it has won. -/
theorem afterLastDot_of_winner (h : PlainNames modules) {b : String} (hq : Winner modules b q) :
    afterLastDot q.toList = b.toList := by
  have hdot := h.dot_notMem_of_winner hq
  obtain ⟨-, m, -, -, -, -, -, rfl⟩ := hq
  rw [String.toList_append, String.toList_append, List.append_assoc]
  exact afterLastDot_append m.name.toList hdot

/-- The graph of such modules can be read back. -/
theorem readable (h : PlainNames modules) :
    Readable (CallGraph.ofModules (.ofModules modules) modules) where
  node q hq := h.lineFeed_notMem (CallGraph.isDefined_iff_mem_nodes.2 (.inl hq))
  caller e he := h.lineFeed_notMem (CallGraph.isDefined_caller he)
  callee e he := CallGraph.callee_mem_nodes he
  dotted q hq := by
    obtain ⟨m, -, s, -, b, -, rfl⟩ := CallGraph.isDefined_iff_mem_nodes.2 (.inl hq)
    simp
  apart p hp q hq hsame := by
    obtain ⟨b, hb⟩ := CallGraph.mem_nodes_ofModules.1 hp
    obtain ⟨c, hc⟩ := CallGraph.mem_nodes_ofModules.1 hq
    have hlast := h.afterLastDot_of_winner (NameTable.resolve?_ofModules.1 hb)
    have hlast' := h.afterLastDot_of_winner (NameTable.resolve?_ofModules.1 hc)
    have hbare : b = c := String.toList_inj.1 (hlast.symm.trans (hsame.trans hlast'))
    rw [hbare] at hb
    exact Option.some.inj (hb.symm.trans hc)

end PlainNames

namespace Analyzer

variable {a : Analyzer} {tree : FileTree} {root : String}

/-- No source file under a root has a line feed in its name. -/
def NamesOnOneLine (a : Analyzer) (tree : FileTree) (root : String) : Prop :=
  ∀ files, discover a.configuration tree root = .ok files →
    ∀ f ∈ files, ∀ name, f.path.fileName? = some name → '\n' ∉ name.toList

/-- A module has a line feed in its name only if its file has one. -/
theorem NamesOnOneLine.module {files : List SourceFile} (h : a.NamesOnOneLine tree root)
    (hfiles : discover a.configuration tree root = .ok files) {f : SourceFile} (hf : f ∈ files) :
    '\n' ∉ f.module.toList := by
  obtain ⟨base, hname, hmodule⟩ := module_of_mem_discover hfiles hf
  have hbase := h _ hfiles f hf _ hname
  rw [String.toList_append, List.mem_append, not_or] at hbase
  rw [hmodule]
  split
  · decide
  · exact hbase.1

/-- The modules of a source tree have plain names if the parser gives such names and the files have them.
-/
theorem Reads.plainNames {files : List SourceFile} {modules : List ParsedModule}
    (h : a.Reads tree root files modules) (hmodules : a.parser.NamesModules)
    (hwords : a.parser.NamesWords) (hnames : a.NamesOnOneLine tree root) : PlainNames modules where
  module m hm := by
    obtain ⟨f, hf, source, -, hparsed⟩ := exists_of_forall₂ h.parsed.flip m hm
    rw [hmodules f source m hparsed]
    exact hnames.module h.discovered hf
  function m hm := by
    obtain ⟨f, hf, source, -, hparsed⟩ := exists_of_forall₂ h.parsed.flip m hm
    exact hwords f source m hparsed

/-- The graph of a source tree can be read back from its text. -/
theorem readable_of_buildCallGraph {g : CallGraph} (hmodules : a.parser.NamesModules)
    (hwords : a.parser.NamesWords) (hnames : a.NamesOnOneLine tree root)
    (h : (a.buildCallGraph tree root).outcome = .ok g) : Readable g := by
  obtain ⟨files, modules, hreads, rfl⟩ := buildCallGraph_eq_ok_iff.1 h
  exact (hreads.plainNames hmodules hwords hnames).readable

end Analyzer

/-- The texts of the graphs of source trees lose nothing, if no source file has a line feed in its name.
The parser of the language names modules after their files and functions by words. With any such parser
every callee is a node, no two nodes have the same part behind their last dots, and the line of an edge
splits into a caller and a node in one way only. The text of the graph is that of no other graph of a
source tree. -/
theorem text_lossless :
    (Python.parser.NamesModules ∧ Python.parser.NamesWords) ∧
    ∀ (a : Analyzer) (tree : FileTree) (root : String) (g : CallGraph),
      a.parser.NamesModules → a.parser.NamesWords → a.NamesOnOneLine tree root →
      (a.buildCallGraph tree root).outcome = .ok g →
      (∀ e ∈ g.edges, e.callee ∈ g.nodes) ∧
      (∀ p ∈ g.nodes, ∀ q ∈ g.nodes, afterLastDot p.toList = afterLastDot q.toList → p = q) ∧
      (∀ e ∈ g.edges, ∀ f : Edge, f.callee ∈ g.nodes → edgeLine f = edgeLine e → f = e) ∧
      ∀ (a' : Analyzer) (tree' : FileTree) (root' : String) (g' : CallGraph),
        a'.parser.NamesModules → a'.parser.NamesWords → a'.NamesOnOneLine tree' root' →
        (a'.buildCallGraph tree' root').outcome = .ok g' → render g = render g' → g = g' := by
  refine ⟨⟨Python.parser_namesModules, Python.parser_namesWords⟩, ?_⟩
  intro a tree root g hmodules hwords hnames h
  have hg := Analyzer.readable_of_buildCallGraph hmodules hwords hnames h
  refine ⟨hg.callee, hg.apart, fun e he f hf => hg.edgeLine_inj (hg.callee e he) hf, ?_⟩
  intro a' tree' root' g' hmodules' hwords' hnames' h' heq
  exact eq_of_render_eq hg (Analyzer.readable_of_buildCallGraph hmodules' hwords' hnames' h') heq

namespace ArrowModule

/-! ## A module with an arrow in its name

The text of the sample module `a`, in a file whose name looks like a heading and an edge. The file is
analysed by itself, at the top of one tree and in a directory of another one. -/

open TwoModules

/-- The file. -/
def file : Entry := .file (.ofString "# 1 -> x.y.py") textA.toUTF8

/-- A tree with the file at its top. -/
def shallowTree : FileTree := { entries := [file], distinct := rfl }

/-- A tree with the file in a directory. -/
def deepTree : FileTree := { entries := [.directory (.ofString "repo") [file]], distinct := rfl }

/-- The module in the file. -/
def modules : List ParsedModule := [⟨"# 1 -> x.y", treeA⟩]

/-- The file at the top of a tree is the one that is discovered, and it parses. -/
theorem reads_shallowTree : analyzer.Reads shallowTree "# 1 -> x.y.py"
    [⟨⟨"# 1 -> x.y.py", []⟩, "# 1 -> x.y"⟩] modules where
  discovered := by decide +kernel
  parsed := .cons ⟨textA, by decide +kernel, rfl⟩ .nil

/-- So does the file in a directory. -/
theorem reads_deepTree : analyzer.Reads deepTree "repo/# 1 -> x.y.py"
    [⟨⟨"repo/# 1 -> x.y.py", []⟩, "# 1 -> x.y"⟩] modules where
  discovered := by decide +kernel
  parsed := .cons ⟨textA, by decide +kernel, rfl⟩ .nil

/-- What the parser of the two texts accepts. -/
theorem parser_cases {file : SourceFile} {source : String} {m : ParsedModule}
    (h : TwoModules.parser file source = .ok m) :
    m = ⟨file.module, treeA⟩ ∨ m = ⟨file.module, treeB⟩ := by
  unfold TwoModules.parser at h
  split at h
  · cases h
    exact .inl rfl
  · split at h <;> cases h
    exact .inr rfl

/-- The parser of the sample names modules after their files. -/
theorem parser_namesModules : analyzer.parser.NamesModules := by
  intro file source m h
  rcases parser_cases h with rfl | rfl <;> rfl

/-- The parser of the sample names functions by words. -/
theorem parser_namesWords : analyzer.parser.NamesWords := by
  intro file source m h s hs b hb
  have hfunctions : ∀ t ∈ [treeA, treeB], ∀ f ∈ t.topLevelFunctions,
      Python.isWord f.name.toList = true := by decide +kernel
  have htree : m.tree ∈ [treeA, treeB] := by rcases parser_cases h with rfl | rfl <;> simp
  exact hfunctions m.tree htree ⟨b, s⟩ (SyntaxTree.mem_topLevelFunctions.2 ⟨hs, hb⟩)

/-- A file that is analysed by itself has its name on one line if its path has. -/
theorem namesOnOneLine {tree : FileTree} {root : String} {file : SourceFile}
    (hfiles : discover {} tree root = .ok [file])
    (hname : file.path.fileName?.all (fun name => !name.toList.contains '\n') = true) :
    analyzer.NamesOnOneLine tree root := by
  intro files hdiscover f hf name hf'
  obtain rfl := Except.ok.inj (hfiles.symm.trans hdiscover)
  obtain rfl := List.mem_singleton.1 hf
  rw [hf'] at hname
  simpa using hname

/-- The edge from `f` to `g` of the module. -/
def edge : Edge := ⟨"# 1 -> x.y.f", "# 1 -> x.y.g"⟩

/-- Another edge with the same line. -/
def misread : Edge := ⟨"# 1", "x.y.f -> # 1 -> x.y.g"⟩

/-- Both trees have one text and one graph. The line of its edge could be that of another one, but no
node is what that one leads to. -/
theorem arrowModule_text :
    analyzer.NamesOnOneLine shallowTree "# 1 -> x.y.py" ∧
      analyzer.NamesOnOneLine deepTree "repo/# 1 -> x.y.py" ∧
      ∃ g g', (analyzer.buildCallGraph shallowTree "# 1 -> x.y.py").outcome = .ok g ∧
        (analyzer.buildCallGraph deepTree "repo/# 1 -> x.y.py").outcome = .ok g' ∧
        render g = render g' ∧ g = g' ∧
        edge ∈ g.edges ∧ edgeLine misread = edgeLine edge ∧ misread.callee ∉ g.nodes := by
  have hbuild := Analyzer.buildCallGraph_eq_ok_iff.2 ⟨_, _, reads_shallowTree, rfl⟩
  have hbuild' := Analyzer.buildCallGraph_eq_ok_iff.2 ⟨_, _, reads_deepTree, rfl⟩
  have hnames := namesOnOneLine reads_shallowTree.discovered (by decide +kernel)
  have hnames' := namesOnOneLine reads_deepTree.discovered (by decide +kernel)
  obtain ⟨-, -, hsplits, hlossless⟩ :=
    text_lossless.2 _ _ _ _ parser_namesModules parser_namesWords hnames hbuild
  have hedge : edge ∈ (CallGraph.ofModules (.ofModules modules) modules).edges := by
    rw [CallGraph.mem_edges_ofModules]
    decide +kernel
  have hline : edgeLine misread = edgeLine edge := by decide +kernel
  have hnode : misread.callee ∉ (CallGraph.ofModules (.ofModules modules) modules).nodes :=
    fun hnode => absurd (hsplits edge hedge misread hnode hline) (by decide)
  exact ⟨hnames, hnames', _, _, hbuild, hbuild', rfl,
    hlossless _ _ _ _ parser_namesModules parser_namesWords hnames' hbuild' rfl, hedge, hline, hnode⟩

end ArrowModule

end BareCallGraph
