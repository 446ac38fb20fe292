import BareCallGraph.Proofs.Places
import BareCallGraph.Proofs.Preorder

/-!
# The fault that is reported

A tree offends where it holds an error, a missing token or a statement of Python 2, at any depth. The
search with a stack finds an offence whenever there is one, and of several the first in pre-order. If
children lie within their parent and one behind the other, no other offence starts further to the front
(`LieBetween.pairwise`). So a parser that goes by the trees of texts accepts exactly the texts whose tree
does not offend, and names the place of the offence in all others; an analysis with it only ever handles
modules without offences. This holds whatever the trees are.
-/

namespace BareCallGraph

namespace SyntaxTree

/-- A node that no accepted module holds. -/
def Offends (u : SyntaxTree) : Prop :=
  u.kind = .error ∨ u.kind = .missing ∨ u.kind = .legacyStatement

/-- No node within the tree offends. -/
def Faultless (t : SyntaxTree) : Prop := ∀ u : SyntaxTree, u.Within t → ¬ u.Offends

/-- The node at an address offends, and all others that do have later addresses. -/
def FirstFaultAt (t : SyntaxTree) (a : List Nat) (u : SyntaxTree) : Prop :=
  t.nodeAt? a = some u ∧ u.Offends ∧
    ∀ b v, t.nodeAt? b = some v → v.Offends → a = b ∨ Precedes a b

/-- The kinds that count as faults are those of offending nodes. -/
theorem isFault_iff {u : SyntaxTree} : u.kind.isFault = true ↔ u.Offends := by
  unfold Offends
  cases u.kind <;> simp [Kind.isFault]

/-! ## The search -/

/-- The search finds the first faulty node of the pending trees in pre-order. -/
theorem firstFaultOf_eq_find? (pending : List SyntaxTree) :
    firstFaultOf pending = (pending.flatMap preorder).find? (·.kind.isFault) := by
  induction pending using stackInduction with
  | done => rw [firstFaultOf]; rfl
  | round t pending ih =>
    rw [firstFaultOf_cons, List.flatMap_cons, preorder_eq t, List.cons_append, List.find?_cons, ih,
      List.flatMap_append]
    cases t.kind.isFault <;> rfl

/-- The first fault is the first offending node of the traversal. -/
theorem firstFault?_eq_find? (t : SyntaxTree) :
    t.firstFault? = (t.preorder.find? (·.kind.isFault)).map start := by
  simp [firstFault?, firstFaultOf_eq_find?]

/-- There is no first fault exactly if the tree is faultless. -/
theorem firstFault?_eq_none_iff {t : SyntaxTree} : t.firstFault? = none ↔ t.Faultless := by
  simp only [firstFault?_eq_find?, Option.map_eq_none_iff, List.find?_eq_none, mem_preorder, isFault_iff,
    Faultless]

/-- The first faulty node in the list of all nodes has the first address. -/
theorem exists_firstFaultAt {t u : SyntaxTree} (h : t.preorder.find? (·.kind.isFault) = some u) :
    ∃ a, t.FirstFaultAt a u := by
  obtain ⟨hu, n, hn, hnth, hbefore⟩ := List.find?_eq_some_iff_getElem.1 h
  have hnode : t.addresses[n]?.bind t.nodeAt? = some u := by
    rw [← getElem?_preorder, List.getElem?_eq_getElem hn, hnth]
  obtain ⟨a, ha, hat⟩ := Option.bind_eq_some_iff.1 hnode
  refine ⟨a, hat, isFault_iff.1 hu, ?_⟩
  intro b v hb hv
  obtain ⟨k, hk⟩ := List.getElem?_of_mem (mem_addresses.2 (Option.isSome_of_eq_some hb))
  have hkth : t.preorder[k]? = some v := by rw [getElem?_preorder, hk, Option.bind_some, hb]
  obtain ⟨hklt, hkth⟩ := List.getElem?_eq_some_iff.1 hkth
  have hnk : n ≤ k := by
    refine Nat.le_of_not_lt fun hlt => ?_
    have hsound := hbefore k hlt
    rw [hkth, isFault_iff.2 hv] at hsound
    contradiction
  rcases Nat.lt_or_eq_of_le hnk with hlt | rfl
  · obtain ⟨hna, rfl⟩ := List.getElem?_eq_some_iff.1 ha
    obtain ⟨hkb, rfl⟩ := List.getElem?_eq_some_iff.1 hk
    exact .inr (List.pairwise_iff_getElem.1 t.pairwise_addresses n k hna hkb hlt)
  · exact .inl (Option.some.inj (ha.symm.trans hk))

/-- There is one first fault only. -/
theorem FirstFaultAt.unique {t u v : SyntaxTree} {a b : List Nat} (hu : t.FirstFaultAt a u)
    (hv : t.FirstFaultAt b v) : u = v := by
  have hab : a = b := by
    rcases hu.2.2 b v hv.1 hv.2.1 with heq | hlt
    · exact heq
    · exact ((hv.2.2 a u hu.1 hu.2.1).resolve_right hlt.asymm).symm
  subst hab
  exact Option.some.inj (hu.1.symm.trans hv.1)

/-- The search reports where the offence with the first address starts. -/
theorem firstFault?_eq_some_iff {t : SyntaxTree} {p : Position} :
    t.firstFault? = some p ↔ ∃ a u, t.FirstFaultAt a u ∧ u.start = p := by
  rw [firstFault?_eq_find?, Option.map_eq_some_iff]
  constructor
  · rintro ⟨u, hu, hp⟩
    obtain ⟨a, ha⟩ := exists_firstFaultAt hu
    exact ⟨a, u, ha, hp⟩
  · rintro ⟨a, u, hu, hp⟩
    have hmem : u ∈ t.preorder := by
      have hat : some u ∈ t.addresses.map t.nodeAt? :=
        List.mem_map.2 ⟨a, mem_addresses.2 (Option.isSome_of_eq_some hu.1), hu.1⟩
      rw [map_nodeAt?_addresses] at hat
      simpa using hat
    cases hfirst : t.preorder.find? (·.kind.isFault) with
    | none => exact absurd (isFault_iff.2 hu.2.1) (List.find?_eq_none.1 hfirst u hmem)
    | some v =>
      obtain ⟨b, hv⟩ := exists_firstFaultAt hfirst
      exact ⟨v, rfl, hv.unique hu ▸ hp⟩

/-! ## Source order -/

/-- Trees lie one behind the other between two places of a text, and so do the children of each: a tree
reaches from its start up to `stop`, with its children in between and the next tree behind. -/
inductive LieBetween : Nat → Nat → List SyntaxTree → Prop where
  | none {first last : Nat} (order : first ≤ last) : LieBetween first last []
  | next {first last : Nat} {t : SyntaxTree} {ts : List SyntaxTree} (stop : Nat)
      (starts : first ≤ t.start.offset) (children : LieBetween t.start.offset stop t.children)
      (behind : LieBetween stop last ts) : LieBetween first last (t :: ts)

/-- The children of every node lie within the node, one behind the other. -/
def InSourceOrder (t : SyntaxTree) : Prop := ∃ stop, LieBetween t.start.offset stop t.children

/-- Trees between two places need the first place not to be behind the last. -/
theorem LieBetween.le {first last : Nat} {ts : List SyntaxTree} (h : LieBetween first last ts) :
    first ≤ last := by
  induction h with
  | none order => exact order
  | next stop starts _ _ hchildren hbehind => exact Nat.le_trans starts (Nat.le_trans hchildren hbehind)

/-- A tree without children has its place. -/
theorem LieBetween.token {first last : Nat} {t : SyntaxTree} {ts : List SyntaxTree} (stop : Nat)
    (leaf : t.children = []) (starts : first ≤ t.start.offset) (stops : t.start.offset ≤ stop)
    (behind : LieBetween stop last ts) : LieBetween first last (t :: ts) := by
  refine .next stop starts ?_ behind
  rw [leaf]
  exact .none stops

/-- All nodes start between the two places. -/
theorem LieBetween.bounds {first last : Nat} {ts : List SyntaxTree} (h : LieBetween first last ts) :
    ∀ u ∈ ts.flatMap preorder, first ≤ u.start.offset ∧ u.start.offset ≤ last := by
  induction h with
  | none => simp
  | @next first last t ts stop starts children behind hchildren hbehind =>
    have hstop := children.le
    have hlast := behind.le
    intro u hu
    rw [List.flatMap_cons, preorder_eq, List.cons_append, List.mem_cons, List.mem_append] at hu
    rcases hu with rfl | hu | hu
    · omega
    · have := hchildren u hu
      omega
    · have := hbehind u hu
      omega

/-- In pre-order the nodes start further and further back. -/
theorem LieBetween.pairwise {first last : Nat} {ts : List SyntaxTree} (h : LieBetween first last ts) :
    (ts.flatMap preorder).Pairwise fun u v => u.start.offset ≤ v.start.offset := by
  induction h with
  | none => exact .nil
  | @next first last t ts stop starts children behind hchildren hbehind =>
    have hstop := children.le
    rw [List.flatMap_cons, preorder_eq, List.cons_append, List.pairwise_cons, List.pairwise_append]
    refine ⟨?_, hchildren, hbehind, ?_⟩
    · intro u hu
      rcases List.mem_append.1 hu with hu | hu
      · exact (children.bounds u hu).1
      · exact Nat.le_trans hstop (behind.bounds u hu).1
    · intro u hu v hv
      exact Nat.le_trans (children.bounds u hu).2 (behind.bounds v hv).1

/-- In a tree in source order the traversal goes through the text from front to back. -/
theorem InSourceOrder.pairwise {t : SyntaxTree} (h : t.InSourceOrder) :
    t.preorder.Pairwise fun u v => u.start.offset ≤ v.start.offset := by
  obtain ⟨stop, hchildren⟩ := h
  have hwhole : LieBetween t.start.offset stop [t] :=
    .next stop (Nat.le_refl _) hchildren (.none (Nat.le_refl _))
  simpa using hwhole.pairwise

/-- In a tree in source order no offence starts before the one that is reported. -/
theorem InSourceOrder.firstFault?_le {t u : SyntaxTree} {p : Position} (h : t.InSourceOrder)
    (hp : t.firstFault? = some p) (hu : u.Within t) (hoffends : u.Offends) :
    p.offset ≤ u.start.offset := by
  rw [firstFault?_eq_find?, Option.map_eq_some_iff] at hp
  obtain ⟨first, hfirst, rfl⟩ := hp
  obtain ⟨-, before, after, hnodes, hbefore⟩ := List.find?_eq_some_iff_append.1 hfirst
  have hpairwise := h.pairwise
  have hmem := mem_preorder.2 hu
  rw [hnodes] at hpairwise hmem
  rcases List.mem_append.1 hmem with hmem | hmem
  · have hsound := hbefore u hmem
    rw [isFault_iff.2 hoffends] at hsound
    contradiction
  · rcases List.mem_cons.1 hmem with rfl | hmem
    · exact Nat.le_refl _
    · exact List.rel_of_pairwise_cons (List.pairwise_append.1 hpairwise).2.1 hmem

end SyntaxTree

/-! ## What the parser accepts -/

/-- The parser accepts exactly the texts whose tree does not offend. -/
theorem Parser.ofTrees_accepts_iff {treeOf : String → SyntaxTree} {file : SourceFile} {source : String}
    {m : ParsedModule} :
    Parser.ofTrees treeOf file source = .ok m ↔ (treeOf source).Faultless ∧
      m.name = file.module ∧ m.tree = treeOf source := by
  rw [Parser.ofTrees_eq_ok_iff, SyntaxTree.firstFault?_eq_none_iff]

/-- The parser names the place of the first offence in all other texts. -/
theorem Parser.ofTrees_refuses_iff {treeOf : String → SyntaxTree} {file : SourceFile} {source : String}
    {e : AnalysisError} :
    Parser.ofTrees treeOf file source = .error e ↔ ∃ a u, (treeOf source).FirstFaultAt a u ∧
      e = .parse file.path u.start.line u.start.column := by
  rw [Parser.ofTrees_eq_error_iff]
  constructor
  · intro h
    obtain ⟨place, hplace, rfl⟩ := h
    obtain ⟨a, u, hu, rfl⟩ := SyntaxTree.firstFault?_eq_some_iff.1 hplace
    exact ⟨a, u, hu, rfl⟩
  · intro h
    obtain ⟨a, u, hu, rfl⟩ := h
    exact ⟨u.start, SyntaxTree.firstFault?_eq_some_iff.2 ⟨a, u, hu, rfl⟩, rfl⟩

namespace Analyzer

variable {a : Analyzer} {treeOf : String → SyntaxTree} {tree : FileTree} {root : String}

/-- With a parser that goes by trees, a file parses to a module that does not offend. -/
theorem ParsesTo.faultless (ha : a.parser = Parser.ofTrees treeOf) {file : SourceFile}
    {m : ParsedModule} (h : a.ParsesTo tree file m) : m.tree.Faultless := by
  obtain ⟨source, -, hparsed⟩ := h
  rw [ha, Parser.ofTrees_accepts_iff] at hparsed
  rw [hparsed.2.2]
  exact hparsed.1

/-- With a parser that goes by trees, an analysis reads modules that do not offend. -/
theorem Reads.faultless (ha : a.parser = Parser.ofTrees treeOf) {files : List SourceFile}
    {modules : List ParsedModule} (h : a.Reads tree root files modules) :
    ∀ m ∈ modules, m.tree.Faultless := by
  intro m hm
  obtain ⟨file, -, hparses⟩ := exists_of_forall₂ h.parsed.flip m hm
  exact ParsesTo.faultless ha hparses

end Analyzer

/-- The search for a fault is complete, and it reports the first one: first in pre-order in every tree,
and first in the text as well if the tree is in source order. A parser that goes by the trees of texts
therefore accepts a text exactly when no node of its tree offends, and otherwise names the line and the
column of the first one that does; no module that offends comes to the table or to the graph. The parser
of Python is such a parser, and in its trees lines and the bytes of a line are counted from one. -/
theorem faults_reported_exactly :
    (∀ t : SyntaxTree, (t.firstFault? = none ↔ t.Faultless) ∧
      (∀ p, t.firstFault? = some p ↔ ∃ a u, t.FirstFaultAt a u ∧ u.start = p) ∧
      (t.InSourceOrder → ∀ (p : Position) (u : SyntaxTree), t.firstFault? = some p → u.Within t →
        u.Offends → p.offset ≤ u.start.offset)) ∧
    (∀ (treeOf : String → SyntaxTree) (file : SourceFile) (source : String),
      (∀ m, Parser.ofTrees treeOf file source = .ok m ↔ (treeOf source).Faultless ∧
        m.name = file.module ∧ m.tree = treeOf source) ∧
      ∀ e, Parser.ofTrees treeOf file source = .error e ↔
        ∃ a u, (treeOf source).FirstFaultAt a u ∧
          e = .parse file.path u.start.line u.start.column) ∧
    (∀ (treeOf : String → SyntaxTree) (configuration : Configuration) (schedule : Schedule)
        (tree : FileTree) (root : String),
      let analyzer : Analyzer := ⟨configuration, Parser.ofTrees treeOf, schedule⟩
      (∀ file m, (analyzer.parseFile tree file).outcome = .ok m ↔
        analyzer.ParsesTo tree file m ∧ m.tree.Faultless) ∧
      (∀ table, (analyzer.collectDefinitions tree root).outcome = .ok table ↔
        ∃ files modules, analyzer.Reads tree root files modules ∧ (∀ m ∈ modules, m.tree.Faultless) ∧
          table = .ofModules modules) ∧
      (∀ graph, (analyzer.buildCallGraph tree root).outcome = .ok graph ↔
        ∃ files modules, analyzer.Reads tree root files modules ∧ (∀ m ∈ modules, m.tree.Faultless) ∧
          graph = .ofModules (.ofModules modules) modules)) ∧
    Python.parser = Parser.ofTrees Python.syntaxTree ∧
    ∀ (source : String) (u : SyntaxTree), u.Within (Python.syntaxTree source) →
      ∃ before after, source.toList = before ++ u.text.toList ++ after ∧
        u.start = ⟨(String.ofList before).utf8ByteSize, before.count '\n' + 1,
          (String.ofList (before.rtakeWhile (· != '\n'))).utf8ByteSize + 1⟩ := by
  refine ⟨?_, ?_, ?_, rfl, ?_⟩
  · intro t
    refine ⟨SyntaxTree.firstFault?_eq_none_iff, fun p => SyntaxTree.firstFault?_eq_some_iff, ?_⟩
    intro horder p u hp hu hoffends
    exact horder.firstFault?_le hp hu hoffends
  · intro treeOf file source
    exact ⟨fun m => Parser.ofTrees_accepts_iff, fun e => Parser.ofTrees_refuses_iff⟩
  · intro treeOf configuration schedule tree root analyzer
    have hparser : analyzer.parser = Parser.ofTrees treeOf := rfl
    refine ⟨fun file m => ?_, fun table => ?_, fun graph => ?_⟩
    · rw [Analyzer.parseFile_eq_ok_iff]
      exact (and_iff_left_of_imp (Analyzer.ParsesTo.faultless hparser)).symm
    · rw [Analyzer.collectDefinitions_eq_ok_iff]
      refine exists_congr fun files => exists_congr fun modules => and_congr_right fun hreads => ?_
      exact (and_iff_right (Analyzer.Reads.faultless hparser hreads)).symm
    · rw [Analyzer.buildCallGraph_eq_ok_iff]
      refine exists_congr fun files => exists_congr fun modules => and_congr_right fun hreads => ?_
      exact (and_iff_right (Analyzer.Reads.faultless hparser hreads)).symm
  · intro source u hu
    obtain ⟨before, after, hsource, hstart⟩ := Python.syntaxTree_placedIn source u hu
    exact ⟨before, after, hsource, hstart.trans (Position.pastAll_start before)⟩

namespace OffendingTree

open SyntaxTree (LieBetween)
open TwoModules (leaf brackets)

/-- A token without text in place of the name of a function. -/
def missingName : SyntaxTree := leaf .missing (some .name) ⟨3, 1, 4⟩ ""

/-- A statement of Python 2. -/
def printStatement : SyntaxTree :=
  .node .legacyStatement none ⟨8, 1, 9⟩ "" [leaf .token none ⟨8, 1, 9⟩ "print",
    leaf .name none ⟨14, 1, 15⟩ "x"]

/-- A tree of `def (): print x`, with two offences. -/
def tree : SyntaxTree :=
  .node .module none ⟨0, 1, 1⟩ "" [.node .functionDefinition none ⟨0, 1, 1⟩ ""
    [leaf .token none ⟨0, 1, 1⟩ "def", missingName, brackets ⟨4, 1, 5⟩, leaf .token none ⟨6, 1, 7⟩ ":",
      .node .other none ⟨8, 1, 9⟩ "" [printStatement]]]

/-- The tree of the sample is in source order. -/
theorem inSourceOrder_tree : tree.InSourceOrder := by
  have hbrackets : LieBetween 4 6 (brackets ⟨4, 1, 5⟩).children :=
    .token 5 rfl (by decide) (by decide) (.token 6 rfl (by decide) (by decide) (.none (by decide)))
  have hprint : LieBetween 8 15 printStatement.children :=
    .token 13 rfl (by decide) (by decide) (.token 15 rfl (by decide) (by decide) (.none (by decide)))
  have hbody : LieBetween 8 15 [printStatement] := .next 15 (by decide) hprint (.none (by decide))
  refine ⟨15, .next 15 (by decide) ?_ (.none (by decide))⟩
  refine .token 3 rfl (by decide) (by decide) (.token 3 rfl (by decide) (by decide) ?_)
  refine .next 6 (by decide) hbrackets (.token 7 rfl (by decide) (by decide) ?_)
  exact .next 15 (by decide) hbody (.none (by decide))

end OffendingTree

section OffendingTree

open OffendingTree

/-- Of a missing name and a statement of Python 2 behind it, the missing name is reported. -/
theorem offendingTree_reported :
    tree.InSourceOrder ∧ tree.firstFault? = some ⟨3, 1, 4⟩ ∧ printStatement.Within tree ∧
      printStatement.Offends ∧ 3 ≤ printStatement.start.offset := by
  have hreported : tree.firstFault? = some ⟨3, 1, 4⟩ := by decide +kernel
  have hwithin : printStatement.Within tree := by
    -- the statement is in the body, the last child of the definition
    have hbody : printStatement.Within (.node .other none ⟨8, 1, 9⟩ "" [printStatement]) :=
      .inChild (.head _) .whole
    exact .inChild (.head _) (.inChild (.tail _ (.tail _ (.tail _ (.tail _ (.head _))))) hbody)
  have hoffends : printStatement.Offends := .inr (.inr rfl)
  exact ⟨inSourceOrder_tree, hreported, hwithin, hoffends,
    (faults_reported_exactly.1 tree).2.2 inSourceOrder_tree _ _ hreported hwithin hoffends⟩

end OffendingTree

end BareCallGraph
