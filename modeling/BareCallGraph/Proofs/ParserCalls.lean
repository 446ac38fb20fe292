import BareCallGraph.Proofs.FailureLaw

/-!
# What the parser is asked

An analysis hands the text of each file to the parser, and leaves an event of it. Where one file is
handled after the other, the calls of the parser are determined: all files twice over if each of them
parses, and otherwise the files up to the first one that fails, once. A file that cannot be read is not
handed over, and nothing is after a failure.

The events tell of all calls: a parser that gives the same answers to them gives the same run.
-/

namespace BareCallGraph

/-- A call of the parser: a file and its text. -/
abbrev ParserCall := SourceFile × String

/-- The call of the parser that an event tells of. -/
def Event.parserCall? : Event → Option ParserCall
  | .parsing file source => some (file, source)
  | _ => none

namespace Traced

variable {α β : Type} {x : Traced α} {f : α → Traced β} {e : AnalysisError}

/-- The calls of the parser in the course of a computation. -/
def parserCalls (x : Traced α) : List ParserCall := x.events.filterMap Event.parserCall?

/-- If the first of two computations succeeds, the calls of the second come behind its calls. -/
theorem parserCalls_bind_of_ok {v : α} (h : x.outcome = .ok v) :
    (x >>= f).parserCalls = x.parserCalls ++ (f v).parserCalls := by
  obtain ⟨events, outcome⟩ := x
  obtain rfl : outcome = .ok v := h
  exact List.filterMap_append

/-- A failure has no calls behind it. -/
theorem parserCalls_bind_of_error (h : x.outcome = .error e) :
    (x >>= f).parserCalls = x.parserCalls := by
  obtain ⟨events, outcome⟩ := x
  obtain rfl : outcome = .error e := h
  rfl

/-- What follows a computation makes no calls if it makes none on any value. -/
theorem parserCalls_bind_of_silent (h : ∀ v, (f v).parserCalls = []) :
    (x >>= f).parserCalls = x.parserCalls := by
  cases hx : x.outcome with
  | ok v => rw [parserCalls_bind_of_ok hx, h, List.append_nil]
  | error e => exact parserCalls_bind_of_error hx

variable {task : α → Traced β} {y : α} {ys : List α}

/-- If the first task succeeds, the calls of the others come behind its calls. -/
theorem parserCalls_mapM_of_ok {v : β} (h : (task y).outcome = .ok v) :
    ((y :: ys).mapM task).parserCalls = (task y).parserCalls ++ (ys.mapM task).parserCalls := by
  rw [List.mapM_cons, parserCalls_bind_of_ok h, parserCalls_bind_of_silent fun _ => rfl]

/-- If the first task fails, its calls are all. -/
theorem parserCalls_mapM_of_error (h : (task y).outcome = .error e) :
    ((y :: ys).mapM task).parserCalls = (task y).parserCalls := by
  rw [List.mapM_cons, parserCalls_bind_of_error h]

end Traced

namespace Analyzer

/-- A file can be read, and the parser accepts its text: the call of the parser that is made for it. -/
structure Accepts (a : Analyzer) (tree : FileTree) (file : SourceFile) (call : ParserCall) : Prop where
  /-- The file is handed over. -/
  handed : call.1 = file
  /-- Its text is handed over with it. -/
  text : tree.readText file.path.toPath = .ok call.2
  /-- The parser makes a module of it. -/
  parsed : ∃ m, a.parser file call.2 = .ok m

/-- The calls of the parser that an analysis of one file after the other is to make. -/
inductive Asks (a : Analyzer) (tree : FileTree) (root : String) : List ParserCall → Prop where
  /-- None, if discovery fails. -/
  | undiscovered {cause : WalkError} (failed : discover a.configuration tree root = .error cause) :
      Asks a tree root []
  /-- Those of all files twice over, if each of them reads and parses. -/
  | twice {files : List SourceFile} {calls : List ParserCall}
      (discovered : discover a.configuration tree root = .ok files)
      (accepted : List.Forall₂ (a.Accepts tree) files calls) : Asks a tree root (calls ++ calls)
  /-- Those of the files before the first failing one, if that one cannot be read. -/
  | unreadable {before after : List SourceFile} {file : SourceFile} {calls : List ParserCall}
      {cause : FileError}
      (discovered : discover a.configuration tree root = .ok (before ++ file :: after))
      (accepted : List.Forall₂ (a.Accepts tree) before calls)
      (failed : tree.readText file.path.toPath = .error cause) : Asks a tree root calls
  /-- Those of the files up to the first failing one, if the parser refuses that one. -/
  | refused {before after : List SourceFile} {file : SourceFile} {calls : List ParserCall}
      {source : String} {e : AnalysisError}
      (discovered : discover a.configuration tree root = .ok (before ++ file :: after))
      (accepted : List.Forall₂ (a.Accepts tree) before calls)
      (read : tree.readText file.path.toPath = .ok source)
      (failed : a.parser file source = .error e) : Asks a tree root (calls ++ [(file, source)])

variable {a : Analyzer} {tree : FileTree} {root : String} {file : SourceFile}
  {files before after : List SourceFile} {calls : List ParserCall}

/-! ## One file -/

/-- A file that can be read is one call. -/
theorem parserCalls_parseFile_of_ok {source : String}
    (h : tree.readText file.path.toPath = .ok source) :
    (a.parseFile tree file).parserCalls = [(file, source)] := by
  rw [parseFile, h]
  rfl

/-- A file that cannot be read is no call. -/
theorem parserCalls_parseFile_of_error {cause : FileError}
    (h : tree.readText file.path.toPath = .error cause) :
    (a.parseFile tree file).parserCalls = [] := by
  rw [parseFile, h]
  rfl

/-- A file that is accepted parses. -/
theorem Accepts.exists_parsesTo {call : ParserCall} (h : a.Accepts tree file call) :
    ∃ m, a.ParsesTo tree file m := by
  obtain ⟨m, hm⟩ := h.parsed
  exact ⟨m, call.2, h.text, hm⟩

/-- A file that is accepted is the call that it is accepted with. -/
theorem Accepts.parserCalls_parseFile {call : ParserCall} (h : a.Accepts tree file call) :
    (a.parseFile tree file).parserCalls = [call] := by
  rw [parserCalls_parseFile_of_ok h.text, ← h.handed]

/-- Files that the parser accepts parse. -/
theorem exists_parsesTo_of_accepts (h : List.Forall₂ (a.Accepts tree) files calls) :
    ∀ file ∈ files, ∃ m, a.ParsesTo tree file m := by
  intro file hfile
  obtain ⟨call, -, hcall⟩ := exists_of_forall₂ h file hfile
  exact hcall.exists_parsesTo

/-- A file that parses is accepted. -/
theorem ParsesTo.exists_accepts {m : ParsedModule} (h : a.ParsesTo tree file m) :
    ∃ call, a.Accepts tree file call := by
  obtain ⟨source, hread, hparsed⟩ := h
  exact ⟨(file, source), rfl, hread, m, hparsed⟩

/-! ## One pass -/

section Pass

variable {α : Type} {f : ParsedModule → α}

/-- What a pass does with a file. -/
def parseThen (a : Analyzer) (tree : FileTree) (f : ParsedModule → α) (file : SourceFile) : Traced α := do
  return f (← a.parseFile tree file)

/-- What is made of a module makes no difference to the calls. -/
theorem parserCalls_parseThen :
    (a.parseThen tree f file).parserCalls = (a.parseFile tree file).parserCalls :=
  Traced.parserCalls_bind_of_silent fun _ => rfl

/-- A pass makes the calls of the files that the parser accepts, and goes on with the others. -/
theorem parserCalls_pass_append (h : List.Forall₂ (a.Accepts tree) before calls)
    (rest : List SourceFile) :
    ((before ++ rest).mapM (a.parseThen tree f)).parserCalls =
      calls ++ (rest.mapM (a.parseThen tree f)).parserCalls := by
  induction h with
  | nil => rfl
  | @cons first call _ _ hfirst _ ih =>
    obtain ⟨m, hm⟩ := hfirst.exists_parsesTo
    have hok : (a.parseThen tree f first).outcome = .ok (f m) := parseThen_eq_ok_iff.2 ⟨m, hm, rfl⟩
    rw [List.cons_append, Traced.parserCalls_mapM_of_ok hok, ih, parserCalls_parseThen,
      hfirst.parserCalls_parseFile, List.singleton_append, List.cons_append]

/-- A pass over files that are all accepted makes their calls, in order. -/
theorem parserCalls_pass (h : List.Forall₂ (a.Accepts tree) files calls) :
    (files.mapM (a.parseThen tree f)).parserCalls = calls := by
  have hpass := parserCalls_pass_append (f := f) h []
  rw [List.append_nil] at hpass
  rw [hpass, List.mapM_nil]
  exact List.append_nil calls

/-- A pass ends with the first file that fails. -/
theorem parserCalls_pass_of_failsOn (h : List.Forall₂ (a.Accepts tree) before calls)
    {e : AnalysisError} (hfile : a.FailsOn tree file e) :
    ((before ++ file :: after).mapM (a.parseThen tree f)).parserCalls =
      calls ++ (a.parseFile tree file).parserCalls := by
  have herror : (a.parseThen tree f file).outcome = .error e := parseThen_eq_error_iff.2 hfile
  rw [parserCalls_pass_append h, Traced.parserCalls_mapM_of_error herror, parserCalls_parseThen]

end Pass

/-! ## Both passes -/

/-- If files are not handled side by side, they are handled one after the other. -/
theorem forEach_of_sequential {α : Type} (ha : a.configuration.parallel = false)
    (finishTime : Nat → Nat) (task : SourceFile → Traced α) (files : List SourceFile) :
    a.forEach finishTime task files = files.mapM task := by
  rw [forEach, ha, if_neg Bool.false_ne_true]

/-- Discovery calls no parser. -/
theorem parserCalls_sourceFiles : (a.sourceFiles tree root).parserCalls = [] := by
  unfold sourceFiles
  cases discover a.configuration tree root <;> rfl

/-- The first pass over files calls the parser as reading their definitions does. -/
theorem parserCalls_collectFrom (ha : a.configuration.parallel = false) (files : List SourceFile) :
    (a.collectFrom tree files).parserCalls =
      (files.mapM (a.parseThen tree ParsedModule.definitions)).parserCalls := by
  have htakeovers (takeovers : List Takeover) :
      (Traced.tell (takeovers.map .takenOver)).parserCalls = [] := by
    simp [Traced.parserCalls, Traced.tell, List.filterMap_map, Function.comp_def, Event.parserCall?]
  rw [collectFrom, forEach_of_sequential ha]
  refine Traced.parserCalls_bind_of_silent ?_
  intro modules
  rw [Traced.parserCalls_bind_of_silent fun _ => rfl]
  exact htakeovers _

/-- The first pass calls the parser for the files that are discovered. -/
theorem parserCalls_collectDefinitions (ha : a.configuration.parallel = false)
    (hfiles : discover a.configuration tree root = .ok files) :
    (a.collectDefinitions tree root).parserCalls =
      (files.mapM (a.parseThen tree ParsedModule.definitions)).parserCalls := by
  rw [collectDefinitions, Traced.parserCalls_bind_of_ok (sourceFiles_eq_ok_iff.2 hfiles),
    parserCalls_sourceFiles, List.nil_append, parserCalls_collectFrom ha]

/-- The second pass comes behind the first one, if that one succeeds. -/
theorem parserCalls_buildCallGraph_of_ok (ha : a.configuration.parallel = false)
    (hfiles : discover a.configuration tree root = .ok files) {table : NameTable}
    (hcollect : (a.collectDefinitions tree root).outcome = .ok table) :
    (a.buildCallGraph tree root).parserCalls = (a.collectDefinitions tree root).parserCalls ++
      (files.mapM (a.parseThen tree (·.edges table))).parserCalls := by
  rw [buildCallGraph, Traced.parserCalls_bind_of_ok hcollect,
    Traced.parserCalls_bind_of_ok (sourceFiles_eq_ok_iff.2 hfiles), parserCalls_sourceFiles,
    List.nil_append, forEach_of_sequential ha]
  congr 1
  exact Traced.parserCalls_bind_of_silent fun _ => rfl

/-- There is no second pass behind a failure of the first one. -/
theorem parserCalls_buildCallGraph_of_error {e : AnalysisError}
    (h : (a.collectDefinitions tree root).outcome = .error e) :
    (a.buildCallGraph tree root).parserCalls = (a.collectDefinitions tree root).parserCalls :=
  Traced.parserCalls_bind_of_error h

/-- If discovery fails the parser is not called. -/
theorem parserCalls_of_error {cause : WalkError}
    (h : discover a.configuration tree root = .error cause) :
    (a.buildCallGraph tree root).parserCalls = [] := by
  have hfiles : (a.sourceFiles tree root).outcome = .error (.walk cause) :=
    sourceFiles_eq_error_iff.2 ⟨cause, h, rfl⟩
  have hcollect : (a.collectDefinitions tree root).outcome = .error (.walk cause) :=
    collectDefinitions_eq_error_iff.2 (.inl ⟨cause, h, rfl⟩)
  rw [parserCalls_buildCallGraph_of_error hcollect, collectDefinitions,
    Traced.parserCalls_bind_of_error hfiles, parserCalls_sourceFiles]

/-- If all files are accepted, the second pass repeats the calls of the first. -/
theorem parserCalls_of_accepts (ha : a.configuration.parallel = false)
    (hfiles : discover a.configuration tree root = .ok files)
    (h : List.Forall₂ (a.Accepts tree) files calls) :
    (a.buildCallGraph tree root).parserCalls = calls ++ calls := by
  obtain ⟨modules, hreads⟩ := exists_reads hfiles (exists_parsesTo_of_accepts h)
  have hcollect := collectDefinitions_eq_ok_iff.2 ⟨files, modules, hreads, rfl⟩
  rw [parserCalls_buildCallGraph_of_ok ha hfiles hcollect, parserCalls_collectDefinitions ha hfiles,
    parserCalls_pass h, parserCalls_pass h]

/-- If a file fails, the calls end with it, and there is no second pass. -/
theorem parserCalls_of_failsOn (ha : a.configuration.parallel = false)
    (hfiles : discover a.configuration tree root = .ok (before ++ file :: after))
    (h : List.Forall₂ (a.Accepts tree) before calls) {e : AnalysisError}
    (hfile : a.FailsOn tree file e) :
    (a.buildCallGraph tree root).parserCalls = calls ++ (a.parseFile tree file).parserCalls := by
  have hfirst : (a.collectFrom tree (before ++ file :: after)).outcome = .error e :=
    (collectFrom_eq_error_iff_firstFailure ha).2 ⟨before, file, after, rfl,
      exists_parsesTo_of_accepts h, hfile⟩
  have hcollect : (a.collectDefinitions tree root).outcome = .error e :=
    collectDefinitions_eq_error_iff.2 (.inr ⟨_, hfiles, hfirst⟩)
  rw [parserCalls_buildCallGraph_of_error hcollect, parserCalls_collectDefinitions ha hfiles,
    parserCalls_pass_of_failsOn h hfile]

/-- The calls that are to be made are made. -/
theorem Asks.parserCalls (ha : a.configuration.parallel = false) (h : a.Asks tree root calls) :
    (a.buildCallGraph tree root).parserCalls = calls := by
  cases h with
  | undiscovered failed => exact parserCalls_of_error failed
  | twice discovered accepted => exact parserCalls_of_accepts ha discovered accepted
  | unreadable discovered accepted failed =>
    rw [parserCalls_of_failsOn ha discovered accepted (.unreadable failed),
      parserCalls_parseFile_of_error failed, List.append_nil]
  | refused discovered accepted read failed =>
    rw [parserCalls_of_failsOn ha discovered accepted (.refused read failed),
      parserCalls_parseFile_of_ok read]

/-- The parser accepts all of some files, or there is a first one that fails. -/
theorem exists_accepts_or_failsOn (a : Analyzer) (tree : FileTree) (files : List SourceFile) :
    (∃ calls, List.Forall₂ (a.Accepts tree) files calls) ∨
      ∃ before file after calls e, files = before ++ file :: after ∧
        List.Forall₂ (a.Accepts tree) before calls ∧ a.FailsOn tree file e := by
  induction files with
  | nil => exact .inl ⟨[], .nil⟩
  | cons first rest ih =>
    rcases a.parsesTo_or_failsOn tree first with ⟨m, hm⟩ | ⟨e, he⟩
    · obtain ⟨call, hcall⟩ := hm.exists_accepts
      rcases ih with ⟨calls, hcalls⟩ | ⟨before, file, after, calls, e, rfl, hcalls, he⟩
      · exact .inl ⟨call :: calls, .cons hcall hcalls⟩
      · exact .inr ⟨first :: before, file, after, call :: calls, e, rfl, .cons hcall hcalls, he⟩
    · exact .inr ⟨[], first, rest, [], e, rfl, .nil, he⟩

/-- For every tree and root it is determined which calls are to be made. -/
theorem exists_asks (a : Analyzer) (tree : FileTree) (root : String) : ∃ calls, a.Asks tree root calls := by
  cases hfiles : discover a.configuration tree root with
  | error cause => exact ⟨[], .undiscovered hfiles⟩
  | ok files =>
    rcases a.exists_accepts_or_failsOn tree files with ⟨calls, hcalls⟩ | hfails
    · exact ⟨calls ++ calls, .twice hfiles hcalls⟩
    · obtain ⟨before, file, after, calls, e, rfl, hcalls, he⟩ := hfails
      cases he with
      | unreadable hread => exact ⟨calls, .unreadable hfiles hcalls hread⟩
      | refused hread hparsed => exact ⟨_, .refused hfiles hcalls hread hparsed⟩

end Analyzer

/-! ## Parsers that answer alike -/

namespace Traced

variable {α β : Type} {Alike : ParserCall → Prop}

/-- Two computations in two parts are the same if the parts are, where the calls of the one are answered
alike. -/
theorem bind_eq_of_calls {x x' : Traced α} {f f' : α → Traced β}
    (hx : (∀ c ∈ x.parserCalls, Alike c) → x' = x)
    (hf : ∀ v, (∀ c ∈ (f v).parserCalls, Alike c) → f' v = f v)
    (h : ∀ c ∈ (x >>= f).parserCalls, Alike c) : x' >>= f' = x >>= f := by
  have hcalls : ∀ c ∈ x.parserCalls, Alike c := by
    intro c hc
    refine h c ?_
    cases hv : x.outcome with
    | ok v =>
      rw [parserCalls_bind_of_ok hv]
      exact List.mem_append_left _ hc
    | error e => rwa [parserCalls_bind_of_error hv]
  rw [hx hcalls]
  refine bind_congr_of_outcome ?_
  intro v hv
  refine hf v fun c hc => h c ?_
  rw [parserCalls_bind_of_ok hv]
  exact List.mem_append_right _ hc

/-- Tasks that agree wherever the calls are answered alike give the same, one after the other. -/
theorem mapM_eq_of_calls {task task' : α → Traced β}
    (htask : ∀ y, (∀ c ∈ (task y).parserCalls, Alike c) → task' y = task y) {ys : List α}
    (h : ∀ c ∈ (ys.mapM task).parserCalls, Alike c) : ys.mapM task' = ys.mapM task := by
  induction ys with
  | nil => rfl
  | cons y ys ih =>
    rw [List.mapM_cons] at h
    rw [List.mapM_cons, List.mapM_cons]
    refine bind_eq_of_calls (htask y) (fun v hrest => ?_) h
    exact bind_eq_of_calls ih (fun _ _ => rfl) hrest

end Traced

namespace Analyzer

variable {a : Analyzer} {tree : FileTree} {root : String} {p : Parser}

/-- A parser gives the answer of the analyzer's own one to a call. -/
def AnswersAlike (a : Analyzer) (p : Parser) (call : ParserCall) : Prop :=
  p call.1 call.2 = a.parser call.1 call.2

/-- A file parses alike if the parser is asked nothing that the other one answers otherwise. -/
theorem parseFile_eq_of_calls {file : SourceFile}
    (h : ∀ c ∈ (a.parseFile tree file).parserCalls, a.AnswersAlike p c) :
    ({ a with parser := p } : Analyzer).parseFile tree file = a.parseFile tree file := by
  cases hread : tree.readText file.path.toPath with
  | error cause =>
    rw [parseFile, parseFile, hread]
    rfl
  | ok source =>
    have hanswer : p file source = a.parser file source := by
      refine h (file, source) ?_
      rw [parserCalls_parseFile_of_ok hread]
      exact List.mem_singleton_self _
    rw [parseFile, parseFile, hread]
    refine bind_congr fun _ => Traced.bind_congr_of_outcome ?_
    intro text htext
    obtain rfl : source = text := Except.ok.inj htext
    simp only [hanswer]

/-- A pass over files is the same if the parser is asked nothing that the other one answers otherwise. -/
theorem pass_eq_of_calls {α : Type} {f : ParsedModule → α} {files : List SourceFile}
    (h : ∀ c ∈ (files.mapM (a.parseThen tree f)).parserCalls, a.AnswersAlike p c) :
    files.mapM (({ a with parser := p } : Analyzer).parseThen tree f) =
      files.mapM (a.parseThen tree f) := by
  refine Traced.mapM_eq_of_calls (fun file hfile => ?_) h
  exact Traced.bind_eq_of_calls parseFile_eq_of_calls (fun _ _ => rfl) hfile

/-- The first pass is the same if the parser is asked nothing that the other one answers otherwise. -/
theorem collectDefinitions_eq_of_calls (ha : a.configuration.parallel = false)
    (h : ∀ c ∈ (a.collectDefinitions tree root).parserCalls, a.AnswersAlike p c) :
    ({ a with parser := p } : Analyzer).collectDefinitions tree root =
      a.collectDefinitions tree root := by
  refine Traced.bind_eq_of_calls (fun _ => rfl) (fun files hfiles => ?_) h
  have ha' : ({ a with parser := p } : Analyzer).configuration.parallel = false := ha
  rw [collectFrom, forEach_of_sequential ha] at hfiles
  rw [collectFrom, collectFrom, forEach_of_sequential ha, forEach_of_sequential ha']
  exact Traced.bind_eq_of_calls pass_eq_of_calls (fun _ _ => rfl) hfiles

/-- A parser that answers alike to the calls of an analysis gives the same analysis, events included. So
the parser is asked nothing else. -/
theorem buildCallGraph_eq_of_calls (ha : a.configuration.parallel = false)
    (h : ∀ c ∈ (a.buildCallGraph tree root).parserCalls, a.AnswersAlike p c) :
    ({ a with parser := p } : Analyzer).buildCallGraph tree root = a.buildCallGraph tree root := by
  have ha' : ({ a with parser := p } : Analyzer).configuration.parallel = false := ha
  refine Traced.bind_eq_of_calls (collectDefinitions_eq_of_calls ha) (fun table htable => ?_) h
  refine Traced.bind_eq_of_calls (fun _ => rfl) (fun files hfiles => ?_) htable
  rw [forEach_of_sequential ha] at hfiles
  rw [forEach_of_sequential ha, forEach_of_sequential ha']
  exact Traced.bind_eq_of_calls pass_eq_of_calls (fun _ _ => rfl) hfiles

end Analyzer

/-- An analysis of one file after the other calls the parser for all discovered files in order and then
for all of them again, if each of them reads and parses. Otherwise it calls the parser for the files
before the first failing one, and for that one too if it can be read, and makes no second pass. If
discovery fails it makes no call. It is so with every parser, and the parser is asked nothing else. -/
theorem parser_is_asked_twice (a : Analyzer) (ha : a.configuration.parallel = false) (tree : FileTree)
    (root : String) :
    (∀ calls, (a.buildCallGraph tree root).parserCalls = calls ↔ a.Asks tree root calls) ∧
    ∀ p, (∀ c ∈ (a.buildCallGraph tree root).parserCalls, a.AnswersAlike p c) →
      ({ a with parser := p } : Analyzer).buildCallGraph tree root = a.buildCallGraph tree root := by
  constructor
  · intro calls
    constructor
    · intro h
      obtain ⟨asked, hasked⟩ := a.exists_asks tree root
      rw [← h, hasked.parserCalls ha]
      exact hasked
    · intro h
      exact h.parserCalls ha
  · intro p h
    exact Analyzer.buildCallGraph_eq_of_calls ha h

namespace TwoModules

/-- What is in the directory `repo`, with bytes for the module `b` that are no text. -/
def garbledEntries : List Entry :=
  [.file (.ofString "b.py") ⟨#[0xFF]⟩, .file (.ofString "a.py") textA.toUTF8]

/-- No name in the sample occurs twice. -/
theorem distinct_garbledEntries :
    Entry.haveDistinctNames [.directory (.ofString "repo") garbledEntries] = true := by
  simp [Entry.haveDistinctNames, Entry.hasDistinctNames, garbledEntries, Entry.name]

/-- The sample tree with bytes for the module `b` that are no text. -/
def garbledTree : FileTree :=
  { entries := [.directory (.ofString "repo") garbledEntries], distinct := distinct_garbledEntries }

/-- A parser that reads the two texts as the other one does, and a third one as if it were the first. -/
def laxParser : Parser := fun file source =>
  if source = refusedText then .ok ⟨file.module, treeA⟩ else parser file source

/-- The file of the module `a` is accepted wherever it has its text. -/
theorem accepts_fileA {t : FileTree} (h : t.readText fileA.path.toPath = .ok textA) :
    analyzer.Accepts t fileA (fileA, textA) :=
  ⟨rfl, h, ⟨"a", treeA⟩, rfl⟩

end TwoModules

section TwoModules

open TwoModules

/-- Two files that parse are handed over twice. If the parser refuses the second one, both are handed
over once. If the second one is no text, only the first one is. Without a root there is no call. A parser
that differs on other texts makes no difference. -/
theorem twoModules_calls :
    analyzer.configuration.parallel = false ∧
      (analyzer.buildCallGraph (tree textB) "repo").parserCalls =
        [(fileA, textA), (fileB, textB), (fileA, textA), (fileB, textB)] ∧
      (analyzer.buildCallGraph (tree refusedText) "repo").parserCalls =
        [(fileA, textA), (fileB, refusedText)] ∧
      (analyzer.buildCallGraph garbledTree "repo").parserCalls = [(fileA, textA)] ∧
      (analyzer.buildCallGraph (tree textB) "nowhere").parserCalls = [] ∧
      ({ analyzer with parser := laxParser } : Analyzer).buildCallGraph (tree textB) "repo" =
        analyzer.buildCallGraph (tree textB) "repo" := by
  have hA : (tree textB).readText fileA.path.toPath = .ok textA := by decide +kernel
  have hB : (tree textB).readText fileB.path.toPath = .ok textB := by decide +kernel
  have hcalls : (analyzer.buildCallGraph (tree textB) "repo").parserCalls =
      [(fileA, textA), (fileB, textB), (fileA, textA), (fileB, textB)] := by
    have haccepted : List.Forall₂ (analyzer.Accepts (tree textB)) [fileA, fileB]
        [(fileA, textA), (fileB, textB)] :=
      .cons (accepts_fileA hA) (.cons ⟨rfl, hB, ⟨"b", treeB⟩, rfl⟩ .nil)
    exact ((parser_is_asked_twice analyzer rfl (tree textB) "repo").1 _).2
      (.twice (discover_repo textB) haccepted)
  refine ⟨rfl, hcalls, ?_, ?_, ?_, ?_⟩
  · have hA : (tree refusedText).readText fileA.path.toPath = .ok textA := by decide +kernel
    have hB : (tree refusedText).readText fileB.path.toPath = .ok refusedText := by decide +kernel
    have hfiles : discover {} (tree refusedText) "repo" = .ok ([fileA] ++ fileB :: []) :=
      discover_repo refusedText
    exact ((parser_is_asked_twice analyzer rfl (tree refusedText) "repo").1 _).2
      (.refused hfiles (.cons (accepts_fileA hA) .nil) hB rfl)
  · have hA : garbledTree.readText fileA.path.toPath = .ok textA := by decide +kernel
    have hB : garbledTree.readText fileB.path.toPath = .error .notText := by decide +kernel
    have hskeleton : garbledTree.skeleton = (tree textB).skeleton := rfl
    have hfiles : discover {} garbledTree "repo" = .ok ([fileA] ++ fileB :: []) :=
      (discover_eq_of_skeleton_eq hskeleton {} "repo").trans (discover_repo textB)
    exact ((parser_is_asked_twice analyzer rfl garbledTree "repo").1 _).2
      (.unreadable hfiles (.cons (accepts_fileA hA) .nil) hB)
  · have hfiles : discover {} (tree textB) "nowhere" =
        .error (.unreachable ⟨"nowhere", []⟩ .notFound) := by decide +kernel
    exact ((parser_is_asked_twice analyzer rfl (tree textB) "nowhere").1 _).2 (.undiscovered hfiles)
  · refine (parser_is_asked_twice analyzer rfl (tree textB) "repo").2 laxParser ?_
    rw [hcalls]
    have hfirst : analyzer.AnswersAlike laxParser (fileA, textA) := rfl
    have hsecond : analyzer.AnswersAlike laxParser (fileB, textB) := rfl
    simp [hfirst, hsecond]

end TwoModules

end BareCallGraph
