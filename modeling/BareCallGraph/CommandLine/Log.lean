import BareCallGraph.Analysis.Traced

/-!
# Log lines

An event is logged as one line: its level, the part of the program that it belongs to, a message and
some fields. A `LogFilter` decides which levels are logged for which parts: of the directives whose
target starts the name of the part, the one with the longest target counts.
-/

namespace BareCallGraph

/-- How important something is. -/
inductive LogLevel where
  | error
  | warn
  | info
  | debug
  | trace
deriving DecidableEq, Repr, Inhabited

namespace LogLevel

/-- The number of a level; more important levels have smaller numbers. -/
def rank : LogLevel → Nat
  | error => 1
  | warn => 2
  | info => 3
  | debug => 4
  | trace => 5

/-- The name of a level, filled up to five letters. -/
def label : LogLevel → String
  | error => "ERROR"
  | warn => " WARN"
  | info => " INFO"
  | debug => "DEBUG"
  | trace => "TRACE"

end LogLevel

/-- Which levels are logged for which part of the program. -/
structure Directive where
  /-- How the names of the parts start; every part, if nothing is said. -/
  target : Option String
  /-- The greatest rank that is logged, zero for none. -/
  rank : Nat
deriving DecidableEq, Repr, Inhabited

namespace Directive

/-- The greatest rank that a word lets pass. -/
def rankOf? (word : String) : Option Nat :=
  match word.map Char.toLower with
  | "off" | "0" => some 0
  | "error" | "1" => some 1
  | "warn" | "2" => some 2
  | "info" | "3" => some 3
  | "debug" | "4" => some 4
  | "trace" | "5" => some 5
  | _ => none

/-- Whether a character can be part of a target. -/
def isTargetChar (c : Char) : Bool := c.isAlphanum || c == '_' || c == ':' || c == '-'

/-- Reads a directive: a level, a target, or both with an equals sign between them. A target without a
level lets everything pass. -/
def ofString? (text : String) : Option Directive :=
  match rankOf? text with
  | some rank => some ⟨none, rank⟩
  | none =>
    let target := text.toList.takeWhile isTargetChar
    if target.isEmpty then none
    else
      match text.toList.dropWhile isTargetChar with
      | [] => some ⟨some (String.ofList target), 5⟩
      | ['='] => some ⟨some (String.ofList target), 5⟩
      | '=' :: level => (rankOf? (String.ofList level)).map (⟨some (String.ofList target), ·⟩)
      | _ => none

/-- Whether a directive is about a part of the program. -/
def concerns (d : Directive) (target : String) : Bool :=
  d.target.all fun start => start.toList.isPrefixOf target.toList

/-- How much of a name a directive fixes. -/
def weight (d : Directive) : Nat := d.target.elim 0 (·.utf8ByteSize + 1)

end Directive

/-- The directives that decide what is logged. -/
structure LogFilter where
  /-- In the order in which they were given; a later one replaces an earlier one for the same target. -/
  directives : List Directive
deriving DecidableEq, Repr, Inhabited

namespace LogFilter

/-- Reads directives with commas between them. Without any, only errors pass. -/
def ofString? (text : String) : Option LogFilter :=
  let pieces := ((text.toList.splitOn ',').map String.ofList).filter (!·.isEmpty)
  if pieces.isEmpty then some ⟨[⟨none, 1⟩]⟩
  else (pieces.mapM Directive.ofString?).map LogFilter.mk

/-- The directive that decides about a part of the program. -/
def decisive? (f : LogFilter) (target : String) : Option Directive :=
  (f.directives.filter (·.concerns target)).foldl
    (fun best d =>
      match best with
      | some b => if b.weight ≤ d.weight then some d else some b
      | none => some d)
    none

/-- Whether something of a level is logged for a part of the program. -/
def passes (f : LogFilter) (target : String) (level : LogLevel) : Bool :=
  (f.decisive? target).any (level.rank ≤ ·.rank)

/-- What is logged if the user says nothing about it. -/
def standard (verbose : Bool) : LogFilter :=
  ⟨[⟨some "py_callgraph", if verbose then LogLevel.debug.rank else LogLevel.info.rank⟩]⟩

/-- The filter that a setting asks for. A setting that makes no sense is as good as none. -/
def ofSetting (setting : Option String) (verbose : Bool) : LogFilter :=
  (setting.bind ofString?).getD (standard verbose)

end LogFilter

/-- What is logged of an event. -/
structure LogRecord where
  /-- How important the event is. -/
  level : LogLevel
  /-- The part of the program that it belongs to. -/
  target : String
  /-- What happened. -/
  message : String
  /-- Details, each with its name. -/
  fields : List (String × String)
deriving DecidableEq, Repr, Inhabited

namespace LogRecord

/-- The line of a record. -/
def line (r : LogRecord) : String :=
  String.join (r.level.label :: " " :: r.target :: ": " :: r.message ::
    r.fields.flatMap fun (name, value) => [" ", name, "=", value])

end LogRecord

namespace Event

/-- What is logged of an event. That a parser is called is not. -/
def record? : Event → Option LogRecord
  | poolReady workers cores =>
    some ⟨.debug, "py_callgraph::infrastructure::concurrency", "initialized thread pool",
      [("workers", toString workers), ("cores", toString cores)]⟩
  | discovered root files =>
    some ⟨.debug, "py_callgraph::infrastructure::project_loader", "discovered source files",
      [("root", root), ("files", toString files)]⟩
  | opening file =>
    some ⟨.debug, "py_callgraph::application", "parsing",
      [("path", file.path.shown), ("module", file.module)]⟩
  | parsing _ _ => none
  | takenOver t =>
    some ⟨.debug, "py_callgraph::domain::name_table", "bare name collision, last definition wins",
      [("bare_name", t.bareName), ("replaced", t.replaced), ("winner", t.winner)]⟩
  | collected definitions takeovers =>
    some ⟨.debug, "py_callgraph::application", "definitions collected",
      [("definitions", toString definitions), ("collisions", toString takeovers)]⟩
  | built root files nodes edges =>
    some ⟨.info, "py_callgraph::application", "call graph built",
      [("root", root), ("files", toString files), ("nodes", toString nodes),
        ("edges", toString edges)]⟩
  | written output format nodes edges =>
    some ⟨.info, "py_callgraph", "analysis completed",
      [("output", output), ("format", format.label), ("nodes", toString nodes),
        ("edges", toString edges)]⟩

end Event

/-- The lines that a filter lets pass of a list of events. -/
def LogFilter.lines (f : LogFilter) (events : List Event) : List String :=
  ((events.filterMap Event.record?).filter fun r => f.passes r.target r.level).map LogRecord.line

end BareCallGraph
