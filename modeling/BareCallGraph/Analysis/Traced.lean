import BareCallGraph.Analysis.Error
import BareCallGraph.Discovery
import BareCallGraph.Export.Format
import BareCallGraph.NameTable

/-!
# Analyses that leave a trace

A `Traced` computation yields a value or fails, and tells what happened on the way as a list of events.
A failure keeps the events before it and has none behind it.
-/

namespace BareCallGraph

/-- Something that happens in an analysis. -/
inductive Event where
  /-- A pool of workers stands ready on so many processor cores. -/
  | poolReady (workers cores : Nat)
  /-- The source files under a root are known. -/
  | discovered (root : String) (files : Nat)
  /-- A file is about to be read. -/
  | opening (file : SourceFile)
  /-- The text of a file is handed to the parser. -/
  | parsing (file : SourceFile) (source : String)
  /-- A bare name went to another function. -/
  | takenOver (takeover : Takeover)
  /-- The name table is complete. -/
  | collected (definitions takeovers : Nat)
  /-- The call graph is complete. -/
  | built (root : String) (files nodes edges : Nat)
  /-- The call graph is written to a file. -/
  | written (output : String) (format : ExportFormat) (nodes edges : Nat)
deriving DecidableEq, Repr, Inhabited

/-- A computation that leaves a trace. -/
structure Traced (α : Type) where
  /-- What happens, in order. -/
  events : List Event
  /-- How it ends. -/
  outcome : Except AnalysisError α

namespace Traced

variable {α β : Type}

/-- Yields a value at once. -/
def value (a : α) : Traced α := ⟨[], .ok a⟩

/-- Goes on with what a computation yields. -/
def andThen (x : Traced α) (f : α → Traced β) : Traced β :=
  match x.outcome with
  | .ok a =>
    let y := f a
    ⟨x.events ++ y.events, y.outcome⟩
  | .error e => ⟨x.events, .error e⟩

instance : Monad Traced where
  pure := value
  bind := andThen

/-- Tells that something happens. -/
def tell (events : List Event) : Traced Unit := ⟨events, .ok ()⟩

/-- A computation that happens without events. -/
def ofExcept : Except AnalysisError α → Traced α := Traced.mk []

end Traced

end BareCallGraph
