import BareCallGraph.Export.Format

/-!
# Command line arguments

Arguments are read from left to right. Options have a long name, some a short one; a value follows its
option, or stands in the same argument, behind an equals sign if one likes. Short options without a value
may share an argument. Behind `--` every argument is a plain word.

Reading stops at the first argument that is wrong or that asks for help or for the version, whichever
comes first.
-/

namespace BareCallGraph

/-- What the user asks for. -/
structure Arguments where
  /-- The directory to analyse. -/
  root : String
  /-- The file to write the graph to. -/
  output : Option String := none
  /-- The format of the graph. -/
  format : ExportFormat := .dot
  /-- The names of directories to leave out. -/
  exclude : List String := []
  /-- Whether links to directories are followed. -/
  followLinks : Bool := false
  /-- How many workers handle files side by side. -/
  jobs : Option Nat := none
  /-- Whether details are logged. -/
  verbose : Bool := false
deriving DecidableEq, Repr

namespace Arguments

/-- Why the reading of arguments ends early. -/
inductive Halt where
  /-- An argument is wrong or missing. -/
  | refused
  /-- The user asks for help. -/
  | help
  /-- The user asks for the version. -/
  | version
deriving DecidableEq, Repr

/-- The options that take a value. -/
inductive ValueOption where
  | output
  | format
  | exclude
  | jobs
deriving DecidableEq, Repr

/-- The options without a value. -/
inductive Flag where
  | followLinks
  | verbose
  | help
  | version
deriving DecidableEq, Repr

/-- What an option is. -/
inductive Switch where
  | flag (f : Flag)
  | valued (o : ValueOption)
deriving DecidableEq, Repr

/-- The option of a long name. -/
def switchOfName? : String → Option Switch
  | "output" => some (.valued .output)
  | "format" => some (.valued .format)
  | "exclude" => some (.valued .exclude)
  | "jobs" => some (.valued .jobs)
  | "follow-links" => some (.flag .followLinks)
  | "verbose" => some (.flag .verbose)
  | "help" => some (.flag .help)
  | "version" => some (.flag .version)
  | _ => none

/-- The option of a letter. -/
def switchOfLetter? : Char → Option Switch
  | 'o' => some (.valued .output)
  | 'f' => some (.valued .format)
  | 'j' => some (.valued .jobs)
  | 'v' => some (.flag .verbose)
  | 'h' => some (.flag .help)
  | 'V' => some (.flag .version)
  | _ => none

/-- The arguments read so far. -/
structure Progress where
  root : Option String := none
  output : Option String := none
  format : Option ExportFormat := none
  exclude : List String := []
  followLinks : Bool := false
  jobs : Option Nat := none
  verbose : Bool := false
deriving DecidableEq, Repr

/-- A count in decimal digits, with or without a plus sign, that fits a machine word. -/
def count? (text : String) : Option Nat :=
  let digits :=
    match text.toList with
    | '+' :: digits => digits
    | digits => digits
  if digits.isEmpty || !digits.all Char.isDigit then none
  else
    let n := digits.foldl (fun n d => 10 * n + (d.toNat - '0'.toNat)) 0
    if n < UInt64.size then some n else none

/-- Takes an option that stands alone. It may come once. -/
def takeFlag (p : Progress) : Flag → Except Halt Progress
  | .followLinks =>
    if p.followLinks then .error .refused else .ok { p with followLinks := true }
  | .verbose => if p.verbose then .error .refused else .ok { p with verbose := true }
  | .help => .error .help
  | .version => .error .version

/-- Takes an option and its value. Only directories to leave out may come more than once. -/
def takeValue (p : Progress) (value : String) : ValueOption → Except Halt Progress
  | .output =>
    if p.output.isSome ∨ value.isEmpty then .error .refused
    else .ok { p with output := some value }
  | .format =>
    match p.format, ExportFormat.ofName? value with
    | none, some format => .ok { p with format := some format }
    | _, _ => .error .refused
  | .exclude => .ok { p with exclude := p.exclude ++ [value] }
  | .jobs =>
    match p.jobs, count? value with
    | none, some jobs => .ok { p with jobs := some jobs }
    | _, _ => .error .refused

/-- Takes a plain word. There is one, and it is not empty. -/
def takeWord (p : Progress) (word : String) : Except Halt Progress :=
  if p.root.isSome ∨ word.isEmpty then .error .refused else .ok { p with root := some word }

/-- Takes the letters of an argument with one dash. The last option may still need a value. -/
def takeLetters (p : Progress) : List Char → Except Halt (Progress × Option ValueOption)
  | [] => .ok (p, none)
  | c :: cs =>
    match switchOfLetter? c with
    | none => .error .refused
    | some (.flag f) => (takeFlag p f).bind (takeLetters · cs)
    | some (.valued o) =>
      match cs with
      | [] => .ok (p, some o)
      | '=' :: value => (takeValue p (String.ofList value) o).map (·, none)
      | value => (takeValue p (String.ofList value) o).map (·, none)

/-- Takes an argument with two dashes, given without them. The option may still need a value. -/
def takeName (p : Progress) (text : List Char) : Except Halt (Progress × Option ValueOption) :=
  let name := String.ofList (text.takeWhile (· != '='))
  match switchOfName? name, text.dropWhile (· != '=') with
  | some (.flag f), [] => (takeFlag p f).map (·, none)
  | some (.valued o), [] => .ok (p, some o)
  | some (.valued o), _ :: value => (takeValue p (String.ofList value) o).map (·, none)
  | _, _ => .error .refused

/-- Takes an argument. An option in it may still need a value. -/
def takeArgument (p : Progress) (arg : String) : Except Halt (Progress × Option ValueOption) :=
  match arg.toList with
  | '-' :: '-' :: name => takeName p name
  | '-' :: c :: cs => takeLetters p (c :: cs)
  | _ => (takeWord p arg).map (·, none)

/-- Whether an argument can be the value of the option before it. -/
def isValue (arg : String) : Bool := arg == "-" || arg.toList.head? != some '-'

/-- Reads arguments. -/
def readOnto (p : Progress) : List String → Except Halt Progress
  | [] => .ok p
  | "--" :: words => words.foldlM takeWord p
  | arg :: args =>
    match takeArgument p arg with
    | .error halt => .error halt
    | .ok (p, none) => readOnto p args
    | .ok (p, some o) =>
      match args with
      | [] => .error .refused
      | value :: args =>
        if isValue value then (takeValue p value o).bind (readOnto · args) else .error .refused

/-- Reads the arguments of the program. -/
def parse (args : List String) : Except Halt Arguments :=
  match readOnto {} args with
  | .error halt => .error halt
  | .ok p =>
    match p.root with
    | none => .error .refused
    | some root =>
      .ok {
        root
        output := p.output
        format := p.format.getD .dot
        exclude := p.exclude
        followLinks := p.followLinks
        jobs := p.jobs
        verbose := p.verbose }

end Arguments

end BareCallGraph
