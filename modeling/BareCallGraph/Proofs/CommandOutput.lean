import BareCallGraph.CommandLine.Run
import BareCallGraph.Proofs.Schedules
import BareCallGraph.Proofs.WrittenFiles

/-!
# What a command leaves behind

A command whose analysis fails leaves nothing: no output, and all files as they were. One whose analysis
succeeds prints the graph as far as standard output takes it, or writes the same bytes to one file and
prints nothing. Details in the log,
workers, the order in which they finish and the number of cores show neither in what is printed nor in
what is written.

Options are read independently of each other: one that is put in front of arguments that do without it
sets its own part of what is asked for and no other.
-/

namespace BareCallGraph

namespace Arguments

/-! ## Taking one option or word -/

section

variable {p q : Progress}

/-- Of the options without a value, two can be taken, each once. -/
theorem takeFlag_eq_ok_iff {f : Flag} : takeFlag p f = .ok q ↔
    f = .followLinks ∧ p.followLinks = false ∧ q = { p with followLinks := true } ∨
    f = .verbose ∧ p.verbose = false ∧ q = { p with verbose := true } := by
  cases f with
  | followLinks => cases h : p.followLinks <;> simp [takeFlag, h, @eq_comm _ q]
  | verbose => cases h : p.verbose <;> simp [takeFlag, h, @eq_comm _ q]
  | help => simp [takeFlag]
  | version => simp [takeFlag]

/-- Options with a value can be taken if the value is one for them. Names to be left out can be taken
again and again, the others once. -/
theorem takeValue_eq_ok_iff {v : String} {o : ValueOption} : takeValue p v o = .ok q ↔
    o = .output ∧ p.output = none ∧ v ≠ "" ∧ q = { p with output := some v } ∨
    (∃ format, o = .format ∧ p.format = none ∧ ExportFormat.ofName? v = some format ∧
      q = { p with format := some format }) ∨
    o = .exclude ∧ q = { p with exclude := p.exclude ++ [v] } ∨
    ∃ jobs, o = .jobs ∧ p.jobs = none ∧ count? v = some jobs ∧ q = { p with jobs := some jobs } := by
  cases o with
  | output => cases h : p.output <;> by_cases hv : v = "" <;> simp [takeValue, h, hv, @eq_comm _ q]
  | format =>
    cases h : p.format <;> cases hv : ExportFormat.ofName? v <;> simp [takeValue, h, hv, @eq_comm _ q]
  | exclude => simp [takeValue, @eq_comm _ q]
  | jobs => cases h : p.jobs <;> cases hv : count? v <;> simp [takeValue, h, hv, @eq_comm _ q]

/-- One word can be taken, as the root. It is not empty. -/
theorem takeWord_eq_ok_iff {w : String} : takeWord p w = .ok q ↔
    p.root = none ∧ w ≠ "" ∧ q = { p with root := some w } := by
  cases h : p.root <;> by_cases hw : w = "" <;> simp [takeWord, h, hw, @eq_comm _ q]

end

/-! ## Options in front -/

/-- An option that can be added to a command without a change to what is analysed or how it is shown. -/
inductive AddedOption where
  /-- Details in the log. -/
  | verbose
  /-- Workers, as many as a text says. -/
  | jobs (text : String) (n : Nat) (h : count? text = some n)
  /-- A file for the graph. -/
  | output (path : String) (hpath : path ≠ "" ∧ isValue path = true)

namespace AddedOption

/-- The arguments that give an option. -/
def words : AddedOption → List String
  | verbose => ["-v"]
  | jobs text _ _ => ["-j", text]
  | output path _ => ["-o", path]

/-- Whether an option has not been given. -/
def IsMissing (p : Progress) : AddedOption → Prop
  | verbose => p.verbose = false
  | jobs _ _ _ => p.jobs = none
  | output _ _ => p.output = none

/-- What is asked for with an option given. -/
def onto (p : Progress) : AddedOption → Progress
  | verbose => { p with verbose := true }
  | jobs _ n _ => { p with jobs := some n }
  | output path _ => { p with output := some path }

variable {x : AddedOption} {p q : Progress}

/-! Arguments that leave an option out are taken alike when it was given before them. -/

/-- An option that was not given may have been given before an option without a value. -/
theorem takeFlag_onto {f : Flag} (h : takeFlag p f = .ok q) (hq : x.IsMissing q) :
    x.IsMissing p ∧ takeFlag (x.onto p) f = .ok (x.onto q) := by
  rw [takeFlag_eq_ok_iff] at h ⊢
  cases x <;> simp only [IsMissing, onto] at hq ⊢ <;> grind

/-- An option that was not given may have been given before an option with a value. -/
theorem takeValue_onto {v : String} {o : ValueOption} (h : takeValue p v o = .ok q)
    (hq : x.IsMissing q) : x.IsMissing p ∧ takeValue (x.onto p) v o = .ok (x.onto q) := by
  rw [takeValue_eq_ok_iff] at h ⊢
  cases x <;> simp only [IsMissing, onto] at hq ⊢ <;> grind

/-- An option that was not given may have been given before a word. -/
theorem takeWord_onto {w : String} (h : takeWord p w = .ok q) (hq : x.IsMissing q) :
    x.IsMissing p ∧ takeWord (x.onto p) w = .ok (x.onto q) := by
  rw [takeWord_eq_ok_iff] at h ⊢
  cases x <;> simp only [IsMissing, onto] at hq ⊢ <;> grind

/-- The same for what needs no further value. -/
theorem map_onto {taken taken' : Except Halt Progress} {o : Option ValueOption}
    (htaken : ∀ q, taken = .ok q → x.IsMissing q → x.IsMissing p ∧ taken' = .ok (x.onto q))
    (h : taken.map (·, none) = .ok (q, o)) (hq : x.IsMissing q) :
    x.IsMissing p ∧ taken'.map (·, none) = .ok (x.onto q, o) := by
  cases taken with
  | error e => contradiction
  | ok p' =>
    cases h
    obtain ⟨hmissing, rfl⟩ := htaken _ rfl hq
    exact ⟨hmissing, rfl⟩

/-- An option that was not given may have been given before several letters in a row. -/
theorem takeLetters_onto {cs : List Char} {o : Option ValueOption}
    (h : takeLetters p cs = .ok (q, o)) (hq : x.IsMissing q) :
    x.IsMissing p ∧ takeLetters (x.onto p) cs = .ok (x.onto q, o) := by
  induction cs generalizing p with
  | nil =>
    cases h
    exact ⟨hq, rfl⟩
  | cons c cs ih =>
    rw [takeLetters] at h ⊢
    split at h
    · contradiction
    · obtain ⟨p', hp', h⟩ := bind_eq_ok_iff.1 h
      obtain ⟨hmissing, hrest⟩ := ih h
      obtain ⟨hmissing, hflag⟩ := takeFlag_onto hp' hmissing
      exact ⟨hmissing, bind_eq_ok_iff.2 ⟨x.onto p', hflag, hrest⟩⟩
    · split at h
      · cases h
        exact ⟨hq, rfl⟩
      · exact map_onto (fun _ => takeValue_onto) h hq
      · exact map_onto (fun _ => takeValue_onto) h hq

/-- An option that was not given may have been given before an option by name. -/
theorem takeName_onto {text : List Char} {o : Option ValueOption}
    (h : takeName p text = .ok (q, o)) (hq : x.IsMissing q) :
    x.IsMissing p ∧ takeName (x.onto p) text = .ok (x.onto q, o) := by
  rw [takeName] at h ⊢
  split at h
  · exact map_onto (fun _ => takeFlag_onto) h hq
  · cases h
    exact ⟨hq, rfl⟩
  · exact map_onto (fun _ => takeValue_onto) h hq
  · contradiction

/-- An option that was not given may have been given before an argument. -/
theorem takeArgument_onto {arg : String} {o : Option ValueOption}
    (h : takeArgument p arg = .ok (q, o)) (hq : x.IsMissing q) :
    x.IsMissing p ∧ takeArgument (x.onto p) arg = .ok (x.onto q, o) := by
  rw [takeArgument] at h ⊢
  split at h
  · exact takeName_onto h hq
  · exact takeLetters_onto h hq
  · exact map_onto (fun _ => takeWord_onto) h hq

/-- An option that was not given may have been given before words. -/
theorem takeWords_onto {words : List String} (h : words.foldlM takeWord p = .ok q)
    (hq : x.IsMissing q) : x.IsMissing p ∧ words.foldlM takeWord (x.onto p) = .ok (x.onto q) := by
  induction words generalizing p with
  | nil =>
    cases h
    exact ⟨hq, rfl⟩
  | cons w words ih =>
    rw [List.foldlM_cons] at h ⊢
    obtain ⟨p', hp', h⟩ := bind_eq_ok_iff.1 h
    obtain ⟨hmissing, hrest⟩ := ih h
    obtain ⟨hmissing, hword⟩ := takeWord_onto hp' hmissing
    exact ⟨hmissing, bind_eq_ok_iff.2 ⟨x.onto p', hword, hrest⟩⟩

/-- An option that was not given may have been given before all the arguments. -/
theorem readOnto_onto {args : List String} (h : readOnto p args = .ok q) (hq : x.IsMissing q) :
    x.IsMissing p ∧ readOnto (x.onto p) args = .ok (x.onto q) := by
  fun_induction readOnto p args with
  | case1 p =>
    cases h
    exact ⟨hq, by rw [readOnto]⟩
  | case2 p words =>
    rw [readOnto]
    exact takeWords_onto h hq
  | case3 p arg args hne halt herror => contradiction
  | case4 p arg args hne p' hp' ih =>
    obtain ⟨hmissing, hrest⟩ := ih h
    obtain ⟨hmissing, htaken⟩ := takeArgument_onto hp' hmissing
    refine ⟨hmissing, ?_⟩
    rw [readOnto, htaken]
    · exact hrest
    · exact hne
  | case5 p arg hne p' o hp' => contradiction
  | case6 p arg hne p' o hp' value args hvalue ih =>
    obtain ⟨p'', hp'', h⟩ := bind_eq_ok_iff.1 h
    obtain ⟨hmissing, hrest⟩ := ih p'' h
    obtain ⟨hmissing, hgiven⟩ := takeValue_onto hp'' hmissing
    obtain ⟨hmissing, htaken⟩ := takeArgument_onto hp' hmissing
    refine ⟨hmissing, ?_⟩
    rw [readOnto, htaken]
    · simp only [if_pos hvalue]
      exact bind_eq_ok_iff.2 ⟨x.onto p'', hgiven, hrest⟩
    · exact hne
  | case7 p arg hne p' o hp' value args hvalue => contradiction

/-- A text that is a count can be the value of an option. -/
theorem isValue_of_count? {text : String} {n : Nat} (h : count? text = some n) :
    isValue text = true := by
  by_contra hvalue
  obtain ⟨-, hdash⟩ : text ≠ "-" ∧ text.toList.head? = some '-' := by simpa [isValue] using hvalue
  obtain ⟨cs, hcs⟩ := List.head?_eq_some_iff.1 hdash
  simp [count?, hcs, Char.isDigit] at h

/-- An option by its letter takes the argument behind it as its value. -/
theorem readOnto_letter {letter value : String} {o : ValueOption}
    (hletter : takeArgument p letter = .ok (p, some o)) (hdashes : letter ≠ "--")
    (hvalue : isValue value = true) (hgiven : takeValue p value o = .ok q) (args : List String) :
    readOnto p (letter :: value :: args) = readOnto q args := by
  rw [readOnto, hletter]
  · simp only [if_pos hvalue, hgiven]
    rfl
  · exact hdashes

/-- An option in front is given before all other arguments are read. -/
theorem readOnto_words (x : AddedOption) (args : List String) :
    readOnto {} (x.words ++ args) = readOnto (x.onto {}) args := by
  cases x with
  | verbose => rfl
  | jobs text n h =>
    have hgiven : takeValue {} text .jobs = .ok { jobs := some n } :=
      takeValue_eq_ok_iff.2 (.inr (.inr (.inr ⟨n, rfl, rfl, h, rfl⟩)))
    exact readOnto_letter rfl (by decide) (isValue_of_count? h) hgiven args
  | output path hpath =>
    have hgiven : takeValue {} path .output = .ok { output := some path } :=
      takeValue_eq_ok_iff.2 (.inl ⟨rfl, rfl, hpath.1, rfl⟩)
    exact readOnto_letter rfl (by decide) hpath.2 hgiven args

end AddedOption

/-- What has been read amounts to these arguments. -/
structure Progress.AmountsTo (p : Progress) (a : Arguments) : Prop where
  root : p.root = some a.root
  output : p.output = a.output
  format : p.format.getD .dot = a.format
  exclude : p.exclude = a.exclude
  followLinks : p.followLinks = a.followLinks
  jobs : p.jobs = a.jobs
  verbose : p.verbose = a.verbose

variable {args : List String} {a : Arguments}

/-- Arguments are accepted if all of them can be taken and they amount to a command. -/
theorem parse_eq_ok_iff : parse args = .ok a ↔ ∃ p, readOnto {} args = .ok p ∧ p.AmountsTo a := by
  rw [parse]
  cases hp : readOnto {} args with
  | error halt => simp
  | ok p =>
    simp only [Except.ok.injEq, exists_eq_left']
    cases hroot : p.root with
    | none =>
      simp only [reduceCtorEq, false_iff]
      intro h
      cases hroot.symm.trans h.root
    | some root =>
      constructor
      · intro h
        cases h
        exact ⟨hroot, rfl, rfl, rfl, rfl, rfl, rfl⟩
      · intro h
        have hsame : root = a.root := Option.some.inj (hroot.symm.trans h.root)
        rw [hsame, h.output, h.format, h.exclude, h.followLinks, h.jobs, h.verbose]

/-- Arguments are accepted with an option in front that they do without. -/
theorem exists_of_parse (h : parse args = .ok a) (x : AddedOption)
    (hmissing : ∀ p : Progress, p.AmountsTo a → x.IsMissing p) :
    ∃ p, p.AmountsTo a ∧ readOnto {} (x.words ++ args) = .ok (x.onto p) := by
  obtain ⟨p, hp, hamounts⟩ := parse_eq_ok_iff.1 h
  refine ⟨p, hamounts, ?_⟩
  rw [AddedOption.readOnto_words]
  exact (AddedOption.readOnto_onto hp (hmissing p hamounts)).2

/-- The option for details in the log can be put in front. -/
theorem parse_verbose (h : parse args = .ok a) (hmissing : a.verbose = false) :
    parse ("-v" :: args) = .ok { a with verbose := true } := by
  obtain ⟨p, hp, hread⟩ := exists_of_parse h .verbose fun p hp => hp.verbose.trans hmissing
  exact parse_eq_ok_iff.2 ⟨_, hread, { hp with verbose := rfl }⟩

/-- The option for a number of workers can be put in front. -/
theorem parse_jobs (h : parse args = .ok a) (hmissing : a.jobs = none) {text : String} {n : Nat}
    (hn : count? text = some n) : parse ("-j" :: text :: args) = .ok { a with jobs := some n } := by
  obtain ⟨p, hp, hread⟩ := exists_of_parse h (.jobs text n hn) fun p hp => hp.jobs.trans hmissing
  exact parse_eq_ok_iff.2 ⟨_, hread, { hp with jobs := rfl }⟩

/-- The option for a file can be put in front. -/
theorem parse_output (h : parse args = .ok a) (hmissing : a.output = none) {path : String}
    (hpath : path ≠ "" ∧ isValue path = true) :
    parse ("-o" :: path :: args) = .ok { a with output := some path } := by
  obtain ⟨p, hp, hread⟩ := exists_of_parse h (.output path hpath) fun p hp => hp.output.trans hmissing
  exact parse_eq_ok_iff.2 ⟨_, hread, { hp with output := rfl }⟩

end Arguments

/-! ## What a run does -/

section

variable {parser : Parser} {around around' : Surroundings} {a : Arguments} {graph : CallGraph}

/-- Where the graph goes, details in the log, workers and the order in which they finish have no part in
the graph. -/
theorem Arguments.analysis_eq_ok (h : (a.analysis parser around).outcome = .ok graph)
    (htree : around'.tree = around.tree) (output : Option String) (verbose : Bool) (jobs : Option Nat) :
    (Arguments.analysis { a with output, verbose, jobs } parser around').outcome = .ok graph := by
  rw [analysis] at h ⊢
  obtain ⟨files, modules, hreads, rfl⟩ := Analyzer.buildCallGraph_eq_ok_iff.1 h
  rw [htree]
  exact Analyzer.buildCallGraph_eq_ok_iff.2
    ⟨files, modules, hreads.under jobs.isSome around'.schedule, rfl⟩

/-- A command whose analysis fails prints nothing and leaves the files alone. -/
theorem execute_of_error {e : AnalysisError} (h : (a.analysis parser around).outcome = .error e) :
    ∃ log, execute parser around a = ⟨1, "", log, around.tree⟩ := by
  unfold execute
  simp only [h]
  exact ⟨_, rfl⟩

/-- A graph that is taken is printed. -/
theorem execute_of_printed (h : (a.analysis parser around).outcome = .ok graph)
    (houtput : a.output = none) (htakes : around.standardOutput.Takes (a.format.render graph)) :
    ∃ log, execute parser around a = ⟨0, a.format.render graph, log, around.tree⟩ := by
  have hprinted := around.standardOutput.complete _ htakes
  rw [StandardOutput.Takes] at htakes
  unfold execute
  simp only [h, houtput, htakes, hprinted]
  exact ⟨_, rfl⟩

/-- A graph that is not taken as a whole is an error, with what is taken of it printed. -/
theorem execute_of_not_printed (h : (a.analysis parser around).outcome = .ok graph)
    (houtput : a.output = none) (htakes : ¬ around.standardOutput.Takes (a.format.render graph)) :
    ∃ log, execute parser around a =
      ⟨1, (around.standardOutput.write (a.format.render graph)).1, log, around.tree⟩ := by
  obtain ⟨e, he⟩ := Option.ne_none_iff_exists'.1 htakes
  unfold execute
  simp only [h, houtput, he]
  exact ⟨_, rfl⟩

/-- A command that can write its file prints nothing and leaves the file behind. -/
theorem execute_of_written (h : (a.analysis parser around).outcome = .ok graph) {path : String}
    (houtput : a.output = some path) {tree : FileTree}
    (hwrite : around.tree.write (.ofString path) (a.format.render graph).toUTF8 = .ok tree) :
    ∃ log, execute parser around a = ⟨0, "", log, tree⟩ := by
  unfold execute
  simp only [h, houtput, hwrite]
  exact ⟨_, rfl⟩

/-- A command that cannot write its file prints nothing and leaves the files alone. -/
theorem execute_of_not_written (h : (a.analysis parser around).outcome = .ok graph) {path : String}
    (houtput : a.output = some path) {e : FileError}
    (hwrite : around.tree.write (.ofString path) (a.format.render graph).toUTF8 = .error e) :
    ∃ log, execute parser around a = ⟨1, "", log, around.tree⟩ := by
  unfold execute
  simp only [h, houtput, hwrite]
  exact ⟨_, rfl⟩

/-- A graph that is to be written is written, or its path leads nowhere that it can be written to. -/
theorem written_or_not (h : (a.analysis parser around).outcome = .ok graph) {path : String}
    (houtput : a.output = some path) :
    (∃ log tree, execute parser around a = ⟨0, "", log, tree⟩ ∧
      around.tree.Writes (.ofString path) (a.format.render graph).toUTF8 tree) ∨
    ∃ log, execute parser around a = ⟨1, "", log, around.tree⟩ ∧
      ∃ e, around.tree.placeOf (.ofString path) = .error e := by
  cases hwrite : around.tree.write (.ofString path) (a.format.render graph).toUTF8 with
  | ok tree =>
    obtain ⟨log, hreport⟩ := execute_of_written h houtput hwrite
    exact .inl ⟨log, tree, hreport, FileTree.writes_of_write hwrite⟩
  | error e =>
    obtain ⟨log, hreport⟩ := execute_of_not_written h houtput hwrite
    exact .inr ⟨log, hreport, e, FileTree.write_eq_error_iff.1 hwrite⟩

/-- Two runs that find one graph, and show it in one format and one place, differ in their logs at
most. -/
theorem execute_eq_except_log {a' : Arguments} (h : (a.analysis parser around).outcome = .ok graph)
    (h' : (a'.analysis parser around').outcome = .ok graph) (htree : around'.tree = around.tree)
    (hprinter : around'.standardOutput = around.standardOutput)
    (hformat : a'.format = a.format) (houtput : a'.output = a.output) :
    ∃ log, execute parser around' a' = { execute parser around a with stderr := log } := by
  cases hplace : a.output with
  | none =>
    by_cases htakes : around.standardOutput.Takes (a.format.render graph)
    · have htakes' := htakes
      rw [← hprinter, ← hformat] at htakes'
      obtain ⟨log, hreport⟩ := execute_of_printed h hplace htakes
      obtain ⟨log', hreport'⟩ := execute_of_printed h' (houtput.trans hplace) htakes'
      exact ⟨log', by rw [hreport, hreport', hformat, htree]⟩
    · have htakes' := htakes
      rw [← hprinter, ← hformat] at htakes'
      obtain ⟨log, hreport⟩ := execute_of_not_printed h hplace htakes
      obtain ⟨log', hreport'⟩ := execute_of_not_printed h' (houtput.trans hplace) htakes'
      exact ⟨log', by rw [hreport, hreport', hformat, htree, hprinter]⟩
  | some path =>
    cases hwrite : around.tree.write (.ofString path) (a.format.render graph).toUTF8 with
    | ok tree =>
      have hwrite' := hwrite
      rw [← htree, ← hformat] at hwrite'
      obtain ⟨log, hreport⟩ := execute_of_written h hplace hwrite
      obtain ⟨log', hreport'⟩ := execute_of_written h' (houtput.trans hplace) hwrite'
      exact ⟨log', by rw [hreport, hreport']⟩
    | error e =>
      have hwrite' := hwrite
      rw [← htree, ← hformat] at hwrite'
      obtain ⟨log, hreport⟩ := execute_of_not_written h hplace hwrite
      obtain ⟨log', hreport'⟩ := execute_of_not_written h' (houtput.trans hplace) hwrite'
      exact ⟨log', by rw [hreport, hreport', htree]⟩

/-- Arguments that are accepted are executed. -/
theorem run_of_parse {args : List String} (h : Arguments.parse args = .ok a) :
    run parser around args = execute parser around a := by
  rw [run, h]

end

/-- The outcome of a command with arguments that are accepted. If the analysis fails, the exit code is 1,
nothing is printed and all files are as before. If it succeeds and no file is given for the graph, all
files are as before, and the text of the graph is printed; or standard output does not take it, and then
the exit code is 1. With a file for the graph nothing is printed; then its path leads afterwards to the
bytes that the command without the option prints, and nothing else has changed, or it cannot be written
to, the exit code is 1 and all files are as before. Details in the log, the number of workers and all that
is left to a run have no part in this. The options in question are accepted in front of all arguments that
do without them. -/
theorem command_output (parser : Parser) (around : Surroundings) (args : List String) (a : Arguments)
    (hargs : Arguments.parse args = .ok a) :
    (∀ e, (a.analysis parser around).outcome = .error e →
      (run parser around args).exitCode = 1 ∧ (run parser around args).stdout = "" ∧
        (run parser around args).tree = around.tree) ∧
    (∀ graph, (a.analysis parser around).outcome = .ok graph →
      (a.output = none → (run parser around args).tree = around.tree ∧
        (around.standardOutput.Takes (a.format.render graph) →
          (run parser around args).exitCode = 0 ∧
          (run parser around args).stdout = a.format.render graph) ∧
        (¬ around.standardOutput.Takes (a.format.render graph) →
          (run parser around args).exitCode = 1 ∧
          (run parser around args).stdout = (around.standardOutput.write (a.format.render graph)).1)) ∧
      (∀ path, a.output = some path → (run parser around args).stdout = "" ∧
        ((run parser around args).exitCode = 0 ∧
            around.tree.Writes (.ofString path) (a.format.render graph).toUTF8
              (run parser around args).tree ∨
          (run parser around args).exitCode = 1 ∧ (run parser around args).tree = around.tree ∧
            ∃ e, around.tree.placeOf (.ofString path) = .error e)) ∧
      ∀ around' args', around'.tree = around.tree →
        (∀ verbose jobs, Arguments.parse args' = .ok { a with output := none, verbose, jobs } →
          around'.standardOutput.Takes (a.format.render graph) →
          (run parser around' args').exitCode = 0 ∧
          (run parser around' args').stdout = a.format.render graph) ∧
        ∀ verbose jobs, Arguments.parse args' = .ok { a with verbose, jobs } →
          around'.standardOutput = around.standardOutput →
          (run parser around' args').exitCode = (run parser around args).exitCode ∧
          (run parser around' args').stdout = (run parser around args).stdout ∧
          (run parser around' args').tree = (run parser around args).tree) ∧
    (a.verbose = false → Arguments.parse ("-v" :: args) = .ok { a with verbose := true }) ∧
    (a.jobs = none → ∀ text n, Arguments.count? text = some n →
      Arguments.parse ("-j" :: text :: args) = .ok { a with jobs := some n }) ∧
    (a.output = none → ∀ path, path ≠ "" → Arguments.isValue path = true →
      Arguments.parse ("-o" :: path :: args) = .ok { a with output := some path }) := by
  refine ⟨?_, ?_, Arguments.parse_verbose hargs, ?_, ?_⟩
  · intro e herror
    obtain ⟨log, hreport⟩ := execute_of_error herror
    rw [run_of_parse hargs, hreport]
    exact ⟨rfl, rfl, rfl⟩
  · intro graph hgraph
    rw [run_of_parse hargs]
    refine ⟨?_, ?_, ?_⟩
    · intro houtput
      by_cases htakes : around.standardOutput.Takes (a.format.render graph)
      · obtain ⟨log, hreport⟩ := execute_of_printed hgraph houtput htakes
        rw [hreport]
        exact ⟨rfl, fun _ => ⟨rfl, rfl⟩, fun hrefused => absurd htakes hrefused⟩
      · obtain ⟨log, hreport⟩ := execute_of_not_printed hgraph houtput htakes
        rw [hreport]
        exact ⟨rfl, fun htaken => absurd htaken htakes, fun _ => ⟨rfl, rfl⟩⟩
    · intro path houtput
      rcases written_or_not hgraph houtput with ⟨log, tree, hreport, hwrites⟩ | ⟨log, hreport, herror⟩
      · rw [hreport]
        exact ⟨rfl, .inl ⟨rfl, hwrites⟩⟩
      · rw [hreport]
        exact ⟨rfl, .inr ⟨rfl, rfl, herror⟩⟩
    · intro around' args' htree
      constructor
      · intro verbose jobs hargs' htakes
        have hgraph' := Arguments.analysis_eq_ok hgraph htree none verbose jobs
        obtain ⟨log, hreport⟩ := execute_of_printed hgraph' rfl htakes
        rw [run_of_parse hargs', hreport]
        exact ⟨rfl, rfl⟩
      · intro verbose jobs hargs' hprinter
        have hgraph' := Arguments.analysis_eq_ok hgraph htree a.output verbose jobs
        obtain ⟨log, hreport⟩ := execute_eq_except_log hgraph hgraph' htree hprinter rfl rfl
        rw [run_of_parse hargs', hreport]
        exact ⟨rfl, rfl, rfl⟩
  · intro hjobs text n hn
    exact Arguments.parse_jobs hargs hjobs hn
  · intro houtput path hpath hvalue
    exact Arguments.parse_output hargs houtput ⟨hpath, hvalue⟩

section TwoModules

open TwoModules

/-- The graph is to replace one of the sources. -/
def TwoModules.request : Arguments := { root := "repo", output := some "repo/a.py", format := .text }

/-- The graph of the two modules replaces the first of them, with or without details in the log. If the
second is refused, the first stays as it is. -/
theorem twoModules_output :
    Arguments.parse ["repo", "-f", "text", "-o", "repo/a.py"] = .ok request ∧
    (∃ graph, (request.analysis parser { tree := tree textB }).outcome = .ok graph ∧
      (run parser { tree := tree textB } ["repo", "-f", "text", "-o", "repo/a.py"]).exitCode = 0 ∧
      (tree textB).Writes (.ofString "repo/a.py") (ExportFormat.text.render graph).toUTF8
        (run parser { tree := tree textB } ["repo", "-f", "text", "-o", "repo/a.py"]).tree ∧
      (run parser { tree := tree textB } ["repo", "-f", "text"]).stdout =
        ExportFormat.text.render graph ∧
      (run parser { tree := tree textB } ["-v", "repo", "-f", "text", "-o", "repo/a.py"]).tree =
        (run parser { tree := tree textB } ["repo", "-f", "text", "-o", "repo/a.py"]).tree) ∧
    (run parser { tree := tree refusedText } ["repo", "-f", "text", "-o", "repo/a.py"]).exitCode = 1 ∧
    (run parser { tree := tree refusedText } ["repo", "-f", "text", "-o", "repo/a.py"]).tree =
      tree refusedText := by
  have hargs : Arguments.parse ["repo", "-f", "text", "-o", "repo/a.py"] = .ok request := by
    decide +kernel
  have hprinted : Arguments.parse ["repo", "-f", "text"] = .ok { request with output := none } := by
    decide +kernel
  have hplace : (tree textB).placeOf (.ofString "repo/a.py") =
      .ok ⟨[.ofString "repo"], .ofString "a.py"⟩ := by
    decide +kernel
  have hgraph : (request.analysis parser { tree := tree textB }).outcome =
      .ok (.ofModules (.ofModules modules) modules) :=
    Analyzer.buildCallGraph_eq_ok_iff.2 ⟨_, _, reads, rfl⟩
  obtain ⟨-, -, e, -, -, herror⟩ := Analyzer.exists_failsWith (discover_repo refusedText)
    (.tail _ (.head _)) failsOn_fileB false .inOrder
  obtain ⟨-, hsucceeds, hverbose, -, -⟩ :=
    command_output parser { tree := tree textB } _ _ hargs
  obtain ⟨-, hwritten, hothers⟩ := hsucceeds _ hgraph
  refine ⟨hargs, ⟨_, hgraph, ?_⟩, ?_⟩
  · rcases (hwritten "repo/a.py" rfl).2 with ⟨hcode, hwrites⟩ | ⟨-, -, e', he'⟩
    · refine ⟨hcode, hwrites, ?_, ?_⟩
      · exact ((hothers _ _ rfl).1 false none hprinted rfl).2
      · exact ((hothers _ _ rfl).2 true none (hverbose rfl) rfl).2.2
    · rw [hplace] at he'
      contradiction
  · have hfails := (command_output parser { tree := tree refusedText } _ _ hargs).1 e herror
    exact ⟨hfails.1, hfails.2.2⟩

end TwoModules

end BareCallGraph
