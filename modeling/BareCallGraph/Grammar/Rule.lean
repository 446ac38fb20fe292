import BareCallGraph.SyntaxTree.Basic

/-!
# Grammar rules

A grammar gives each nonterminal a `Rule`: terminals and nonterminals in sequence, in choice and
repeated. Rules also carry what settles ambiguities. A *rank* with an optional *side* decides, while
tables are built, between going on and closing a phrase; a *weight* decides, while a text is read,
between two readings of it. A *mark* says how a part is shown in the finished tree.

`Rule.alternatives` spells a rule out as the flat sequences of steps that it stands for. A repetition
becomes a nonterminal of its own, and equal repetitions become the same one.
-/

namespace BareCallGraph.Grammar

/-- How a part of a phrase is shown in the finished tree. -/
structure Mark where
  /-- The kind it is shown as, if not as its own. -/
  kind : Option Kind := none
  /-- The part it plays. -/
  role : Option Role := none
deriving DecidableEq, Hashable, Repr, Inhabited

/-- What an outer mark leaves open, an inner one says. -/
def Mark.over (outer inner : Mark) : Mark :=
  ⟨outer.kind <|> inner.kind, outer.role <|> inner.role⟩

/-- To which side operators of one rank group. -/
inductive Side where
  | left
  | right
deriving DecidableEq, Hashable, Repr, Inhabited

/-- What a nonterminal may be written as. -/
inductive Rule (T N : Type) where
  /-- Nothing at all. -/
  | empty
  /-- One token. -/
  | terminal (t : T)
  /-- One phrase. -/
  | nonterminal (n : N)
  /-- All parts, one after the other. -/
  | sequence (parts : List (Rule T N))
  /-- One of several. -/
  | choice (options : List (Rule T N))
  /-- The body, once or more often. -/
  | repeated (body : Rule T N)
  /-- The body, shown as the mark says. -/
  | marked (mark : Mark) (body : Rule T N)
  /-- The body, with a rank and a side for the steps that have none of their own. -/
  | ranked (rank : Int) (side : Option Side) (body : Rule T N)
  /-- The body, with a weight for the readings that use it. -/
  | weighted (weight : Int) (body : Rule T N)
deriving Inhabited

namespace Rule

variable {T N : Type} [BEq T] [BEq N]

mutual
/-- Whether two rules are the same. -/
def same : Rule T N → Rule T N → Bool
  | .empty, .empty => true
  | .terminal t, .terminal u => t == u
  | .nonterminal m, .nonterminal n => m == n
  | .sequence ps, .sequence qs => sameAll ps qs
  | .choice ps, .choice qs => sameAll ps qs
  | .repeated p, .repeated q => p.same q
  | .marked mark p, .marked other q => mark == other && p.same q
  | .ranked rank side p, .ranked rank' side' q => rank == rank' && side == side' && p.same q
  | .weighted weight p, .weighted weight' q => weight == weight' && p.same q
  | _, _ => false

/-- Whether two lists of rules are the same. -/
def sameAll : List (Rule T N) → List (Rule T N) → Bool
  | [], [] => true
  | p :: ps, q :: qs => p.same q && sameAll ps qs
  | _, _ => false
end

instance : BEq (Rule T N) := ⟨same⟩

mutual
/-- A rule is the same as itself. -/
theorem same_refl [ReflBEq T] [ReflBEq N] : ∀ p : Rule T N, p.same p = true
  | .empty => rfl
  | .terminal t => BEq.refl t
  | .nonterminal n => BEq.refl n
  | .sequence ps => sameAll_refl ps
  | .choice ps => sameAll_refl ps
  | .repeated p => same_refl p
  | .marked mark p => by simp [same, same_refl p]
  | .ranked rank side p => by simp [same, same_refl p]
  | .weighted weight p => by simp [same, same_refl p]

/-- Rules are the same as themselves. -/
theorem sameAll_refl [ReflBEq T] [ReflBEq N] : ∀ ps : List (Rule T N), sameAll ps ps = true
  | [] => rfl
  | p :: ps => by simp [sameAll, same_refl p, sameAll_refl ps]
end

mutual
/-- Rules that are the same are equal. -/
theorem eq_of_same [LawfulBEq T] [LawfulBEq N] : ∀ p q : Rule T N, p.same q = true → p = q
  | .empty, q, h => by cases q <;> simp_all [same]
  | .terminal t, q, h => by cases q <;> simp_all [same]
  | .nonterminal n, q, h => by cases q <;> simp_all [same]
  | .sequence ps, q, h => by
    cases q with
    | sequence qs => rw [eq_of_sameAll ps qs h]
    | _ => simp [same] at h
  | .choice ps, q, h => by
    cases q with
    | choice qs => rw [eq_of_sameAll ps qs h]
    | _ => simp [same] at h
  | .repeated p, q, h => by
    cases q with
    | repeated q => rw [eq_of_same p q h]
    | _ => simp [same] at h
  | .marked mark p, q, h => by
    cases q with
    | marked other q =>
      obtain ⟨hmark, hbody⟩ := Bool.and_eq_true_iff.1 h
      rw [eq_of_beq hmark, eq_of_same p q hbody]
    | _ => simp [same] at h
  | .ranked rank side p, q, h => by
    cases q with
    | ranked rank' side' q =>
      obtain ⟨hranked, hbody⟩ := Bool.and_eq_true_iff.1 h
      obtain ⟨hrank, hside⟩ := Bool.and_eq_true_iff.1 hranked
      rw [eq_of_beq hrank, eq_of_beq hside, eq_of_same p q hbody]
    | _ => simp [same] at h
  | .weighted weight p, q, h => by
    cases q with
    | weighted weight' q =>
      obtain ⟨hweight, hbody⟩ := Bool.and_eq_true_iff.1 h
      rw [eq_of_beq hweight, eq_of_same p q hbody]
    | _ => simp [same] at h

/-- Lists of rules that are the same are equal. -/
theorem eq_of_sameAll [LawfulBEq T] [LawfulBEq N] :
    ∀ ps qs : List (Rule T N), sameAll ps qs = true → ps = qs
  | [], qs, h => by cases qs <;> simp_all [sameAll]
  | p :: ps, qs, h => by
    cases qs with
    | nil => simp [sameAll] at h
    | cons q qs =>
      obtain ⟨hfirst, hrest⟩ := Bool.and_eq_true_iff.1 h
      rw [eq_of_same p q hfirst, eq_of_sameAll ps qs hrest]
end

instance [LawfulBEq T] [LawfulBEq N] : LawfulBEq (Rule T N) where
  rfl := same_refl _
  eq_of_beq h := eq_of_same _ _ h

end Rule

/-- A terminal or a nonterminal, by its number. -/
inductive Symbol where
  | terminal (index : Nat)
  | nonterminal (index : Nat)
deriving DecidableEq, Hashable, Repr, Inhabited

/-- One symbol of a flat sequence. -/
structure Step where
  /-- What stands here. -/
  symbol : Symbol
  /-- How it is shown. -/
  mark : Mark := {}
  /-- The rank that holds once this step is passed. -/
  rank : Option Int := none
  /-- The side that holds once this step is passed. -/
  side : Option Side := none
deriving DecidableEq, Hashable, Repr, Inhabited

/-- A flat sequence of steps and the weight of choosing it. -/
structure Alternative where
  /-- The symbols in order. -/
  steps : List Step
  /-- What a reading that uses the sequence gains. -/
  weight : Int
deriving DecidableEq, Hashable, Repr, Inhabited

namespace Alternative

/-- One sequence after another. Of two weights the one further from zero counts. -/
def append (a b : Alternative) : Alternative :=
  ⟨a.steps ++ b.steps, if a.weight.natAbs < b.weight.natAbs then b.weight else a.weight⟩

/-- The sequence with a change to each of its steps. -/
def mapSteps (a : Alternative) (f : Step → Step) : Alternative :=
  ⟨a.steps.map f, a.weight⟩

/-- The sequence of one symbol. -/
def ofSymbol (s : Symbol) : Alternative := ⟨[{ symbol := s }], 0⟩

end Alternative

/-- Numbers for the symbols of a grammar. -/
structure Coding (T N : Type) where
  /-- The number of a terminal. -/
  terminal : T → Nat
  /-- The number of a nonterminal. -/
  nonterminal : N → Nat
  /-- The number of the nonterminal that stands for a repetition of the given body. -/
  repetition : Rule T N → Nat

namespace Rule

variable {T N : Type}

/-- The rule or nothing. -/
def optional (r : Rule T N) : Rule T N := .choice [r, .empty]

/-- The rule any number of times. -/
def many (r : Rule T N) : Rule T N := .choice [.repeated r, .empty]

/-- The rule once or more often, with `separator` between two of them. -/
def separated (separator r : Rule T N) : Rule T N :=
  .sequence [r, many (.sequence [separator, r])]

mutual
/-- The terminals of a rule, in order of appearance. -/
def terminals : Rule T N → List T
  | .empty => []
  | .terminal t => [t]
  | .nonterminal _ => []
  | .sequence parts => terminalsOfAll parts
  | .choice options => terminalsOfAll options
  | .repeated body => body.terminals
  | .marked _ body => body.terminals
  | .ranked _ _ body => body.terminals
  | .weighted _ body => body.terminals

/-- The terminals of several rules, in order of appearance. -/
def terminalsOfAll : List (Rule T N) → List T
  | [] => []
  | r :: rs => r.terminals ++ terminalsOfAll rs
end

mutual
/-- The bodies of the repetitions in a rule, inner ones before outer ones. -/
def repetitions : Rule T N → List (Rule T N)
  | .empty => []
  | .terminal _ => []
  | .nonterminal _ => []
  | .sequence parts => repetitionsOfAll parts
  | .choice options => repetitionsOfAll options
  | .repeated body => body.repetitions ++ [body]
  | .marked _ body => body.repetitions
  | .ranked _ _ body => body.repetitions
  | .weighted _ body => body.repetitions

/-- The bodies of the repetitions in several rules. -/
def repetitionsOfAll : List (Rule T N) → List (Rule T N)
  | [] => []
  | r :: rs => r.repetitions ++ repetitionsOfAll rs
end

mutual
/-- The flat sequences that a rule stands for. -/
def alternatives (code : Coding T N) : Rule T N → List Alternative
  | .empty => [⟨[], 0⟩]
  | .terminal t => [.ofSymbol (.terminal (code.terminal t))]
  | .nonterminal n => [.ofSymbol (.nonterminal (code.nonterminal n))]
  | .sequence parts => sequences code parts
  | .choice options => choices code options
  | .repeated body => [.ofSymbol (.nonterminal (code.repetition body))]
  | .marked mark body =>
    (body.alternatives code).map (·.mapSteps fun s => { s with mark := mark.over s.mark })
  | .ranked rank side body =>
    (body.alternatives code).map
      (·.mapSteps fun s => { s with rank := s.rank <|> some rank, side := s.side <|> side })
  | .weighted weight body =>
    (body.alternatives code).map fun a => ⟨a.steps, (a.append ⟨[], weight⟩).weight⟩

/-- The flat sequences of several rules one after the other. -/
def sequences (code : Coding T N) : List (Rule T N) → List Alternative
  | [] => [⟨[], 0⟩]
  | r :: rs =>
    let tails := sequences code rs
    (r.alternatives code).flatMap fun a => tails.map a.append

/-- The flat sequences of one of several rules. -/
def choices (code : Coding T N) : List (Rule T N) → List Alternative
  | [] => []
  | r :: rs => r.alternatives code ++ choices code rs
end

end Rule

/-- A production: a nonterminal and one of the flat sequences it may be written as. -/
structure Production where
  /-- The number of the nonterminal. -/
  head : Nat
  /-- The symbols in order. -/
  steps : List Step
  /-- What a reading that uses the production gains. -/
  weight : Int
deriving DecidableEq, Repr, Inhabited

/-- A grammar: its nonterminals in order, the rule of each, and the one that a whole text is. -/
structure Definition (T N : Type) where
  /-- All nonterminals; the earlier one is preferred between readings that are otherwise equal. -/
  nonterminals : List N
  /-- What each nonterminal may be written as. -/
  rule : N → Rule T N
  /-- The nonterminal of a whole text. -/
  start : N
  /-- The terminal that stands behind a whole text. -/
  final : T

namespace Definition

variable {T N : Type} [BEq T] [BEq N]

/-- All terminals, in order of appearance. -/
def terminals (g : Definition T N) : List T :=
  ((g.nonterminals.flatMap fun n => (g.rule n).terminals) ++ [g.final]).eraseDups

/-- The bodies of all repetitions, each once. -/
def repetitions (g : Definition T N) : List (Rule T N) :=
  (g.nonterminals.flatMap fun n => (g.rule n).repetitions).eraseDups

/-- Terminals and nonterminals are numbered in order; repetitions follow the nonterminals. -/
def coding (g : Definition T N) : Coding T N :=
  let terminals := g.terminals
  let repetitions := g.repetitions
  { terminal := terminals.idxOf
    nonterminal := g.nonterminals.idxOf
    repetition := fun body => g.nonterminals.length + repetitions.idxOf body }

/-- The productions of a nonterminal with the given alternatives, each once. -/
def productionsOf (head : Nat) (alternatives : List Alternative) : List Production :=
  alternatives.eraseDups.map fun a => ⟨head, a.steps, a.weight⟩

/-- The productions of a repetition: the body, or the repetition followed by the body. -/
def productionsOfRepetition (head : Nat) (alternatives : List Alternative) : List Production :=
  productionsOf head
    (alternatives ++ alternatives.map (Alternative.append (.ofSymbol (.nonterminal head))))

/-- All productions, those of the nonterminals in order and then those of the repetitions. -/
def productions (g : Definition T N) : List Production :=
  let code := g.coding
  (g.nonterminals.flatMap fun n =>
      productionsOf (code.nonterminal n) ((g.rule n).alternatives code)) ++
    g.repetitions.flatMap fun body =>
      productionsOfRepetition (code.repetition body) (body.alternatives code)

end Definition

end BareCallGraph.Grammar
