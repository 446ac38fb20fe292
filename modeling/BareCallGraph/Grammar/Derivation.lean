import BareCallGraph.Grammar.Rule

/-!
# Derivations

A `Derivation` records how a stretch of text was read: a token, or a phrase with its parts. When a
text can be read in two ways, `Derivation.beats` says whether the later reading replaces the earlier
one: the heavier wins, and of two equally heavy ones the smaller in the order of their phrases.
-/

namespace BareCallGraph.Grammar

/-- A token of a text. -/
structure Token (T : Type) where
  /-- What kind of token it is. -/
  terminal : T
  /-- Its characters. -/
  text : List Char
  /-- Where it starts. -/
  start : Position
deriving Repr, Inhabited

/-- How a stretch of text was read. -/
inductive Derivation (T : Type) where
  /-- One token; `symbol` is the number of its terminal. -/
  | leaf (symbol : Nat) (token : Token T) (stop : Position)
  /-- A phrase: the number of its nonterminal behind those of the terminals, the weights in it, where
  it starts and stops, and its parts, each with the way it is shown. -/
  | phrase (symbol : Nat) (weight : Int) (start stop : Position)
      (parts : List (Mark × Derivation T))
deriving Inhabited

namespace Derivation

variable {T : Type}

/-- The number of the symbol that was read. -/
def symbol : Derivation T → Nat
  | leaf symbol _ _ => symbol
  | phrase symbol _ _ _ _ => symbol

/-- The sum of the weights of all phrases in it. -/
def weight : Derivation T → Int
  | leaf _ _ _ => 0
  | phrase _ weight _ _ _ => weight

/-- Where it starts. -/
def start : Derivation T → Position
  | leaf _ token _ => token.start
  | phrase _ _ start _ _ => start

/-- Where it stops. -/
def stop : Derivation T → Position
  | leaf _ _ stop => stop
  | phrase _ _ _ stop _ => stop

/-- Its parts. -/
def parts : Derivation T → List (Mark × Derivation T)
  | leaf _ _ _ => []
  | phrase _ _ _ _ parts => parts

/-- A phrase that is closed at `here`. -/
def close (symbol : Nat) (weight : Int) (here : Position) (parts : List (Mark × Derivation T)) :
    Derivation T :=
  let start := (parts.head?.map (·.2.start)).getD here
  let stop := (parts.getLast?.map (·.2.stop)).getD here
  phrase symbol (parts.foldl (fun w p => w + p.2.weight) weight) start stop parts

/-- Whether two derivations stand for the same phrase over the same text with as many parts. -/
def resembles (a b : Derivation T) : Bool :=
  a.symbol == b.symbol && a.start.offset == b.start.offset && a.stop.offset == b.stop.offset &&
    a.parts.length == b.parts.length

mutual
/-- The order of two derivations by their symbols, then by the number of their parts, then by the
parts from left to right. -/
def order : Derivation T → Derivation T → Ordering
  | leaf s _ _, d => (compare s d.symbol).then (compare 0 d.parts.length)
  | phrase s _ _ _ ps, d =>
    (compare s d.symbol).then ((compare ps.length d.parts.length).then (orderAll ps d.parts))

/-- The order of two lists of parts, by the first that differ. -/
def orderAll : List (Mark × Derivation T) → List (Mark × Derivation T) → Ordering
  | (_, a) :: as, (_, b) :: bs => (order a b).then (orderAll as bs)
  | _, _ => .eq
end

/-- Whether the later reading `b` replaces the earlier reading `a`. -/
def beats (b a : Derivation T) : Bool :=
  a.weight < b.weight || (a.weight == b.weight && order a b == .gt)

end Derivation

end BareCallGraph.Grammar
