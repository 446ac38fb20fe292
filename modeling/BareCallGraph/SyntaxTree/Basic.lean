import BareCallGraph.Text.Position

/-!
# Syntax trees

A `SyntaxTree` is what reading a Python module gives: nodes with a `Kind`, the place where they
start, the text of a token, and their children in source order. Only the kinds that the analysis
looks at have a name of their own. Comments and line continuations are nodes too, and so are faults:
text that fits nowhere (`Kind.error`) and tokens that should be there and are not (`Kind.missing`).

The size of a tree (`SyntaxTree.size`) counts its nodes; children are smaller than their parent
(`SyntaxTree.size_lt_of_mem_children`), which is what every walk over a tree ends by.
-/

namespace BareCallGraph

/-- What a node of a syntax tree is. -/
inductive Kind where
  /-- A whole source text. -/
  | module
  /-- `def`, with or without `async`. -/
  | functionDefinition
  /-- Decorators and the definition under them. -/
  | decoratedDefinition
  /-- A called expression and its arguments. -/
  | call
  /-- An identifier. -/
  | name
  /-- An expression in parentheses. -/
  | parenthesized
  /-- A `print` or `exec` statement of Python 2. -/
  | legacyStatement
  /-- From a number sign to the end of the line. -/
  | comment
  /-- A backslash before a line feed. -/
  | lineContinuation
  /-- Text that fits nowhere. -/
  | error
  /-- A token that is needed here and is not in the text. -/
  | missing
  /-- A keyword or an operator. -/
  | token
  /-- Every other construct. -/
  | other
deriving DecidableEq, Hashable, Repr, Inhabited

/-- The part that a node plays in its parent. -/
inductive Role where
  /-- The expression that a call calls. -/
  | callee
  /-- The definition that decorators stand over. -/
  | definition
  /-- The name that a definition binds. -/
  | name
deriving DecidableEq, Hashable, Repr, Inhabited

/-- A node with its children in source order. Tokens carry their text, inner nodes carry none. -/
inductive SyntaxTree where
  | node (kind : Kind) (role : Option Role) (start : Position) (text : String)
      (children : List SyntaxTree)
deriving Repr, Inhabited

namespace SyntaxTree

/-- What the node is. -/
def kind : SyntaxTree → Kind
  | node kind _ _ _ _ => kind

/-- The part that the node plays in its parent, if it has one. -/
def role : SyntaxTree → Option Role
  | node _ role _ _ _ => role

/-- Where the node starts. -/
def start : SyntaxTree → Position
  | node _ _ start _ _ => start

/-- The text of a token. -/
def text : SyntaxTree → String
  | node _ _ _ text _ => text

/-- The children in source order. -/
def children : SyntaxTree → List SyntaxTree
  | node _ _ _ _ children => children

section

variable (kind : Kind) (role : Option Role) (start : Position) (text : String)
  (children : List SyntaxTree)

@[simp]
theorem kind_node : (node kind role start text children).kind = kind := rfl

@[simp]
theorem role_node : (node kind role start text children).role = role := rfl

@[simp]
theorem start_node : (node kind role start text children).start = start := rfl

@[simp]
theorem text_node : (node kind role start text children).text = text := rfl

@[simp]
theorem children_node : (node kind role start text children).children = children := rfl

end

/-- Keywords and operators are the nodes without a name of their own. -/
def isNamed (t : SyntaxTree) : Bool := t.kind != .token

/-- The child that plays the part `r`. -/
def child? (t : SyntaxTree) (r : Role) : Option SyntaxTree :=
  t.children.find? (·.role == some r)

mutual
/-- The number of nodes of a tree. -/
def size : SyntaxTree → Nat
  | node _ _ _ _ children => 1 + totalSize children

/-- The number of nodes of a list of trees. -/
def totalSize : List SyntaxTree → Nat
  | [] => 0
  | t :: ts => t.size + totalSize ts
end

/-- A tree is larger by one than its children together. -/
theorem size_eq (t : SyntaxTree) : t.size = 1 + totalSize t.children := by
  cases t; simp [size]

/-- The size of several trees is the sum of the sizes of the first and the others. -/
@[simp]
theorem totalSize_append (ts us : List SyntaxTree) :
    totalSize (ts ++ us) = totalSize ts + totalSize us := by
  induction ts with
  | nil => simp [totalSize]
  | cons t ts ih => simp [totalSize, ih]; omega

/-- No tree is larger than all of several trees together. -/
theorem size_le_totalSize_of_mem {t : SyntaxTree} {ts : List SyntaxTree} (h : t ∈ ts) :
    t.size ≤ totalSize ts := by
  induction ts with
  | nil => cases h
  | cons u us ih =>
    rw [totalSize]
    cases h with
    | head => omega
    | tail _ h => have := ih h; omega

/-- A child has fewer nodes than its parent. -/
theorem size_lt_of_mem_children {t u : SyntaxTree} (h : u ∈ t.children) : u.size < t.size := by
  rw [size_eq t]
  have := size_le_totalSize_of_mem h
  omega

/-- Puts the children of a node on a stack of trees, from the last one to the first. -/
def pushChildren (t : SyntaxTree) (stack : List SyntaxTree) : List SyntaxTree :=
  (List.range t.children.length).reverse.foldl
    (fun stack i => t.children[i]?.elim stack (· :: stack)) stack

/-- The children end up on top of the stack, the first one uppermost. -/
@[simp]
theorem pushChildren_eq (t : SyntaxTree) (stack : List SyntaxTree) :
    t.pushChildren stack = t.children ++ stack := by
  have hall : (List.range t.children.length).map (t.children[·]?) = t.children.map some := by
    refine List.ext_getElem? ?_
    intro i
    by_cases hi : i < t.children.length <;> simp [hi]
  have hpush : t.pushChildren stack = ((List.range t.children.length).map (t.children[·]?)).foldr
      (fun child stack => child.elim stack (· :: stack)) stack := by
    rw [pushChildren, List.foldl_reverse, List.foldr_map]
  rw [hpush, hall, List.foldr_map]
  simp only [Option.elim_some, List.foldr_cons_eq_append']

/-- All nodes of the pending trees, each before its children and these from left to right. The
pending trees are a stack, so neither depth nor width of a tree costs call depth. -/
def preorderOnto (visited : List SyntaxTree) : List SyntaxTree → List SyntaxTree
  | [] => visited.reverse
  | t :: pending => preorderOnto (t :: visited) (t.children ++ pending)
termination_by pending => totalSize pending
decreasing_by
  rw [totalSize_append, totalSize, size_eq]; omega

/-- All nodes of a tree, each before its children and these from left to right. -/
def preorder (t : SyntaxTree) : List SyntaxTree := preorderOnto [] [t]

/-- How many nodes of a kind a tree has. -/
def count (t : SyntaxTree) (k : Kind) : Nat := t.preorder.countP (·.kind == k)

end SyntaxTree

end BareCallGraph
