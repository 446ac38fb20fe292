import BareCallGraph.SyntaxTree.Basic

/-!
# Bare calls

A call is *bare* when what it calls is a plain name, possibly in parentheses: `f()` and `((f))()`
are bare calls of `f`, while `obj.f()` and `f()()` call something else. `SyntaxTree.bareCalls` lists
the names called bare anywhere in a tree.
-/

namespace BareCallGraph

namespace SyntaxTree

/-- The content of parentheses: the first named child that is not a comment. -/
def content? (t : SyntaxTree) : Option SyntaxTree :=
  t.children.find? fun c => c.isNamed && c.kind != .comment

/-- The content of parentheses is one of their children. -/
theorem content?_mem {t c : SyntaxTree} (h : t.content? = some c) : c ∈ t.children :=
  List.mem_of_find?_eq_some h

/-- The name that an expression is, looking through parentheses. -/
def plainName? (t : SyntaxTree) : Option String :=
  match t.kind with
  | .name => some t.text
  | .parenthesized =>
    match _h : t.content? with
    | some c => plainName? c
    | none => none
  | _ => none
termination_by t.size
decreasing_by
  exact size_lt_of_mem_children (content?_mem _h)

/-- The name that a call calls, when what it calls is a plain name. -/
def bareCallee? (t : SyntaxTree) : Option String :=
  (t.child? .callee).bind plainName?

/-- The name that a node calls bare, when the node is a call. -/
def calledName? (t : SyntaxTree) : Option String :=
  if t.kind = .call then t.bareCallee? else none

/-- The names called bare in the pending trees, after those already found. The pending trees are a
stack, so neither depth nor width of a tree costs call depth. -/
def bareCallsOnto (found : List String) : List SyntaxTree → List String
  | [] => found.reverse
  | t :: pending => bareCallsOnto (t.calledName?.toList ++ found) (t.pushChildren pending)
termination_by pending => totalSize pending
decreasing_by
  rw [pushChildren_eq, totalSize_append, totalSize, size_eq]; omega

/-- One round of the scan puts the children of the first pending tree in its place. -/
theorem bareCallsOnto_cons (found : List String) (t : SyntaxTree) (pending : List SyntaxTree) :
    bareCallsOnto found (t :: pending) =
      bareCallsOnto (t.calledName?.toList ++ found) (t.children ++ pending) := by
  rw [bareCallsOnto, pushChildren_eq]

/-- The names called bare anywhere in a tree, an outer call before those in its callee and arguments
and the children of a node from left to right. -/
def bareCalls (t : SyntaxTree) : List String := bareCallsOnto [] [t]

end SyntaxTree

end BareCallGraph
