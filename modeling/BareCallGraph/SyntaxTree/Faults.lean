import BareCallGraph.SyntaxTree.Basic

/-!
# Faults

A tree is faulty where it holds an error, a missing token or a statement of Python 2. The fault that
is reported is the first one in pre-order.
-/

namespace BareCallGraph

/-- The kinds of node that no accepted module holds. -/
def Kind.isFault : Kind → Bool
  | .error | .missing | .legacyStatement => true
  | _ => false

namespace SyntaxTree

/-- The first faulty node of the pending trees. The pending trees are a stack, so neither depth nor
width of a tree costs call depth. -/
def firstFaultOf : List SyntaxTree → Option SyntaxTree
  | [] => none
  | t :: pending => if t.kind.isFault then some t else firstFaultOf (t.pushChildren pending)
termination_by pending => totalSize pending
decreasing_by
  rw [pushChildren_eq, totalSize_append, totalSize, size_eq]; omega

/-- A tree that is no fault itself is searched through its children. -/
theorem firstFaultOf_cons (t : SyntaxTree) (pending : List SyntaxTree) :
    firstFaultOf (t :: pending) =
      if t.kind.isFault then some t else firstFaultOf (t.children ++ pending) := by
  rw [firstFaultOf, pushChildren_eq]

/-- Where the first fault of a tree starts, if there is one. -/
def firstFault? (t : SyntaxTree) : Option Position := (firstFaultOf [t]).map start

end SyntaxTree

end BareCallGraph
