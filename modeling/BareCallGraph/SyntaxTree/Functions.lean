import BareCallGraph.SyntaxTree.Calls

/-!
# Top-level functions

The plain functions that a module defines directly at its top: a `def` without `async` that is a child
of the module, or the definition under decorators that are. The *scope* of a function is the subtree
whose calls count as its own; it includes the decorators.
-/

namespace BareCallGraph

/-- A plain function defined at the top of a module. -/
structure TopLevelFunction where
  /-- The name it binds. -/
  name : String
  /-- The definition, or the decorated definition around it. -/
  scope : SyntaxTree
deriving Inhabited

namespace SyntaxTree

/-- Whether a definition starts with the keyword `async`. -/
def isAsync (t : SyntaxTree) : Bool :=
  t.children.head?.any fun c => c.kind == .token && c.text == "async"

/-- The function definition that a statement is or decorates. -/
def definition? (t : SyntaxTree) : Option SyntaxTree :=
  match t.kind with
  | .functionDefinition => some t
  | .decoratedDefinition => (t.child? .definition).filter (·.kind == .functionDefinition)
  | _ => none

/-- The plain function that a statement defines. -/
def plainFunction? (t : SyntaxTree) : Option TopLevelFunction := do
  let definition ← t.definition?
  if definition.isAsync then none
  else
    let name ← definition.child? .name
    some ⟨name.text, t⟩

/-- The plain functions defined at the top of a module, in source order. -/
def topLevelFunctions (t : SyntaxTree) : List TopLevelFunction :=
  t.children.filterMap plainFunction?

end SyntaxTree

end BareCallGraph
