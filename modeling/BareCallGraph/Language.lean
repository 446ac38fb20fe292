import BareCallGraph.FileTree.Path

/-!
# Languages

Which files belong to a language, and the name of the module that such a file holds. A file belongs to a
language when its name ends in a dot and one of the language's extensions, case and all.
-/

namespace BareCallGraph

/-- The languages whose sources can be analysed. -/
inductive Language where
  | python
deriving DecidableEq, Repr, Inhabited

namespace Language

/-- All languages. -/
def all : List Language := [python]

/-- How a language is called. -/
def name : Language → String
  | python => "Python"

/-- The extensions of the language's files, without the dot. -/
def extensions : Language → List String
  | python => ["py"]

/-- The language that a word names, in any case. No letter beyond ASCII has the same small letter as one
of these words. -/
def ofName? (word : String) : Option Language :=
  let word := word.map Char.toLower
  if word = "python" ∨ word = "py" then some python else none

/-- The language that has an extension. -/
def ofExtension? (extension : String) : Option Language :=
  all.find? (·.extensions.contains extension)

/-- Whether a file name belongs to the language. -/
def matchesFileName (l : Language) (fileName : String) : Bool :=
  l.extensions.any fun extension => ('.' :: extension.toList).isSuffixOf fileName.toList

/-- The language that a file name belongs to. -/
def ofFileName? (fileName : String) : Option Language :=
  all.find? (·.matchesFileName fileName)

/-- The language that the file at a path belongs to. -/
def ofPath? (path : String) : Option Language := (Path.fileName? path).bind ofFileName?

/-- The name of the module that a file holds, if the file belongs to the language. -/
def moduleOfFileName? (l : Language) (fileName : String) : Option String :=
  if l.matchesFileName fileName then some (Path.stem fileName) else none

/-- The name of the module that the file at a path holds, if the file belongs to the language. -/
def moduleOfPath? (l : Language) (path : String) : Option String :=
  (Path.fileName? path).bind l.moduleOfFileName?

end Language

end BareCallGraph
