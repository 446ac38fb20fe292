import Std.Data.TreeMap

/-!
# Name tables

A `NameTable` binds bare function names to qualified ones. A name holds one binding: a later one takes
it over, and a takeover that changes the binding is recorded. `NameTable.resolve?_insert` says what an
insertion changes, and `NameTable.takeovers_insert` what it records.
-/

namespace BareCallGraph

/-- A bare name went from one qualified name to another. -/
structure Takeover where
  /-- The name that is bound anew. -/
  bareName : String
  /-- The qualified name it had. -/
  replaced : String
  /-- The qualified name it has now. -/
  winner : String
deriving DecidableEq, Repr, Inhabited

/-- Bare names and the qualified names they stand for. -/
structure NameTable where
  /-- The present binding of each name. -/
  entries : Std.TreeMap String String
  /-- The takeovers so far, oldest first. -/
  record : Array Takeover

namespace NameTable

/-- The table that binds nothing. -/
def empty : NameTable := ⟨∅, #[]⟩

instance : Inhabited NameTable := ⟨empty⟩

/-- The qualified name that a bare name stands for. -/
def resolve? (t : NameTable) (bareName : String) : Option String := t.entries[bareName]?

/-- The takeovers so far, oldest first. -/
def takeovers (t : NameTable) : List Takeover := t.record.toList

/-- The takeover that binding a name causes, if the name stood for something else. -/
def takeover? (t : NameTable) (bareName qualified : String) : Option Takeover :=
  (t.resolve? bareName).bind fun previous =>
    if previous = qualified then none else some ⟨bareName, previous, qualified⟩

/-- Binds a name. The last binding counts. -/
def insert (t : NameTable) (bareName qualified : String) : NameTable where
  entries := t.entries.insert bareName qualified
  record :=
    match t.takeover? bareName qualified with
    | some takeover => t.record.push takeover
    | none => t.record

/-- Nothing is found in the empty table. -/
@[simp]
theorem resolve?_empty (b : String) : empty.resolve? b = none := by
  simp [empty, resolve?]

/-- A name that was inserted is found with its last value, and other names as before. -/
theorem resolve?_insert (t : NameTable) (a b q : String) :
    (t.insert a q).resolve? b = if a = b then some q else t.resolve? b := by
  simp [insert, resolve?, Std.TreeMap.getElem?_insert]

@[simp]
theorem takeovers_empty : empty.takeovers = [] := rfl

/-- Inserting records at most one takeover, behind those there are. -/
theorem takeovers_insert (t : NameTable) (b q : String) :
    (t.insert b q).takeovers = t.takeovers ++ (t.takeover? b q).toList := by
  unfold insert takeovers
  cases t.takeover? b q <;> simp

/-- Binds names one after the other. -/
def insertAll (t : NameTable) (bindings : List (String × String)) : NameTable :=
  bindings.foldl (fun t binding => t.insert binding.1 binding.2) t

/-- How many names are bound. -/
def size (t : NameTable) : Nat := t.entries.size

/-- Whether no name is bound. -/
def isEmpty (t : NameTable) : Bool := t.entries.isEmpty

/-- The qualified names that bare names stand for, one for each bare name, in byte order. -/
def qualifiedNames (t : NameTable) : List String :=
  t.entries.values.mergeSort fun a b => (compare a b).isLE

end NameTable

end BareCallGraph
