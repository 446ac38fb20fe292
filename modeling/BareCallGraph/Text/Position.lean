/-!
# Places in a text

A `Position` says where a character stands: how many bytes come before it, and its line and column.
A `Cursor` is a position together with the characters that follow it. Reading only ever moves a
cursor forward, and `Cursor.take_append_rest` says that nothing is lost on the way.
-/

namespace BareCallGraph

/-- A place in a text. Lines and columns count from one, and columns count bytes of UTF-8. -/
structure Position where
  /-- Number of bytes before the place. -/
  offset : Nat
  /-- One more than the number of line feeds before the place. -/
  line : Nat
  /-- One more than the number of bytes between the last line feed and the place. -/
  column : Nat
deriving DecidableEq, Repr, Inhabited

namespace Position

/-- The first place of every text. -/
def start : Position := ⟨0, 1, 1⟩

/-- The place right behind the character `c` that stands at `p`. -/
def past (p : Position) (c : Char) : Position :=
  if c = '\n' then ⟨p.offset + 1, p.line + 1, 1⟩
  else ⟨p.offset + c.utf8Size, p.line, p.column + c.utf8Size⟩

/-- The place right behind a run of characters that starts at `p`. -/
def pastAll (p : Position) (cs : List Char) : Position :=
  cs.foldl past p

@[simp]
theorem pastAll_nil (p : Position) : p.pastAll [] = p := rfl

@[simp]
theorem pastAll_cons (p : Position) (c : Char) (cs : List Char) :
    p.pastAll (c :: cs) = (p.past c).pastAll cs := rfl

/-- Going past a text is going past its first part and then past the other. -/
theorem pastAll_append (p : Position) (cs ds : List Char) :
    p.pastAll (cs ++ ds) = (p.pastAll cs).pastAll ds := by
  simp [pastAll, List.foldl_append]

end Position

/-- A place in a text and the characters from there to the end. -/
structure Cursor where
  /-- Where the first of the remaining characters stands. -/
  position : Position
  /-- The characters not read yet. -/
  rest : List Char
deriving Repr, Inhabited

namespace Cursor

/-- The cursor at the start of a text. -/
def ofString (text : String) : Cursor := ⟨.start, text.toList⟩

/-- The next `n` characters. -/
def take (c : Cursor) (n : Nat) : List Char := c.rest.take n

/-- The cursor `n` characters further on, or at the end if fewer remain. -/
def skip (c : Cursor) (n : Nat) : Cursor :=
  ⟨c.position.pastAll (c.rest.take n), c.rest.drop n⟩

/-- What is taken and what remains behind it make up what there was. -/
theorem take_append_rest (c : Cursor) (n : Nat) : c.take n ++ (c.skip n).rest = c.rest :=
  List.take_append_drop n c.rest

end Cursor

end BareCallGraph
