/-!
# UTF-8

`Utf8.scan` cuts bytes into characters. Bytes that start no character, or whose character breaks off, are
malformed; each longest run of bytes that could still have become a character counts as one malformed
piece. A byte string is text when it has no malformed piece (`Utf8.text?`), and is shown with a
replacement character for each of them (`Utf8.shown`).
-/

namespace BareCallGraph.Utf8

/-- A character of which some bytes were read. -/
structure Pending where
  /-- How many bytes are still to come. -/
  left : Nat
  /-- The least byte that may come next. -/
  low : UInt8
  /-- The greatest byte that may come next. -/
  high : UInt8
  /-- The bits of the bytes read so far. -/
  value : Nat
deriving DecidableEq, Repr

/-- What the first byte of a character says: a whole character, or how the rest of it looks. Some bytes
start no character. -/
inductive Start where
  | whole (c : Char)
  | pending (p : Pending)
  | malformed
deriving DecidableEq, Repr

/-- Looks at a byte between two characters. -/
def start (b : UInt8) : Start :=
  if b < 0x80 then .whole (Char.ofNat b.toNat)
  else if b < 0xC2 then .malformed
  else if b < 0xE0 then .pending ⟨1, 0x80, 0xBF, b.toNat - 0xC0⟩
  else if b = 0xE0 then .pending ⟨2, 0xA0, 0xBF, 0⟩
  else if b = 0xED then .pending ⟨2, 0x80, 0x9F, b.toNat - 0xE0⟩
  else if b < 0xF0 then .pending ⟨2, 0x80, 0xBF, b.toNat - 0xE0⟩
  else if b = 0xF0 then .pending ⟨3, 0x90, 0xBF, 0⟩
  else if b < 0xF4 then .pending ⟨3, 0x80, 0xBF, b.toNat - 0xF0⟩
  else if b = 0xF4 then .pending ⟨3, 0x80, 0x8F, b.toNat - 0xF0⟩
  else .malformed

/-- The characters of a byte string, with nothing in place of each malformed piece. `state` is the
character whose bytes are being read, and `before` holds what was found so far, last one first. -/
def scanFrom (before : List (Option Char)) (state : Option Pending) :
    List UInt8 → List (Option Char)
  | [] => if state.isSome then (none :: before).reverse else before.reverse
  | b :: bs =>
    let fresh (before : List (Option Char)) : List (Option Char) :=
      match start b with
      | .whole c => scanFrom (some c :: before) none bs
      | .pending p => scanFrom before (some p) bs
      | .malformed => scanFrom (none :: before) none bs
    match state with
    | none => fresh before
    | some p =>
      if p.low ≤ b ∧ b ≤ p.high then
        let value := 64 * p.value + (b.toNat - 0x80)
        if p.left ≤ 1 then scanFrom (some (Char.ofNat value) :: before) none bs
        else scanFrom before (some ⟨p.left - 1, 0x80, 0xBF, value⟩) bs
      else fresh (none :: before)

/-- The characters of a byte string, with nothing in place of each malformed piece. -/
def scan (bytes : List UInt8) : List (Option Char) := scanFrom [] none bytes

/-- The text that a byte string is, if nothing in it is malformed. -/
def text? (bytes : List UInt8) : Option String :=
  ((scan bytes).mapM id).map String.ofList

/-- A byte string as text, with a replacement character for each malformed piece. -/
def shown (bytes : List UInt8) : String :=
  String.ofList ((scan bytes).map (·.getD '\ufffd'))

end BareCallGraph.Utf8
