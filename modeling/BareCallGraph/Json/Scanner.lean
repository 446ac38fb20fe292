import BareCallGraph.Json.Value

/-!
# The parts of a JSON text

Readers for what a JSON text is made of: blanks, fixed words, numbers and strings. Each takes the
characters from some place on and gives what it read together with the rest, and the rest is shorter
(`rest_lt_of_string`, `rest_lt_of_number`).

A text can be read or be skipped. Skipping is for parts that nobody wants to see: halves of
surrogate pairs may then stand alone, and a number cut short by the end of the text counts as badly
formed.
-/

namespace BareCallGraph

/-- Why a JSON text cannot be read. -/
inductive ReadFault where
  /-- It is no JSON text, whatever may follow. -/
  | malformed
  /-- It is a JSON text so far, but not of the shape that is wanted. -/
  | mismatched
  /-- It ends too early. -/
  | truncated
deriving DecidableEq, Repr, Inhabited

/-- Whether what is read matters to anyone. -/
inductive Interest where
  | reading
  | skipping
deriving DecidableEq, Repr, Inhabited

namespace Scanner

/-- The blanks of a JSON text. -/
def isBlank (c : Char) : Bool := c == ' ' || c == '\n' || c == '\t' || c == '\r'

/-- The text behind leading blanks. -/
def skipBlanks (cs : List Char) : List Char := cs.dropWhile isBlank

/-- Dropping characters leaves no more text than there was. -/
theorem length_dropWhile_le (p : Char → Bool) (cs : List Char) :
    (cs.dropWhile p).length ≤ cs.length :=
  (List.dropWhile_sublist p).length_le

/-- Skipping blanks leaves no more text than there was. -/
theorem length_skipBlanks_le (cs : List Char) : (skipBlanks cs).length ≤ cs.length :=
  length_dropWhile_le isBlank cs

/-- Reads the letters of a fixed word. -/
def word : List Char → List Char → Except ReadFault (List Char)
  | [], cs => .ok cs
  | _ :: _, [] => .error .truncated
  | w :: ws, c :: cs => if c = w then word ws cs else .error .malformed

/-- A word leaves no more text than there was. -/
theorem rest_le_of_word {ws cs rest : List Char} (h : word ws cs = .ok rest) :
    rest.length ≤ cs.length := by
  induction ws generalizing cs with
  | nil => cases h; exact Nat.le_refl _
  | cons w ws ih =>
    cases cs with
    | nil => cases h
    | cons c cs =>
      rw [word] at h
      split at h
      · exact Nat.le_succ_of_le (ih h)
      · cases h

/-- What is wrong where a digit is needed and the given text stands. -/
def missingDigit (interest : Interest) : List Char → ReadFault
  | [] => if interest = .reading then .truncated else .malformed
  | _ :: _ => .malformed

/-- Reads one or more digits. -/
def digits (interest : Interest) (cs : List Char) : Except ReadFault (List Char × List Char) :=
  match cs.takeWhile Char.isDigit with
  | [] => .error (missingDigit interest cs)
  | d :: ds => .ok (d :: ds, cs.dropWhile Char.isDigit)

/-- The number that a run of digits is. -/
def valueOf (ds : List Char) : Nat :=
  ds.foldl (fun value d => 10 * value + (d.toNat - '0'.toNat)) 0

/-- Reads the digits before the point. A zero stands alone there. -/
def wholePart (interest : Interest) (cs : List Char) : Except ReadFault (List Char × List Char) :=
  match digits interest cs with
  | .ok ('0' :: _ :: _, _) => .error .malformed
  | result => result

/-- Reads a point and the digits behind it, if there is a point. -/
def fraction (interest : Interest) : List Char → Except ReadFault (List Char × List Char)
  | '.' :: cs => digits interest cs
  | cs => .ok ([], cs)

/-- Reads the digits of an exponent and its sign. -/
def signedExponent (interest : Interest) : List Char → Except ReadFault (Int × List Char)
  | '+' :: cs => (digits interest cs).map fun (ds, rest) => ((valueOf ds : Int), rest)
  | '-' :: cs => (digits interest cs).map fun (ds, rest) => (-(valueOf ds : Int), rest)
  | cs => (digits interest cs).map fun (ds, rest) => ((valueOf ds : Int), rest)

/-- Reads an exponent, if there is one. -/
def exponent (interest : Interest) : List Char → Except ReadFault (Int × List Char)
  | 'e' :: cs => signedExponent interest cs
  | 'E' :: cs => signedExponent interest cs
  | cs => .ok (0, cs)

/-- Reads a number without a sign. -/
def unsignedNumber (interest : Interest) (negative : Bool) (cs : List Char) :
    Except ReadFault (Decimal × List Char) := do
  let (whole, cs) ← wholePart interest cs
  let (part, cs) ← fraction interest cs
  let (power, cs) ← exponent interest cs
  return (⟨negative, valueOf (whole ++ part), power - part.length⟩, cs)

/-- Reads a number. -/
def number (interest : Interest) : List Char → Except ReadFault (Decimal × List Char)
  | '-' :: cs => unsignedNumber interest true cs
  | cs => unsignedNumber interest false cs

/-- Digits leave less text than there was, since there is at least one. -/
theorem rest_lt_of_digits {i : Interest} {cs ds rest : List Char}
    (h : digits i cs = .ok (ds, rest)) : rest.length < cs.length := by
  unfold digits at h
  split at h
  · cases h
  · next d ds' hd =>
    cases h
    have h₁ := congrArg List.length (List.takeWhile_append_dropWhile (p := Char.isDigit) (l := cs))
    rw [hd] at h₁
    simp only [List.length_append, List.length_cons] at h₁
    omega

/-- The digits before the point leave less text than there was. -/
theorem rest_lt_of_wholePart {i : Interest} {cs ds rest : List Char}
    (h : wholePart i cs = .ok (ds, rest)) : rest.length < cs.length := by
  unfold wholePart at h
  split at h
  · cases h
  · exact rest_lt_of_digits h

/-- A fraction leaves no more text than there was. -/
theorem rest_le_of_fraction {i : Interest} {cs ds rest : List Char}
    (h : fraction i cs = .ok (ds, rest)) : rest.length ≤ cs.length := by
  unfold fraction at h
  split at h
  · exact Nat.le_succ_of_le (Nat.le_of_lt (rest_lt_of_digits h))
  · cases h; exact Nat.le_refl _

/-- Digits leave less text than there was, whatever is made of them. -/
theorem rest_lt_of_map_digits {i : Interest} {f : List Char × List Char → Int × List Char}
    (hf : ∀ p, (f p).2 = p.2) {cs rest : List Char} {n : Int}
    (h : (digits i cs).map f = .ok (n, rest)) : rest.length < cs.length := by
  cases hd : digits i cs with
  | error e => rw [hd] at h; cases h
  | ok p =>
    obtain ⟨ds, behind⟩ := p
    rw [hd] at h
    have hp : f (ds, behind) = (n, rest) := Except.ok.inj h
    have hr : (f (ds, behind)).2 = behind := hf (ds, behind)
    rw [hp] at hr
    subst hr
    exact rest_lt_of_digits hd

/-- The digits of an exponent leave less text than there was. -/
theorem rest_lt_of_signedExponent {i : Interest} {cs rest : List Char} {n : Int}
    (h : signedExponent i cs = .ok (n, rest)) : rest.length < cs.length := by
  unfold signedExponent at h
  split at h
  · exact Nat.lt_succ_of_lt (rest_lt_of_map_digits (fun _ => rfl) h)
  · exact Nat.lt_succ_of_lt (rest_lt_of_map_digits (fun _ => rfl) h)
  · exact rest_lt_of_map_digits (fun _ => rfl) h

/-- An exponent leaves no more text than there was. -/
theorem rest_le_of_exponent {i : Interest} {cs rest : List Char} {n : Int}
    (h : exponent i cs = .ok (n, rest)) : rest.length ≤ cs.length := by
  unfold exponent at h
  split at h
  · exact Nat.le_succ_of_le (Nat.le_of_lt (rest_lt_of_signedExponent h))
  · exact Nat.le_succ_of_le (Nat.le_of_lt (rest_lt_of_signedExponent h))
  · cases h; exact Nat.le_refl _

/-- A number without a sign leaves less text than there was. -/
theorem rest_lt_of_unsignedNumber {i : Interest} {s : Bool} {cs rest : List Char} {d : Decimal}
    (h : unsignedNumber i s cs = .ok (d, rest)) : rest.length < cs.length := by
  unfold unsignedNumber at h
  cases hw : wholePart i cs with
  | error e => rw [hw] at h; cases h
  | ok w =>
    obtain ⟨whole, w⟩ := w
    rw [hw] at h
    cases hf : fraction i w with
    | error e => simp [bind, Except.bind, hf] at h
    | ok f =>
      obtain ⟨part, f⟩ := f
      cases he : exponent i f with
      | error e => simp [bind, Except.bind, hf, he] at h
      | ok e =>
        obtain ⟨power, e⟩ := e
        simp only [bind, Except.bind, hf, he, pure, Except.pure, Except.ok.injEq,
          Prod.mk.injEq] at h
        have h₁ := rest_lt_of_wholePart hw
        have h₂ := rest_le_of_fraction hf
        have h₃ := rest_le_of_exponent he
        rw [← h.2]
        omega

/-- A number leaves less text than there was. -/
theorem rest_lt_of_number {i : Interest} {cs rest : List Char} {d : Decimal}
    (h : number i cs = .ok (d, rest)) : rest.length < cs.length := by
  unfold number at h
  split at h
  · exact Nat.lt_succ_of_lt (rest_lt_of_unsignedNumber h)
  · exact rest_lt_of_unsignedNumber h

/-- Where a reader stands inside a string. A *lead* is the first half of a surrogate pair. -/
inductive StringState where
  /-- Between characters. -/
  | plain
  /-- Behind a backslash. -/
  | escaped
  /-- Before the last `left` digits of a four-digit escape whose earlier digits make `value`. -/
  | hex (left value : Nat) (lead : Option Nat)
  /-- Before the backslash that has to follow a lead. -/
  | pairBackslash (lead : Nat)
  /-- Before the letter that has to follow a lead and a backslash. -/
  | pairLetter (lead : Nat)
deriving DecidableEq, Repr, Inhabited

/-- The character that an escape by a letter stands for. -/
def escapedChar? : Char → Option Char
  | '\x22' => some '\x22'
  | '\\' => some '\\'
  | '/' => some '/'
  | 'b' => some '\x08'
  | 'f' => some '\x0c'
  | 'n' => some '\n'
  | 'r' => some '\r'
  | 't' => some '\t'
  | _ => none

/-- The value of a digit of base sixteen. -/
def hexValue? (c : Char) : Option Nat :=
  if c.isDigit then some (c.toNat - '0'.toNat)
  else if 'a' ≤ c ∧ c ≤ 'f' then some (c.toNat - 'a'.toNat + 10)
  else if 'A' ≤ c ∧ c ≤ 'F' then some (c.toNat - 'A'.toNat + 10)
  else none

/-- Whether fewer than four bytes remain, which is too few for the digits of an escape. -/
def lacksDigits (cs : List Char) : Bool := (cs.take 4).foldl (fun n c => n + c.utf8Size) 0 < 4

/-- Whether a number is the first half of a surrogate pair. -/
def isLead (n : Nat) : Bool := 0xD800 ≤ n && n ≤ 0xDBFF

/-- Whether a number is the second half of a surrogate pair. -/
def isTrail (n : Nat) : Bool := 0xDC00 ≤ n && n ≤ 0xDFFF

/-- The character that a surrogate pair stands for. -/
def pairedChar (lead trail : Nat) : Char :=
  Char.ofNat (0x10000 + (lead - 0xD800) * 0x400 + (trail - 0xDC00))

/-- The state before the four digits of an escape, if there is room for them. -/
def beforeDigits (lead : Option Nat) (cs : List Char) : Except ReadFault StringState :=
  if lacksDigits cs then .error .truncated else .ok (.hex 4 0 lead)

/-- What follows from the four digits of an escape: a state, and a character if one is complete. -/
def afterDigits (interest : Interest) (value : Nat) :
    Option Nat → Except ReadFault (StringState × Option Char)
  | none =>
    if interest = .skipping then .ok (.plain, none)
    else if isTrail value then .error .malformed
    else if isLead value then .ok (.pairBackslash value, none)
    else .ok (.plain, some (Char.ofNat value))
  | some lead =>
    if isTrail value then .ok (.plain, some (pairedChar lead value)) else .error .malformed

/-- One step inside a string, at a character other than the quote that ends it. `rest` is what follows
the character. -/
def stringStep (interest : Interest) (c : Char) (rest : List Char) :
    StringState → Except ReadFault (StringState × Option Char)
  | .plain =>
    if c = '\\' then .ok (.escaped, none)
    else if c.toNat < 0x20 then .error .malformed
    else .ok (.plain, some c)
  | .escaped =>
    if c = 'u' then (beforeDigits none rest).map (·, none)
    else
      match escapedChar? c with
      | some escaped => .ok (.plain, some escaped)
      | none => .error .malformed
  | .hex left value lead =>
    match hexValue? c with
    | none => .error .malformed
    | some digit =>
      let value := 16 * value + digit
      if left ≤ 1 then afterDigits interest value lead else .ok (.hex (left - 1) value lead, none)
  | .pairBackslash lead => if c = '\\' then .ok (.pairLetter lead, none) else .error .malformed
  | .pairLetter lead =>
    if c = 'u' then (beforeDigits (some lead) rest).map (·, none) else .error .malformed

/-- Reads on inside a string, up to and with the quote that ends it. The characters before are given
last one first. -/
def stringFrom (interest : Interest) (before : List Char) (state : StringState) :
    List Char → Except ReadFault (String × List Char)
  | [] => .error .truncated
  | c :: rest =>
    if c = '\x22' ∧ state = .plain then .ok (String.ofList before.reverse, rest)
    else
      match stringStep interest c rest state with
      | .error fault => .error fault
      | .ok (state, char?) => stringFrom interest (char?.toList ++ before) state rest

/-- Reads a string behind its first quote. -/
def string (interest : Interest) (cs : List Char) : Except ReadFault (String × List Char) :=
  stringFrom interest [] .plain cs

/-- What is left of a string is less text than there was, since the quote at its end is read. -/
theorem rest_lt_of_stringFrom {i : Interest} {before : List Char} {state : StringState}
    {cs rest : List Char} {s : String} (h : stringFrom i before state cs = .ok (s, rest)) :
    rest.length < cs.length := by
  induction cs generalizing before state with
  | nil => cases h
  | cons c cs ih =>
    rw [stringFrom] at h
    split at h
    · cases h; exact Nat.lt_succ_self _
    · split at h
      · cases h
      · exact Nat.lt_succ_of_lt (ih h)

/-- A string leaves less text than there was. -/
theorem rest_lt_of_string {i : Interest} {cs rest : List Char} {s : String}
    (h : string i cs = .ok (s, rest)) : rest.length < cs.length :=
  rest_lt_of_stringFrom h

end Scanner

end BareCallGraph
