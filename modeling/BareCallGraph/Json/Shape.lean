import BareCallGraph.Json.Reader

/-!
# Reading JSON of a wanted shape

A `ShapeReader` reads a value of a wanted shape and stops at the first thing that is wrong, be it badly
formed or of another shape. Readers for arrays, pairs and objects are put together from those of their
parts.
-/

namespace BareCallGraph

/-- Whether a number is too great for a double: it is at least half a step above the greatest one. -/
def Decimal.isOutOfRange (d : Decimal) : Bool :=
  let places := ((Nat.toDigits 10 d.digits).length : Int) + d.exponent
  if d.digits = 0 ∨ places < 309 then false
  else if 309 < places then true
  else
    Nat.pow 10 (-d.exponent).toNat * (Nat.pow 2 1024 - Nat.pow 2 970) ≤
      d.digits * Nat.pow 10 d.exponent.toNat

namespace Scanner

/-- What is wrong with a text that starts a value of another shape than wanted. The value has to be well
formed as far as its own text goes. -/
def mismatch (cs : List Char) : ReadFault :=
  match cs with
  | '[' :: _ | '\x7b' :: _ => .mismatched
  | cs =>
    match scalar .reading cs with
    | .error fault => fault
    | .ok (.number value, _) => if value.isOutOfRange then .malformed else .mismatched
    | .ok _ => .mismatched

/-- The place of the next item of an array, or nothing if the array ends. -/
def nextItem? (first : Bool) (cs : List Char) : Except ReadFault (Option (List Char)) :=
  match skipBlanks cs with
  | [] => .error .truncated
  | ']' :: _ => .ok none
  | c :: rest =>
    if first then .ok (some (c :: rest))
    else if c = ',' then
      match skipBlanks rest with
      | [] => .error .truncated
      | ']' :: _ => .error .malformed
      | next => .ok (some next)
    else .error .malformed

/-- The next item of an array starts within the text that was left. -/
theorem le_of_nextItem? {first : Bool} {cs rest : List Char}
    (h : nextItem? first cs = .ok (some rest)) : rest.length ≤ cs.length := by
  have hb := length_skipBlanks_le cs
  unfold nextItem? at h
  split at h
  · cases h
  · cases h
  · next c tail _ hc =>
    rw [hc] at hb
    split at h
    · cases h; exact hb
    · split at h
      · have ht := length_skipBlanks_le tail
        simp only [List.length_cons] at hb
        split at h
        · cases h
        · cases h
        · cases h; omega
      · cases h

/-- Reads the bracket that ends an array. -/
def closingBracket (cs : List Char) : Except ReadFault (List Char) :=
  match skipBlanks cs with
  | [] => .error .truncated
  | ']' :: rest => .ok rest
  | _ => .error .malformed

/-- The bracket at the end of an array leaves less text than there was. -/
theorem rest_lt_of_closingBracket {cs rest : List Char} (h : closingBracket cs = .ok rest) :
    rest.length < cs.length := by
  have hb := length_skipBlanks_le cs
  unfold closingBracket at h
  split at h
  · cases h
  · next hc => cases h; rw [hc] at hb; exact hb
  · cases h

/-- The place behind the quote before the next name of an object, or nothing if the object ends. -/
def nextMember? (first : Bool) (cs : List Char) : Except ReadFault (Option (List Char)) :=
  match skipBlanks cs with
  | [] => .error .truncated
  | '\x7d' :: _ => .ok none
  | c :: rest =>
    if first then (openingQuote (c :: rest)).map some
    else if c = ',' then (openingQuote rest).map some
    else .error .malformed

/-- The next name of an object starts within the text that was left. -/
theorem le_of_nextMember? {first : Bool} {cs rest : List Char}
    (h : nextMember? first cs = .ok (some rest)) : rest.length ≤ cs.length := by
  have quotes : ∀ {ds : List Char}, (openingQuote ds).map some = .ok (some rest) →
      rest.length < ds.length := by
    intro ds h
    cases hq : openingQuote ds with
    | error e => rw [hq] at h; cases h
    | ok r => rw [hq] at h; cases h; exact rest_lt_of_openingQuote hq
  have hb := length_skipBlanks_le cs
  unfold nextMember? at h
  split at h
  · cases h
  · cases h
  · next c tail _ hc =>
    rw [hc] at hb
    simp only [List.length_cons] at hb
    split at h
    · have := quotes h; simp only [List.length_cons] at this; omega
    · split at h
      · have := quotes h; omega
      · cases h

/-- Where an object ends there is a bracket that ends it. -/
theorem length_pos_of_nextMember? {first : Bool} {cs : List Char}
    (h : nextMember? first cs = .ok none) : 0 < (skipBlanks cs).length := by
  unfold nextMember? at h
  split at h
  · cases h
  · next hc => rw [hc]; exact Nat.succ_pos _
  · next hc => rw [hc]; exact Nat.succ_pos _

end Scanner

/-- Reads a value of one shape from the start of a text. -/
structure ShapeReader (α : Type) where
  /-- What is read, and the text behind it. -/
  run : List Char → Except ReadFault (α × List Char)
  /-- A value takes up some text. -/
  shorter : ∀ {cs : List Char} {a : α} {rest : List Char},
    run cs = .ok (a, rest) → rest.length < cs.length

namespace ShapeReader

open Scanner

variable {α β σ : Type}

/-- Reads the same text and gives a function of what is read. -/
def map (f : α → β) (r : ShapeReader α) : ShapeReader β where
  run cs := (r.run cs).map fun (a, rest) => (f a, rest)
  shorter {cs b rest} h := by
    cases hr : r.run cs with
    | error e => rw [hr] at h; cases h
    | ok p => rw [hr] at h; cases h; exact r.shorter (a := p.1) hr

/-- Reads any value and forgets it. -/
def ignored : ShapeReader Unit where
  run cs := (value .skipping [] cs).map fun (_, rest) => ((), rest)
  shorter {cs b rest} h := by
    cases hr : value .skipping [] cs with
    | error e => rw [hr] at h; cases h
    | ok p => rw [hr] at h; cases h; exact rest_lt_of_value (v := p.1) hr

/-- Reads a value that opens with a bracket by what stands inside and ends it. -/
def bracketed (bracket : Char) (inside : ShapeReader α) : ShapeReader α where
  run cs :=
    match skipBlanks cs with
    | [] => .error .truncated
    | c :: rest => if c = bracket then inside.run rest else .error (mismatch (c :: rest))
  shorter {cs a rest} h := by
    have hb := length_skipBlanks_le cs
    split at h
    · cases h
    · next c tail hc =>
      rw [hc] at hb
      split at h
      · have := inside.shorter h; simp only [List.length_cons] at hb; omega
      · cases h

/-- Reads a string. -/
def string : ShapeReader String := bracketed '\x22' ⟨Scanner.string .reading, rest_lt_of_string⟩

/-- Reads the items of an array that are left, and the end of the array. -/
def items (item : ShapeReader α) (first : Bool) (cs : List Char) :
    Except ReadFault (List α × List Char) :=
  match _h : nextItem? first cs with
  | .error fault => .error fault
  | .ok none => (closingBracket cs).map ([], ·)
  | .ok (some start) =>
    match _h' : item.run start with
    | .error fault => .error fault
    | .ok (a, rest) => (items item false rest).map fun (as, rest) => (a :: as, rest)
termination_by cs.length
decreasing_by
  have := le_of_nextItem? _h
  have := item.shorter _h'
  omega

/-- The items of an array leave less text than there was, since a bracket ends them. -/
theorem rest_lt_of_items {item : ShapeReader α} {first : Bool} {cs rest : List Char} {as : List α}
    (h : items item first cs = .ok (as, rest)) : rest.length < cs.length := by
  fun_induction items item first cs generalizing as with
  | case1 => cases h
  | case2 first cs _ =>
    cases hc : closingBracket cs with
    | error e => rw [hc] at h; cases h
    | ok r => rw [hc] at h; cases h; exact rest_lt_of_closingBracket hc
  | case3 => cases h
  | case4 first cs start hs a tail ht ih =>
    cases hi : items item false tail with
    | error e => rw [hi] at h; cases h
    | ok p =>
      obtain ⟨later, behind⟩ := p
      rw [hi] at h
      cases h
      have := ih hi
      have := le_of_nextItem? hs
      have := item.shorter ht
      omega

/-- Reads an array of values of one shape. -/
def arrayOf (item : ShapeReader α) : ShapeReader (List α) :=
  bracketed '[' ⟨items item true, rest_lt_of_items⟩

/-- Reads the next item of an array that has to have one more. -/
def required (first : Bool) (item : ShapeReader α) : ShapeReader α where
  run cs :=
    match nextItem? first cs with
    | .error fault => .error fault
    | .ok none => .error .mismatched
    | .ok (some start) => item.run start
  shorter {cs a rest} h := by
    split at h
    · cases h
    · cases h
    · next start hs =>
      have := le_of_nextItem? hs
      have := item.shorter h
      omega

/-- Reads an array of exactly two values, each of its own shape. -/
def pairOf (left : ShapeReader α) (right : ShapeReader β) : ShapeReader (α × β) :=
  bracketed '[' {
    run := fun cs =>
      match (required true left).run cs with
      | .error fault => .error fault
      | .ok (a, cs) =>
        match (required false right).run cs with
        | .error fault => .error fault
        | .ok (b, cs) => (closingBracket cs).map ((a, b), ·)
    shorter := by
      intro cs p rest h
      split at h
      · cases h
      · next a cs' ha =>
        split at h
        · cases h
        · next b cs'' hb =>
          cases hc : closingBracket cs'' with
          | error e => rw [hc] at h; cases h
          | ok r =>
            rw [hc] at h
            cases h
            have := (required true left).shorter ha
            have := (required false right).shorter hb
            have := rest_lt_of_closingBracket hc
            omega }

/-- Reads the members of an object that are left, and the end of the object. What was read so far and the
name of a member decide how its value is read. -/
def members (member : σ → String → Except ReadFault (ShapeReader σ)) (first : Bool) (found : σ)
    (cs : List Char) : Except ReadFault (σ × List Char) :=
  match _h : nextMember? first cs with
  | .error fault => .error fault
  | .ok none => .ok (found, (skipBlanks cs).drop 1)
  | .ok (some start) =>
    match _hn : Scanner.string .reading start with
    | .error fault => .error fault
    | .ok (name, rest) =>
      match member found name with
      | .error fault => .error fault
      | .ok content =>
        match _hc : colon rest with
        | .error fault => .error fault
        | .ok rest =>
          match _hv : content.run rest with
          | .error fault => .error fault
          | .ok (found, rest) => members member false found rest
termination_by cs.length
decreasing_by
  have := le_of_nextMember? _h
  have := rest_lt_of_string _hn
  have := rest_lt_of_colon _hc
  have := content.shorter _hv
  omega

/-- The members of an object leave less text than there was, since a bracket ends them. -/
theorem rest_lt_of_members {member : σ → String → Except ReadFault (ShapeReader σ)} {first : Bool}
    {found result : σ} {cs rest : List Char}
    (h : members member first found cs = .ok (result, rest)) : rest.length < cs.length := by
  fun_induction members member first found cs with
  | case1 => cases h
  | case2 first found cs hn =>
    cases h
    have := length_skipBlanks_le cs
    have := length_pos_of_nextMember? hn
    simp only [List.length_drop]
    omega
  | case3 => cases h
  | case4 => cases h
  | case5 => cases h
  | case6 => cases h
  | case7 first found cs start hs name r hn content _ r' hc found' r'' hv ih =>
    have := ih h
    have := le_of_nextMember? hs
    have := rest_lt_of_string hn
    have := rest_lt_of_colon hc
    have := content.shorter hv
    omega

/-- Reads an object, starting from what is known without any member. -/
def objectOf (member : σ → String → Except ReadFault (ShapeReader σ)) (start : σ) : ShapeReader σ :=
  bracketed '\x7b' ⟨members member true start, rest_lt_of_members⟩

/-- Reads an array by one reader and any other value by a second one. -/
def arrayOr (array other : ShapeReader α) : ShapeReader α where
  run cs := if (skipBlanks cs).head? = some '[' then array.run cs else other.run cs
  shorter {cs a rest} h := by
    split at h
    · exact array.shorter h
    · exact other.shorter h

end ShapeReader

end BareCallGraph
