import BareCallGraph.Json.Scanner

/-!
# Reading JSON

`JsonValue.parse` reads a text that is one JSON value. Values are read with a stack of frames, one for
each bracket that is open, so depth of nesting costs no call depth. A value leaves less text than there
was (`Scanner.rest_lt_of_value`).
-/

namespace BareCallGraph

namespace Scanner

/-- Reads a value that is neither array nor object. The text starts with no blank. -/
def scalar (interest : Interest) : List Char → Except ReadFault (JsonValue × List Char)
  | [] => .error .truncated
  | 'n' :: cs => (word ['u', 'l', 'l'] cs).map (.null, ·)
  | 't' :: cs => (word ['r', 'u', 'e'] cs).map (.bool true, ·)
  | 'f' :: cs => (word ['a', 'l', 's', 'e'] cs).map (.bool false, ·)
  | '\x22' :: cs => (string interest cs).map fun (text, rest) => (.string text, rest)
  | c :: cs =>
    if c = '-' ∨ c.isDigit then
      (number interest (c :: cs)).map fun (value, rest) => (.number value, rest)
    else .error .malformed

/-- A value that is neither array nor object leaves less text than there was. -/
theorem rest_lt_of_scalar {i : Interest} {cs rest : List Char} {v : JsonValue}
    (h : scalar i cs = .ok (v, rest)) : rest.length < cs.length := by
  have words : ∀ {w : List Char} {c : Char} {cs : List Char} {u : JsonValue},
      (word w cs).map (u, ·) = .ok (v, rest) → rest.length < (c :: cs).length := by
    intro w c cs u h
    cases hw : word w cs with
    | error e => rw [hw] at h; cases h
    | ok r => rw [hw] at h; cases h; exact Nat.lt_succ_of_le (rest_le_of_word hw)
  unfold scalar at h
  split at h
  · cases h
  · exact words h
  · exact words h
  · exact words h
  · next cs =>
    cases hs : string i cs with
    | error e => rw [hs] at h; cases h
    | ok r => rw [hs] at h; cases h; exact Nat.lt_succ_of_lt (rest_lt_of_string (s := r.1) hs)
  · next c cs _ _ _ _ =>
    split at h
    · cases hs : number i (c :: cs) with
      | error e => rw [hs] at h; cases h
      | ok r => rw [hs] at h; cases h; exact rest_lt_of_number (d := r.1) hs
    · cases h

/-- Reads the colon behind a name. -/
def colon (cs : List Char) : Except ReadFault (List Char) :=
  match skipBlanks cs with
  | [] => .error .truncated
  | ':' :: rest => .ok rest
  | _ => .error .malformed

/-- A colon leaves less text than there was. -/
theorem rest_lt_of_colon {cs rest : List Char} (h : colon cs = .ok rest) :
    rest.length < cs.length := by
  have hb := length_skipBlanks_le cs
  unfold colon at h
  split at h
  · cases h
  · next hc => cases h; rw [hc] at hb; exact hb
  · cases h

/-- Reads the quote before a name. -/
def openingQuote (cs : List Char) : Except ReadFault (List Char) :=
  match skipBlanks cs with
  | [] => .error .truncated
  | '\x22' :: rest => .ok rest
  | _ => .error .malformed

/-- The quote before a name leaves less text than there was. -/
theorem rest_lt_of_openingQuote {cs rest : List Char} (h : openingQuote cs = .ok rest) :
    rest.length < cs.length := by
  have hb := length_skipBlanks_le cs
  unfold openingQuote at h
  split at h
  · cases h
  · next hc => cases h; rw [hc] at hb; exact hb
  · cases h

/-- Reads the name of a member and the colon behind it. -/
def memberName (interest : Interest) (cs : List Char) : Except ReadFault (String × List Char) :=
  match openingQuote cs with
  | .error fault => .error fault
  | .ok cs =>
    match string interest cs with
    | .error fault => .error fault
    | .ok (name, cs) => (colon cs).map (name, ·)

/-- The name of a member and its colon leave less text than there was. -/
theorem rest_lt_of_memberName {i : Interest} {cs rest : List Char} {name : String}
    (h : memberName i cs = .ok (name, rest)) : rest.length < cs.length := by
  unfold memberName at h
  split at h
  · cases h
  · next r hq =>
    split at h
    · cases h
    · next n r' hs =>
      cases hc : colon r' with
      | error e => rw [hc] at h; cases h
      | ok r'' =>
        rw [hc] at h
        cases h
        have h₁ := rest_lt_of_openingQuote hq
        have h₂ := rest_lt_of_string hs
        have h₃ := rest_lt_of_colon hc
        omega

/-- A bracket that is open, with what was read inside it, last one first. -/
inductive Frame where
  /-- An array and its items. -/
  | array (before : List JsonValue)
  /-- An object, the name whose value is next, and the members before it. -/
  | object (name : String) (before : List (String × JsonValue))

mutual
/-- Reads a value inside open brackets, and goes on until they are closed. -/
def value (interest : Interest) (frames : List Frame) (cs : List Char) :
    Except ReadFault (JsonValue × List Char) :=
  match _h : skipBlanks cs with
  | '[' :: rest =>
    match _h' : skipBlanks rest with
    | ']' :: behind => finish interest (.array []) frames behind
    | _ => value interest (.array [] :: frames) rest
  | '\x7b' :: rest =>
    match _h' : skipBlanks rest with
    | '\x7d' :: behind => finish interest (.object []) frames behind
    | _ =>
      match _h'' : memberName interest rest with
      | .error fault => .error fault
      | .ok (name, rest) => value interest (.object name [] :: frames) rest
  | rest =>
    match _h' : scalar interest rest with
    | .error fault => .error fault
    | .ok (v, rest) => finish interest v frames rest
termination_by cs.length
decreasing_by
  all_goals
    have hb := length_skipBlanks_le cs
    rw [_h] at hb
  · have hr := length_skipBlanks_le rest
    rw [_h'] at hr
    simp only [List.length_cons] at hb hr
    omega
  · simp only [List.length_cons] at hb
    omega
  · have hr := length_skipBlanks_le rest
    rw [_h'] at hr
    simp only [List.length_cons] at hb hr
    omega
  · have hr := rest_lt_of_memberName _h''
    simp only [List.length_cons] at hb
    omega
  · have hr := rest_lt_of_scalar _h'
    omega

/-- Puts a value that is complete into the innermost open bracket, and goes on. -/
def finish (interest : Interest) (v : JsonValue) (frames : List Frame) (cs : List Char) :
    Except ReadFault (JsonValue × List Char) :=
  match frames with
  | [] => .ok (v, cs)
  | .array before :: frames =>
    match _h : skipBlanks cs with
    | [] => .error .truncated
    | ',' :: rest => value interest (.array (v :: before) :: frames) rest
    | ']' :: rest => finish interest (.array (v :: before).reverse) frames rest
    | _ => .error .malformed
  | .object name before :: frames =>
    match _h : skipBlanks cs with
    | [] => .error .truncated
    | ',' :: rest =>
      match _h' : memberName interest rest with
      | .error fault => .error fault
      | .ok (next, rest) => value interest (.object next ((name, v) :: before) :: frames) rest
    | '\x7d' :: rest => finish interest (.object ((name, v) :: before).reverse) frames rest
    | _ => .error .malformed
termination_by cs.length
decreasing_by
  all_goals
    have hb := length_skipBlanks_le cs
    rw [_h] at hb
    simp only [List.length_cons] at hb
  · omega
  · omega
  · have hr := rest_lt_of_memberName _h'
    omega
  · omega
end

/-- A value leaves less text than there was, and finishing those around it leaves no more. By induction
on the length of the text, since arrays and objects are read from what is behind their first bracket. -/
theorem rest_of_value_finish (n : Nat) (i : Interest) (cs : List Char) (hn : cs.length ≤ n)
    (frames : List Frame) (v : JsonValue) (rest : List Char) :
    (value i frames cs = .ok (v, rest) → rest.length < cs.length) ∧
      ∀ u, finish i u frames cs = .ok (v, rest) → rest.length ≤ cs.length := by
  induction n generalizing cs frames with
  | zero =>
    have : cs = [] := List.length_eq_zero_iff.1 (Nat.le_zero.1 hn)
    subst this
    constructor
    · intro h
      rw [value] at h
      simp [skipBlanks, scalar] at h
    · intro u h
      rw [finish.eq_def] at h
      cases frames with
      | nil => cases h; exact Nat.le_refl _
      | cons f fs => cases f <;> simp [skipBlanks] at h
  | succ n ih =>
    have hb := length_skipBlanks_le cs
    constructor
    · intro h
      rw [value] at h
      split at h
      · next rest' hc =>
        rw [hc] at hb
        simp only [List.length_cons] at hb
        split at h
        · next behind hc' =>
          have hb' := length_skipBlanks_le rest'
          rw [hc'] at hb'
          simp only [List.length_cons] at hb'
          have := (ih behind (by omega) frames).2 _ h
          omega
        · have := (ih rest' (by omega) _).1 h
          omega
      · next rest' hc =>
        rw [hc] at hb
        simp only [List.length_cons] at hb
        split at h
        · next behind hc' =>
          have hb' := length_skipBlanks_le rest'
          rw [hc'] at hb'
          simp only [List.length_cons] at hb'
          have := (ih behind (by omega) frames).2 _ h
          omega
        · split at h
          · cases h
          · next name r hm =>
            have := rest_lt_of_memberName hm
            have := (ih r (by omega) _).1 h
            omega
      · split at h
        · cases h
        · next u r hs =>
          have := rest_lt_of_scalar hs
          have := (ih r (by omega) frames).2 _ h
          omega
    · intro u h
      rw [finish.eq_def] at h
      split at h
      · cases h; exact Nat.le_refl _
      · split at h
        · cases h
        · next hc => rw [hc] at hb; have := (ih _ (by simp at hb; omega) _).1 h; simp at hb; omega
        · next hc => rw [hc] at hb; have := (ih _ (by simp at hb; omega) _).2 _ h; simp at hb; omega
        · cases h
      · split at h
        · cases h
        · next hc =>
          rw [hc] at hb
          simp only [List.length_cons] at hb
          split at h
          · cases h
          · next name r hm =>
            have := rest_lt_of_memberName hm
            have := (ih r (by omega) _).1 h
            omega
        · next hc => rw [hc] at hb; have := (ih _ (by simp at hb; omega) _).2 _ h; simp at hb; omega
        · cases h

/-- A value leaves less text than there was. -/
theorem rest_lt_of_value {i : Interest} {frames : List Frame} {cs rest : List Char} {v : JsonValue}
    (h : value i frames cs = .ok (v, rest)) : rest.length < cs.length :=
  (rest_of_value_finish cs.length i cs (Nat.le_refl _) frames v rest).1 h

/-- Whether nothing but blanks is left. -/
def isDone (cs : List Char) : Bool := (skipBlanks cs).isEmpty

end Scanner

/-- Reads a text that is one JSON value. -/
def JsonValue.parse (text : String) : Except ReadFault JsonValue :=
  match Scanner.value .reading [] text.toList with
  | .error fault => .error fault
  | .ok (v, rest) => if Scanner.isDone rest then .ok v else .error .malformed

end BareCallGraph
