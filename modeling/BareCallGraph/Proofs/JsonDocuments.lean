import BareCallGraph.Export.Json
import BareCallGraph.Proofs.JsonRoundTrip

/-!
# Values read back from their texts

Every value is read back from its text, be it compact or indented: whatever is open around the value,
reading goes on behind the text as if the value had been given (`Scanner.readsBack`). All that is asked
of a style is that it puts blanks where it may (`JsonStyle.IsSpaced`), and of what follows that it does
not prolong a number (`Scanner.EndsNumber`).

The document of a graph is such a value, so it is read back from the text of the graph.
-/

namespace BareCallGraph

/-- A style puts only blanks between the parts of a text, besides the colon behind a name. -/
structure JsonStyle.IsSpaced (style : JsonStyle) : Prop where
  /-- Only blanks stand between two items. -/
  newline : ∀ depth, ∀ c ∈ style.newline depth, Scanner.isBlank c = true
  /-- Behind a name stands a colon, and only blanks behind it. -/
  colon : ∃ blanks, style.colon = ':' :: blanks ∧ ∀ c ∈ blanks, Scanner.isBlank c = true

/-- The indented style puts only blanks between the parts of a text. -/
theorem JsonStyle.indented_isSpaced : JsonStyle.indented.IsSpaced where
  newline depth c hc := by
    rcases List.mem_cons.1 hc with rfl | hc
    · rfl
    · rw [List.eq_of_mem_replicate hc]
      rfl
  colon := ⟨[' '], rfl, by simp [Scanner.isBlank]⟩

namespace Scanner

/-! ## Numbers -/

/-- A number does not go on with the given text. -/
def EndsNumber : List Char → Prop
  | [] => True
  | c :: _ => c.isDigit = false ∧ c ≠ '.' ∧ c ≠ 'e' ∧ c ≠ 'E'

/-- A number is written in digits. -/
theorem isDigit_of_mem_toDigits {n : Nat} {c : Char} (h : c ∈ Nat.toDigits 10 n) :
    c.isDigit = true :=
  Nat.isDigit_of_mem_toDigits (by decide) (by decide) h

/-- The digits of a number stand for the number. -/
theorem valueOf_toDigits (n : Nat) : valueOf (Nat.toDigits 10 n) = n := by
  have h := Nat.ofDigitChars_ten_toDigits (n := n)
  rwa [Nat.ofDigitChars_eq_foldl] at h

/-- A run of digits starts with a zero only if it is a zero. -/
theorem toDigits_ne_zero_cons (n : Nat) (c : Char) (cs : List Char) :
    Nat.toDigits 10 n ≠ '0' :: c :: cs := by
  have hhead (n : Nat) (hn : 0 < n) : (Nat.toDigits 10 n).head? ≠ some '0' := by
    induction n using Nat.strongRecOn with
    | ind n ih =>
      rcases Nat.lt_or_ge n 10 with hlt | hge
      · rw [Nat.toDigits_of_lt_base hlt]
        have hall : ∀ m < 10, 0 < m → [Nat.digitChar m].head? ≠ some '0' := by decide
        exact hall n hlt hn
      · rw [Nat.toDigits_of_base_le (by decide) hge, List.head?_append_of_ne_nil _ Nat.toDigits_ne_nil]
        exact ih (n / 10) (Nat.div_lt_self hn (by decide)) (Nat.div_pos hge (by decide))
  intro h
  rcases Nat.eq_zero_or_pos n with rfl | hn
  · simp at h
  · exact hhead n hn (by rw [h]; rfl)

/-- The digits of a number are read up to where they end. -/
theorem digits_toDigits (n : Nat) {rest : List Char}
    (h : ∀ c more, rest = c :: more → c.isDigit = false) :
    digits .reading (Nat.toDigits 10 n ++ rest) = .ok (Nat.toDigits 10 n, rest) := by
  have hall : ∀ c ∈ Nat.toDigits 10 n, c.isDigit = true := fun c => isDigit_of_mem_toDigits
  have htake : rest.takeWhile Char.isDigit = [] := by
    cases rest with
    | nil => rfl
    | cons c more => rw [List.takeWhile_cons_of_neg (by simp [h c more rfl])]
  have hdrop : rest.dropWhile Char.isDigit = rest := by
    cases rest with
    | nil => rfl
    | cons c more => rw [List.dropWhile_cons_of_neg (by simp [h c more rfl])]
  rw [digits, List.takeWhile_append_of_pos hall, List.dropWhile_append_of_pos hall, htake, hdrop,
    List.append_nil]
  cases hdigits : Nat.toDigits 10 n with
  | nil => exact absurd hdigits Nat.toDigits_ne_nil
  | cons d ds => rfl

/-- The digits of a number are read as its whole part, up to where they end. -/
theorem wholePart_toDigits (n : Nat) {rest : List Char}
    (h : ∀ c more, rest = c :: more → c.isDigit = false) :
    wholePart .reading (Nat.toDigits 10 n ++ rest) = .ok (Nat.toDigits 10 n, rest) := by
  rw [wholePart, digits_toDigits n h]
  split
  · next heq => exact absurd (Prod.mk.inj (Except.ok.inj heq)).1 (toDigits_ne_zero_cons n _ _)
  · rfl

/-- What a power of ten is written as behind the digits of a number. -/
def exponentText : Int → List Char
  | .ofNat 0 => []
  | .ofNat n => 'e' :: Nat.toDigits 10 n
  | .negSucc n => 'e' :: '-' :: Nat.toDigits 10 (n + 1)

/-- No digit stands where a number ends. -/
theorem EndsNumber.isDigit_eq_false {rest : List Char} (h : EndsNumber rest) (c : Char)
    (more : List Char) (heq : rest = c :: more) : c.isDigit = false := by
  subst heq
  exact h.1

/-- A power of ten without a sign is read up to where its digits end. -/
theorem signedExponent_toDigits (n : Nat) {rest : List Char} (h : EndsNumber rest) :
    signedExponent .reading (Nat.toDigits 10 n ++ rest) = .ok ((n : Int), rest) := by
  have hdigits := digits_toDigits n h.isDigit_eq_false
  have hfirst : ∀ c more, Nat.toDigits 10 n ++ rest = c :: more → c.isDigit = true := by
    intro c more heq
    obtain ⟨d, ds, hds⟩ := List.exists_cons_of_ne_nil (Nat.toDigits_ne_nil (n := n) (b := 10))
    rw [hds] at heq
    cases heq
    exact isDigit_of_mem_toDigits (n := n) (by rw [hds]; exact .head _)
  unfold signedExponent
  split
  · next heq => exact absurd (hfirst _ _ heq) (by decide)
  · next heq => exact absurd (hfirst _ _ heq) (by decide)
  · simp only [hdigits, Except.map, valueOf_toDigits]

/-- A power of ten is read back. -/
theorem exponent_exponentText (power : Int) {rest : List Char} (h : EndsNumber rest) :
    exponent .reading (exponentText power ++ rest) = .ok (power, rest) := by
  have hnone : exponent .reading rest = .ok (0, rest) := by
    unfold exponent
    split
    · exact absurd rfl h.2.2.1
    · exact absurd rfl h.2.2.2
    · rfl
  cases power with
  | ofNat n =>
    cases n with
    | zero => exact hnone
    | succ n => exact signedExponent_toDigits (n + 1) h
  | negSucc n =>
    have hsign : exponent .reading (exponentText (.negSucc n) ++ rest) =
        (digits .reading (Nat.toDigits 10 (n + 1) ++ rest)).map
          fun p => (-(valueOf p.1 : Int), p.2) := rfl
    simp only [hsign, digits_toDigits _ h.isDigit_eq_false, Except.map, valueOf_toDigits]
    rfl

/-- Behind the digits of a number, its exponent starts with neither a digit nor a point. -/
theorem endsNumber_exponentText (power : Int) {rest : List Char} (h : EndsNumber rest) :
    ∀ c more, exponentText power ++ rest = c :: more → c.isDigit = false ∧ c ≠ '.' := by
  intro c more heq
  unfold exponentText at heq
  split at heq
  · subst heq
    exact ⟨h.1, h.2.1⟩
  · cases heq
    decide
  · cases heq
    decide

/-- A number without a sign is read back from its digits and its exponent. -/
theorem unsignedNumber_written (negative : Bool) (n : Nat) (power : Int) {rest : List Char}
    (h : EndsNumber rest) :
    unsignedNumber .reading negative (Nat.toDigits 10 n ++ (exponentText power ++ rest)) =
      .ok (⟨negative, n, power⟩, rest) := by
  have htext := endsNumber_exponentText power h
  have hwhole := wholePart_toDigits n fun c more heq => (htext c more heq).1
  have hfraction : fraction .reading (exponentText power ++ rest) =
      .ok ([], exponentText power ++ rest) := by
    unfold fraction
    split
    · next heq => exact absurd rfl (htext _ _ heq).2
    · rfl
  have hexponent := exponent_exponentText power h
  simp only [unsignedNumber, bind, Except.bind, hwhole, hfraction, hexponent, pure, Except.pure,
    List.append_nil, valueOf_toDigits, List.length_nil]
  simp

/-- A number is written as its sign, its digits and its exponent. -/
theorem writeNumber_eq (d : Decimal) : JsonValue.writeNumber d =
    (if d.negative then ['-'] else []) ++ (Nat.toDigits 10 d.digits ++ exponentText d.exponent) := by
  rw [JsonValue.writeNumber, List.append_assoc]
  rfl

/-- A text of digits starts with one. -/
theorem exists_toDigits_eq (n : Nat) :
    ∃ c cs, Nat.toDigits 10 n = c :: cs ∧ c.isDigit = true := by
  obtain ⟨c, cs, hcs⟩ := List.exists_cons_of_ne_nil (Nat.toDigits_ne_nil (n := n) (b := 10))
  exact ⟨c, cs, hcs, isDigit_of_mem_toDigits (n := n) (by rw [hcs]; exact .head _)⟩

/-- A number is read back from its text. -/
theorem number_writeNumber (d : Decimal) {rest : List Char} (h : EndsNumber rest) :
    number .reading (JsonValue.writeNumber d ++ rest) = .ok (d, rest) := by
  obtain ⟨negative, n, power⟩ := d
  have hunsigned := unsignedNumber_written negative n power h
  rw [writeNumber_eq]
  cases negative with
  | true =>
    have hnumber (cs : List Char) : number .reading ('-' :: cs) = unsignedNumber .reading true cs := rfl
    rw [if_pos rfl, List.singleton_append, List.cons_append, hnumber, List.append_assoc, hunsigned]
  | false =>
    rw [if_neg Bool.false_ne_true, List.nil_append, List.append_assoc]
    obtain ⟨c, cs, hcs, hc⟩ := exists_toDigits_eq n
    unfold number
    split
    · next heq =>
      rw [hcs] at heq
      cases heq
      contradiction
    · exact hunsigned

/-! ## Values -/

/-- Blanks before blanks are skipped with them. -/
theorem skipBlanks_append {blanks : List Char} (h : ∀ c ∈ blanks, isBlank c = true)
    (cs : List Char) : skipBlanks (blanks ++ cs) = skipBlanks cs := by
  rw [skipBlanks, List.dropWhile_append_of_pos h, ← skipBlanks]

variable {i : Interest} {frames : List Frame} {cs rest behind : List Char} {v : JsonValue}
  {name : String} {c : Char}

/-- An array is complete where it opens if nothing but blanks stands in it. -/
theorem value_emptyArray (h : skipBlanks cs = '[' :: rest) (h' : skipBlanks rest = ']' :: behind) :
    value i frames cs = finish i (.array []) frames behind := by
  rw [value]
  split
  · next hopen =>
    cases h.symm.trans hopen
    split
    · next hclose => cases h'.symm.trans hclose; rfl
    · next hnone => exact absurd h' (hnone _)
  · next hopen => cases h.symm.trans hopen
  · next hnone _ => exact absurd h (hnone _)

/-- An array opens with its first item. -/
theorem value_array (h : skipBlanks cs = '[' :: rest) (h' : ∀ behind, skipBlanks rest ≠ ']' :: behind) :
    value i frames cs = value i (.array [] :: frames) rest := by
  rw [value]
  split
  · next hopen =>
    cases h.symm.trans hopen
    split
    · next hclose => exact absurd hclose (h' _)
    · rfl
  · next hopen => cases h.symm.trans hopen
  · next hnone _ => exact absurd h (hnone _)

/-- An object is complete where it opens if nothing but blanks stands in it. -/
theorem value_emptyObject (h : skipBlanks cs = '\x7b' :: rest)
    (h' : skipBlanks rest = '\x7d' :: behind) :
    value i frames cs = finish i (.object []) frames behind := by
  rw [value]
  split
  · next hopen => cases h.symm.trans hopen
  · next hopen =>
    cases h.symm.trans hopen
    split
    · next hclose => cases h'.symm.trans hclose; rfl
    · next hnone => exact absurd h' (hnone _)
  · next _ hnone => exact absurd h (hnone _)

/-- An object opens with the name of its first member. -/
theorem value_object (h : skipBlanks cs = '\x7b' :: rest)
    (h' : ∀ behind, skipBlanks rest ≠ '\x7d' :: behind)
    (hname : memberName i rest = .ok (name, behind)) :
    value i frames cs = value i (.object name [] :: frames) behind := by
  rw [value]
  split
  · next hopen => cases h.symm.trans hopen
  · next hopen =>
    cases h.symm.trans hopen
    split
    · next hclose => exact absurd hclose (h' _)
    · split
      · next hname' => cases hname.symm.trans hname'
      · next hname' => cases hname.symm.trans hname'; rfl
  · next _ hnone => exact absurd h (hnone _)

/-- A value that opens no bracket is complete at once. -/
theorem value_scalar (h : skipBlanks cs = c :: rest) (harray : c ≠ '[') (hobject : c ≠ '\x7b')
    (hscalar : scalar i (c :: rest) = .ok (v, behind)) :
    value i frames cs = finish i v frames behind := by
  rw [value]
  split
  · next hopen => cases h.symm.trans hopen; contradiction
  · next hopen => cases h.symm.trans hopen; contradiction
  · rw [← h] at hscalar
    split
    · next hscalar' => cases hscalar.symm.trans hscalar'
    · next hscalar' => cases hscalar.symm.trans hscalar'; rfl

/-- Behind a comma the next item of an array is read. -/
theorem finish_arrayComma {before : List JsonValue} (h : skipBlanks cs = ',' :: rest) :
    finish i v (.array before :: frames) cs = value i (.array (v :: before) :: frames) rest := by
  rw [finish.eq_def]
  simp only
  split <;> simp_all

/-- The end of an array completes it, with the items in the order of the text. -/
theorem finish_arrayEnd {before : List JsonValue} (h : skipBlanks cs = ']' :: rest) :
    finish i v (.array before :: frames) cs =
      finish i (.array (v :: before).reverse) frames rest := by
  rw [finish.eq_def]
  simp only
  split <;> simp_all

/-- Behind a comma the next member of an object is read. -/
theorem finish_objectComma {before : List (String × JsonValue)} {next : String}
    (h : skipBlanks cs = ',' :: rest) (hname : memberName i rest = .ok (next, behind)) :
    finish i v (.object name before :: frames) cs =
      value i (.object next ((name, v) :: before) :: frames) behind := by
  rw [finish.eq_def]
  simp only
  split
  · next hempty => cases h.symm.trans hempty
  · next hcomma =>
    cases h.symm.trans hcomma
    split
    · next hname' => cases hname.symm.trans hname'
    · next hname' => cases hname.symm.trans hname'; rfl
  · next hclose => cases h.symm.trans hclose
  · next hnone _ => exact absurd h (hnone _)

/-- The end of an object completes it, with the members in the order of the text. -/
theorem finish_objectEnd {before : List (String × JsonValue)} (h : skipBlanks cs = '\x7d' :: rest) :
    finish i v (.object name before :: frames) cs =
      finish i (.object ((name, v) :: before).reverse) frames rest := by
  rw [finish.eq_def]
  simp only
  split <;> simp_all

/-! ## Texts of values -/

variable {style : JsonStyle} {depth : Nat} {blanks : List Char}

/-- The text of a number starts with a sign or a digit. -/
theorem exists_writeNumber_eq (d : Decimal) :
    ∃ c cs, JsonValue.writeNumber d = c :: cs ∧ (c = '-' ∨ c.isDigit = true) := by
  rw [writeNumber_eq]
  split
  · exact ⟨'-', _, rfl, .inl rfl⟩
  · obtain ⟨c, cs, hcs, hc⟩ := exists_toDigits_eq d.digits
    exact ⟨c, cs ++ exponentText d.exponent, by rw [hcs]; rfl, .inr hc⟩

/-- The text of a value starts with neither a blank nor the end of an array. -/
theorem opens_write (style : JsonStyle) (depth : Nat) (v : JsonValue) (rest : List Char) :
    Opens (v.write style depth ++ rest) := by
  cases v with
  | null => exact ⟨'n', _, rfl, rfl, by decide⟩
  | bool b => cases b with
    | true => exact ⟨'t', _, rfl, rfl, by decide⟩
    | false => exact ⟨'f', _, rfl, rfl, by decide⟩
  | number d =>
    obtain ⟨c, cs, hcs, hc⟩ := exists_writeNumber_eq d
    refine ⟨c, cs ++ rest, by rw [JsonValue.write, hcs]; rfl, Bool.eq_false_iff.2 fun hblank => ?_, ?_⟩
    · simp only [isBlank, Bool.or_eq_true, beq_iff_eq] at hblank
      rcases hblank with ((rfl | rfl) | rfl) | rfl <;> exact absurd hc (by decide)
    · rintro rfl
      exact absurd hc (by decide)
  | string text => exact ⟨'\x22', _, rfl, rfl, by decide⟩
  | array items => cases items <;> exact ⟨'[', _, rfl, rfl, by decide⟩
  | object members => cases members <;> exact ⟨'\x7b', _, rfl, rfl, by decide⟩

/-- Blanks before a value are skipped and nothing of its text is. -/
theorem skipBlanks_write (h : ∀ c ∈ blanks, isBlank c = true) (style : JsonStyle) (depth : Nat)
    (v : JsonValue) (rest : List Char) :
    skipBlanks (blanks ++ (v.write style depth ++ rest)) = v.write style depth ++ rest := by
  rw [skipBlanks_append h, skipBlanks_of_opens (opens_write style depth v rest)]

/-- Blanks before the end of a number do not prolong it. -/
theorem EndsNumber.append (h : ∀ c ∈ blanks, isBlank c = true) (hrest : EndsNumber rest) :
    EndsNumber (blanks ++ rest) := by
  cases blanks with
  | nil => exact hrest
  | cons c blanks =>
    have hc := h c (.head _)
    simp only [isBlank, Bool.or_eq_true, beq_iff_eq] at hc
    rcases hc with ((rfl | rfl) | rfl) | rfl <;> exact ⟨rfl, by decide, by decide, by decide⟩

/-- A number ends before a comma. -/
theorem endsNumber_comma (rest : List Char) : EndsNumber (',' :: rest) :=
  ⟨rfl, by decide, by decide, by decide⟩

/-- The texts of the items behind an item do not prolong it. -/
theorem endsNumber_writeItems (h : ∀ c ∈ blanks, isBlank c = true) (items : List JsonValue) :
    EndsNumber (JsonValue.writeItems style depth items ++ (blanks ++ ']' :: rest)) := by
  cases items with
  | nil =>
    have hend : EndsNumber (']' :: rest) := ⟨rfl, by decide, by decide, by decide⟩
    rw [JsonValue.writeItems, List.nil_append]
    exact hend.append h
  | cons item items => exact endsNumber_comma _

/-- The texts of the members behind a member do not prolong it. -/
theorem endsNumber_writeMembers (h : ∀ c ∈ blanks, isBlank c = true)
    (members : List (String × JsonValue)) :
    EndsNumber (JsonValue.writeMembers style depth members ++ (blanks ++ '\x7d' :: rest)) := by
  cases members with
  | nil =>
    have hend : EndsNumber ('\x7d' :: rest) := ⟨rfl, by decide, by decide, by decide⟩
    rw [JsonValue.writeMembers, List.nil_append]
    exact hend.append h
  | cons member members => exact endsNumber_comma _

/-- A name in quotes opens with a quote. -/
theorem quote_append (name : String) (rest : List Char) : JsonValue.quote name ++ rest =
    '\x22' :: (name.toList.flatMap JsonValue.escape ++ '\x22' :: rest) := by
  simp [JsonValue.quote]

/-- Blanks before a name in quotes are skipped and nothing of the name is. -/
theorem skipBlanks_quote (h : ∀ c ∈ blanks, isBlank c = true) (name : String) (rest : List Char) :
    skipBlanks (blanks ++ (JsonValue.quote name ++ rest)) =
      '\x22' :: (name.toList.flatMap JsonValue.escape ++ '\x22' :: rest) := by
  rw [skipBlanks_append h, quote_append]
  rfl

/-- A name is read back, up to and with the colon. -/
theorem memberName_quote (h : ∀ c ∈ blanks, isBlank c = true) (name : String) (rest : List Char) :
    memberName .reading (blanks ++ (JsonValue.quote name ++ ':' :: rest)) = .ok (name, rest) := by
  rw [memberName, openingQuote, skipBlanks_quote h]
  simp only [string_escaped, colon_cons, Except.map]

/-- What starts with a sign or a digit is read as a number. -/
theorem scalar_number {i : Interest} (h : c = '-' ∨ c.isDigit = true) (cs : List Char) :
    scalar i (c :: cs) = (number i (c :: cs)).map fun (value, rest) => (.number value, rest) := by
  have hne (d : Char) (hd : ¬ (d = '-' ∨ d.isDigit = true)) : c ≠ d := fun heq => hd (heq ▸ h)
  rw [scalar, if_pos h]
  all_goals exact hne _ (by decide)

/-- A value is read back from its text: reading goes on behind the text with the value. -/
def ReadsBack (style : JsonStyle) (depth : Nat) (v : JsonValue) : Prop :=
  ∀ blanks frames rest, (∀ c ∈ blanks, isBlank c = true) → EndsNumber rest →
    value .reading frames (blanks ++ (v.write style depth ++ rest)) = finish .reading v frames rest

/-- Items are read back behind another one, and complete an array. -/
def ItemsReadBack (style : JsonStyle) (depth : Nat) (items : List JsonValue) : Prop :=
  ∀ v before frames blanks rest, (∀ c ∈ blanks, isBlank c = true) →
    finish .reading v (.array before :: frames)
        (JsonValue.writeItems style depth items ++ (blanks ++ ']' :: rest)) =
      finish .reading (.array ((v :: before).reverse ++ items)) frames rest

/-- Members are read back behind another one, and complete an object. -/
def MembersReadBack (style : JsonStyle) (depth : Nat) (members : List (String × JsonValue)) : Prop :=
  ∀ name v before frames blanks rest, (∀ c ∈ blanks, isBlank c = true) →
    finish .reading v (.object name before :: frames)
        (JsonValue.writeMembers style depth members ++ (blanks ++ '\x7d' :: rest)) =
      finish .reading (.object (((name, v) :: before).reverse ++ members)) frames rest

/-- A value that opens no bracket is read back if its text is read as it is. -/
theorem readsBack_of_scalar
    (h : ∀ rest, EndsNumber rest → ∃ c more, v.write style depth ++ rest = c :: more ∧ c ≠ '[' ∧
      c ≠ '\x7b' ∧ scalar .reading (c :: more) = .ok (v, rest)) : ReadsBack style depth v := by
  intro blanks frames rest hblanks hrest
  obtain ⟨c, more, htext, harray, hobject, hscalar⟩ := h rest hrest
  have hskip := skipBlanks_write hblanks style depth v rest
  rw [htext] at hskip ⊢
  exact value_scalar hskip harray hobject hscalar

/-- A number is read back from its text. -/
theorem readsBack_number (d : Decimal) : ReadsBack style depth (.number d) := by
  refine readsBack_of_scalar fun rest hrest => ?_
  obtain ⟨c, cs, hcs, hc⟩ := exists_writeNumber_eq d
  have hread := number_writeNumber d hrest
  rw [hcs, List.cons_append] at hread
  refine ⟨c, cs ++ rest, by rw [JsonValue.write, hcs]; rfl, ?_, ?_, ?_⟩
  · rintro rfl
    exact absurd hc (by decide)
  · rintro rfl
    exact absurd hc (by decide)
  · rw [scalar_number hc, hread]
    rfl

/-- A string is read back from its text. -/
theorem readsBack_string (text : String) : ReadsBack style depth (.string text) := by
  refine readsBack_of_scalar fun rest _ => ⟨_, _, quote_append text rest, by decide, by decide, ?_⟩
  rw [scalar, string_escaped]
  rfl

/-- An array is read back if its first item and the others are. -/
theorem readsBack_array {item : JsonValue} {items : List JsonValue} (hstyle : style.IsSpaced)
    (hitem : ReadsBack style (depth + 1) item) (hitems : ItemsReadBack style (depth + 1) items) :
    ReadsBack style depth (.array (item :: items)) := by
  intro blanks frames rest hblanks _
  have htext : (JsonValue.array (item :: items)).write style depth ++ rest =
      '[' :: (style.newline (depth + 1) ++ (item.write style (depth + 1) ++
        (JsonValue.writeItems style (depth + 1) items ++ (style.newline depth ++ ']' :: rest)))) := by
    simp [JsonValue.write]
  have hopen := (skipBlanks_write hblanks style depth _ rest).trans htext
  rw [value_array hopen, hitem _ _ _ (hstyle.newline _) (endsNumber_writeItems (hstyle.newline _) _),
    hitems _ _ _ _ _ (hstyle.newline _)]
  · rfl
  · intro behind hclose
    rw [skipBlanks_write (hstyle.newline _)] at hclose
    obtain ⟨c, more, heq, -, hc⟩ := opens_write style (depth + 1) item
      (JsonValue.writeItems style (depth + 1) items ++ (style.newline depth ++ ']' :: rest))
    rw [heq] at hclose
    exact hc (List.cons.inj hclose).1

/-- An object is read back if its first member and the others are. -/
theorem readsBack_object {members : List (String × JsonValue)} (hstyle : style.IsSpaced)
    (hvalue : ReadsBack style (depth + 1) v) (hmembers : MembersReadBack style (depth + 1) members) :
    ReadsBack style depth (.object ((name, v) :: members)) := by
  intro blanks frames rest hblanks _
  obtain ⟨behindColon, hcolon, hbehindColon⟩ := hstyle.colon
  have htext : (JsonValue.object ((name, v) :: members)).write style depth ++ rest =
      '\x7b' :: (style.newline (depth + 1) ++ (JsonValue.quote name ++ ':' ::
        (behindColon ++ (v.write style (depth + 1) ++
          (JsonValue.writeMembers style (depth + 1) members ++
            (style.newline depth ++ '\x7d' :: rest)))))) := by
    simp [JsonValue.write, hcolon]
  have hopen := (skipBlanks_write hblanks style depth _ rest).trans htext
  rw [value_object hopen ?_ (memberName_quote (hstyle.newline _) name _),
    hvalue _ _ _ hbehindColon (endsNumber_writeMembers (hstyle.newline _) _),
    hmembers _ _ _ _ _ _ (hstyle.newline _)]
  · rfl
  · intro behind hclose
    rw [skipBlanks_quote (hstyle.newline _)] at hclose
    cases hclose

/-- Items are read back one after the other. -/
theorem itemsReadBack_cons {item : JsonValue} {items : List JsonValue} (hstyle : style.IsSpaced)
    (hitem : ReadsBack style depth item) (hitems : ItemsReadBack style depth items) :
    ItemsReadBack style depth (item :: items) := by
  intro v before frames blanks rest hblanks
  have htext : JsonValue.writeItems style depth (item :: items) ++ (blanks ++ ']' :: rest) =
      ',' :: (style.newline depth ++ (item.write style depth ++
        (JsonValue.writeItems style depth items ++ (blanks ++ ']' :: rest)))) := by
    simp [JsonValue.writeItems]
  rw [htext, finish_arrayComma rfl, hitem _ _ _ (hstyle.newline _) (endsNumber_writeItems hblanks _),
    hitems _ _ _ _ _ hblanks]
  simp

/-- Members are read back one after the other. -/
theorem membersReadBack_cons {members : List (String × JsonValue)} (hstyle : style.IsSpaced)
    (hvalue : ReadsBack style depth v) (hmembers : MembersReadBack style depth members) :
    MembersReadBack style depth ((name, v) :: members) := by
  intro last w before frames blanks rest hblanks
  obtain ⟨behindColon, hcolon, hbehindColon⟩ := hstyle.colon
  have htext : JsonValue.writeMembers style depth ((name, v) :: members) ++ (blanks ++ '\x7d' :: rest) =
      ',' :: (style.newline depth ++ (JsonValue.quote name ++ ':' :: (behindColon ++
        (v.write style depth ++
          (JsonValue.writeMembers style depth members ++ (blanks ++ '\x7d' :: rest)))))) := by
    simp [JsonValue.writeMembers, hcolon]
  rw [htext, finish_objectComma rfl (memberName_quote (hstyle.newline _) name _),
    hvalue _ _ _ hbehindColon (endsNumber_writeMembers hblanks _), hmembers _ _ _ _ _ _ hblanks]
  simp

/-- Every value is read back from its text, at every depth. -/
theorem readsBack (hstyle : style.IsSpaced) : ∀ depth v, ReadsBack style depth v := by
  apply JsonValue.write.induct (ReadsBack style) (MembersReadBack style) (ItemsReadBack style)
  case case1 =>
    intro depth
    exact readsBack_of_scalar fun rest _ => ⟨_, _, rfl, by decide, by decide, rfl⟩
  case case2 =>
    intro depth
    exact readsBack_of_scalar fun rest _ => ⟨_, _, rfl, by decide, by decide, rfl⟩
  case case3 =>
    intro depth
    exact readsBack_of_scalar fun rest _ => ⟨_, _, rfl, by decide, by decide, rfl⟩
  case case4 => exact fun depth d => readsBack_number d
  case case5 => exact fun depth text => readsBack_string text
  case case6 =>
    intro depth blanks frames rest hblanks _
    exact value_emptyArray (skipBlanks_write hblanks style depth _ rest) rfl
  case case7 => exact fun depth item items hitem hitems => readsBack_array hstyle hitem hitems
  case case8 =>
    intro depth blanks frames rest hblanks _
    exact value_emptyObject (skipBlanks_write hblanks style depth _ rest) rfl
  case case9 => exact fun depth name v members hvalue hmembers => readsBack_object hstyle hvalue hmembers
  case case10 =>
    intro depth v before frames blanks rest hblanks
    have hskip : skipBlanks (blanks ++ ']' :: rest) = ']' :: rest := by
      rw [skipBlanks_append hblanks]
      rfl
    rw [JsonValue.writeItems, List.nil_append, finish_arrayEnd hskip, List.append_nil]
  case case11 => exact fun depth item items hitem hitems => itemsReadBack_cons hstyle hitem hitems
  case case12 =>
    intro depth name v before frames blanks rest hblanks
    have hskip : skipBlanks (blanks ++ '\x7d' :: rest) = '\x7d' :: rest := by
      rw [skipBlanks_append hblanks]
      rfl
    rw [JsonValue.writeMembers, List.nil_append, finish_objectEnd hskip, List.append_nil]
  case case13 =>
    exact fun depth name v members hvalue hmembers => membersReadBack_cons hstyle hvalue hmembers

end Scanner

/-- A value is read back from its text, with nothing but blanks behind it. -/
theorem JsonValue.parse_eq_ok {text : String} {v : JsonValue} {blanks : List Char}
    (h : Scanner.value .reading [] text.toList = .ok (v, blanks))
    (hblanks : ∀ c ∈ blanks, Scanner.isBlank c = true) : JsonValue.parse text = .ok v := by
  have hdone : Scanner.isDone blanks = true := by
    rw [Scanner.isDone, ← List.append_nil blanks, Scanner.skipBlanks_append hblanks]
    rfl
  simp only [JsonValue.parse, h, hdone, if_true]

/-- The ends of the edges of a graph are those that its edges have. -/
theorem CallGraph.mem_edgeEnds {g : CallGraph} {d : String × String} :
    d ∈ g.edgeEnds ↔ (⟨d.1, d.2⟩ : Edge) ∈ g.edges := by
  rw [edgeEnds, List.mem_map]
  constructor
  · rintro ⟨e, he, rfl⟩
    exact he
  · intro he
    exact ⟨⟨d.1, d.2⟩, he, rfl⟩

namespace Export.Json

/-- The document of names and of edges, as lists in any order. -/
def documentOf (names : List String) (ends : List (String × String)) : JsonValue :=
  .object [
    ("node_count", .nat names.length),
    ("nodes", .array (names.map .string)),
    ("edges", .array (ends.map fun (caller, callee) =>
      .object [("from", .string caller), ("to", .string callee)]))]

/-- The document of a graph is that of the lists of its nodes and edges. -/
theorem document_eq (g : CallGraph) : document g = documentOf g.nodes.elements g.edgeEnds := by
  simp [document, documentOf, CallGraph.edgeEnds, CallGraph.nodeCount, SortedSet.size]

/-- A document says which names and edges it is of. -/
theorem documentOf_inj {names names' : List String} {ends ends' : List (String × String)}
    (h : documentOf names ends = documentOf names' ends') : names = names' ∧ ends = ends' := by
  simp only [documentOf, JsonValue.object.injEq, List.cons.injEq, Prod.mk.injEq,
    JsonValue.array.injEq, true_and, and_true] at h
  refine ⟨List.map_injective_iff.2 (fun _ _ => JsonValue.string.inj) h.2.1,
    List.map_injective_iff.2 ?_ h.2.2⟩
  intro d e hde
  simp only [JsonValue.object.injEq, List.cons.injEq, Prod.mk.injEq, JsonValue.string.injEq, true_and,
    and_true] at hde
  exact Prod.ext hde.1 hde.2

/-- The value at the start of the text of a graph is its document, and a line feed is left behind it. -/
theorem value_render (g : CallGraph) : Scanner.value .reading [] (render g).toList =
    .ok (documentOf g.nodes.elements g.edgeEnds, ['\n']) := by
  have hend : Scanner.EndsNumber ['\n'] := ⟨rfl, by decide, by decide, by decide⟩
  have h := Scanner.readsBack JsonStyle.indented_isSpaced 0 (document g) [] [] ['\n']
    (fun _ hc => absurd hc List.not_mem_nil) hend
  rw [render, String.toList_ofList, ← document_eq]
  exact h.trans (by rw [Scanner.finish])

/-- The text of a graph is read as the document of its nodes and edges. -/
theorem parse_render (g : CallGraph) :
    JsonValue.parse (render g) = .ok (documentOf g.nodes.elements g.edgeEnds) :=
  JsonValue.parse_eq_ok (value_render g) (by simp [Scanner.isBlank])

/-- The text of a graph is one JSON value and a line feed. The value is read as the document of the
nodes and edges of the graph, each of them once and in strictly increasing order of their bytes; so
different graphs have different texts. -/
theorem document_lossless :
    (∀ g : CallGraph, ∃ names ends,
      Scanner.value .reading [] (render g).toList = .ok (documentOf names ends, ['\n']) ∧
      JsonValue.parse (render g) = .ok (documentOf names ends) ∧
      (render g).toList = (documentOf names ends).write .indented 0 ++ ['\n'] ∧
      (∀ x, x ∈ names ↔ x ∈ g.nodes) ∧ (∀ d, d ∈ ends ↔ (⟨d.1, d.2⟩ : Edge) ∈ g.edges) ∧
      (names.Pairwise fun x y => compare x.toUTF8.toList y.toUTF8.toList = .lt) ∧
      ends.Pairwise fun d e => (compare d.1.toUTF8.toList e.1.toUTF8.toList).then
        (compare d.2.toUTF8.toList e.2.toUTF8.toList) = .lt) ∧
    Function.Injective render := by
  refine ⟨fun g => ⟨g.nodes.elements, g.edgeEnds, value_render g, parse_render g, ?_, ?_, ?_,
    g.nodes_sorted, g.edgeEnds_sorted⟩, ?_⟩
  · rw [render, String.toList_ofList, document_eq]
  · intro x
    exact SortedSet.mem_iff.symm
  · intro d
    exact CallGraph.mem_edgeEnds
  · intro g g' h
    have hdocument := (parse_render g).symm.trans (h ▸ parse_render g')
    obtain ⟨hnodes, hedges⟩ := documentOf_inj (Except.ok.inj hdocument)
    rw [← g.ofLists_elements, ← g'.ofLists_elements, hnodes, hedges]

/-- A graph with a quote, a backslash, a control character and a letter of three bytes in its names. -/
def quotedGraph : CallGraph where
  nodes := ⟨["\x01", "\"\\", "ह"], by decide⟩
  edges := ⟨[⟨"ह", "\x01"⟩], by decide⟩

/-- The text of the sample, and what is read in it. -/
theorem quotedGraph_document :
    render quotedGraph = "\x7b\n  \"node_count\": 3,\n  \"nodes\": [\n    \"\\u0001\",\n" ++
      "    \"\\\"\\\\\",\n    \"ह\"\n  ],\n  \"edges\": [\n    \x7b\n      \"from\": \"ह\",\n" ++
      "      \"to\": \"\\u0001\"\n    \x7d\n  ]\n\x7d\n" ∧
    ∃ names ends, JsonValue.parse (render quotedGraph) = .ok (documentOf names ends) ∧
      "\"\\" ∈ names ∧ ("ह", "\x01") ∈ ends := by
  obtain ⟨names, ends, -, hparse, -, hnames, hends, -⟩ := document_lossless.1 quotedGraph
  exact ⟨by decide +kernel, names, ends, hparse, (hnames _).2 (.tail _ (.head _)),
    (hends _).2 (.head _)⟩

end Export.Json

end BareCallGraph
