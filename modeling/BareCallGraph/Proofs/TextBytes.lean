import BareCallGraph.FileTree.Path

/-!
# Texts and their bytes

Bytes are the UTF-8 form of a text exactly if `Utf8.text?` finds the text in them, so a file name is a
text exactly if it is written as one. Texts are ordered as their bytes are: of two characters the
smaller one has the smaller bytes, and no character's bytes are the beginning of another's.
-/

namespace BareCallGraph

/-- Listing the bytes of an array, from where the first ones are listed already. -/
theorem toList_loop_toByteArray (before after : List UInt8) :
    ByteArray.toList.loop (before ++ after).toByteArray before.length before.reverse =
      before ++ after := by
  induction after generalizing before with
  | nil =>
    rw [ByteArray.toList.loop, if_neg (by simp), List.reverse_reverse, List.append_nil]
  | cons b after ih =>
    have hget : (before ++ b :: after).toByteArray.get! before.length = b := by
      simp [ByteArray.get!, List.data_toByteArray]
    rw [ByteArray.toList.loop, if_pos (by simp), hget]
    have := ih (before ++ [b])
    simpa using this

/-- The bytes of a text are those of its characters. -/
theorem toUTF8_toList (text : String) :
    text.toUTF8.toList = text.toList.flatMap String.utf8EncodeChar := by
  have hbytes : text.toUTF8 = (text.toList.flatMap String.utf8EncodeChar).toByteArray := by
    rw [String.toUTF8_eq_toByteArray, ← List.utf8Encode, ← String.toByteArray_ofList,
      String.ofList_toList]
  rw [hbytes]
  exact toList_loop_toByteArray [] _

/-- The numbers of characters are those below 0x110000 that are no surrogates. -/
theorem toNat_valid (c : Char) : c.toNat < 0xD800 ∨ 0xDFFF < c.toNat ∧ c.toNat < 0x110000 :=
  c.valid

/-- A number that is that of a character is the number of the character that is made from it. -/
theorem toNat_ofNat {n : Nat} (h : n < 0xD800 ∨ 0xDFFF < n ∧ n < 0x110000) :
    (Char.ofNat n).toNat = n := by
  have hvalid : n.isValidChar := h
  rw [Char.ofNat, dif_pos hvalid]
  rfl

section Encode

open String (utf8EncodeChar)

variable {c d : Char}

/-- A number without its last digits in base 64. -/
def lead (v : Nat) : Nat → Nat
  | 0 => v
  | k + 1 => lead v k / 64

/-- The last digits of a number in base 64, each as a byte that continues a character. -/
def continuation (v : Nat) : Nat → List UInt8
  | 0 => []
  | k + 1 => .ofNat (lead v k % 64 + 0x80) :: continuation v k

/-- How a number is written as a character: how many bytes follow the first one, and what is added to
the leading digits to make the first byte. -/
inductive Written (v : Nat) : Nat → Nat → Prop where
  | one (high : v ≤ 0x7F) : Written v 0 0
  | two (low : 0x7F < v) (high : v ≤ 0x7FF) : Written v 1 0xC0
  | three (low : 0x7FF < v) (high : v ≤ 0xFFFF) : Written v 2 0xE0
  | four (low : 0xFFFF < v) (high : v < 0x110000) : Written v 3 0xF0

/-- The first byte of a written character is a byte. -/
theorem Written.lt {v k marker : Nat} (h : Written v k marker) : lead v k + marker < 256 := by
  cases h <;> simp only [lead] <;> omega

/-- Every character is written in one of the four ways. -/
theorem written (c : Char) : ∃ k marker, Written c.toNat k marker := by
  have hvalid := toNat_valid c
  by_cases h₁ : c.toNat ≤ 0x7F
  · exact ⟨_, _, .one h₁⟩
  by_cases h₂ : c.toNat ≤ 0x7FF
  · exact ⟨_, _, .two (by omega) h₂⟩
  by_cases h₃ : c.toNat ≤ 0xFFFF
  · exact ⟨_, _, .three (by omega) h₃⟩
  · exact ⟨_, _, .four (by omega) (by omega)⟩

/-- A character is written as its leading digits with their marker, and its other digits behind them. -/
theorem encode_eq {k marker : Nat} (h : Written c.toNat k marker) :
    utf8EncodeChar c = .ofNat (lead c.toNat k + marker) :: continuation c.toNat k := by
  have hdef : utf8EncodeChar c =
      if c.toNat ≤ 0x7F then [.ofNat c.toNat]
      else if c.toNat ≤ 0x7FF then
        [.ofNat (c.toNat / 64 % 32 + 0xC0), .ofNat (c.toNat % 64 + 0x80)]
      else if c.toNat ≤ 0xFFFF then
        [.ofNat (c.toNat / 4096 % 16 + 0xE0), .ofNat (c.toNat / 64 % 64 + 0x80),
          .ofNat (c.toNat % 64 + 0x80)]
      else
        [.ofNat (c.toNat / 262144 % 8 + 0xF0), .ofNat (c.toNat / 4096 % 64 + 0x80),
          .ofNat (c.toNat / 64 % 64 + 0x80), .ofNat (c.toNat % 64 + 0x80)] := rfl
  rw [hdef]
  generalize c.toNat = v at h
  cases h with
  | one high => simp [high, continuation, lead]
  | two low high =>
    have hlead : v / 64 % 32 = v / 64 := by omega
    simp [Nat.not_le.2 low, high, continuation, lead, hlead]
  | three low high =>
    have hlead : v / 4096 % 16 = v / 4096 := by omega
    simp [Nat.not_le.2 low, high, continuation, lead, Nat.div_div_eq_div_mul, hlead,
      show ¬ v ≤ 0x7F by omega]
  | four low high =>
    have hlead : v / 262144 % 8 = v / 262144 := by omega
    simp [Nat.not_le.2 low, continuation, lead, Nat.div_div_eq_div_mul, hlead,
      show ¬ v ≤ 0x7F by omega, show ¬ v ≤ 0x7FF by omega]

/-! ## Order -/

/-- One list of bytes has a smaller byte than another at the first place where they differ. -/
def FirstSmaller (xs ys : List UInt8) : Prop :=
  ∃ same a b rest rest', xs = same ++ a :: rest ∧ ys = same ++ b :: rest' ∧ compare a b = .lt

/-- The first bytes decide, or they are equal and what follows decides. -/
theorem firstSmaller_cons {m n : Nat} (h : m ≤ n) (hn : n < 256) {xs ys : List UInt8}
    (hxy : m = n → FirstSmaller xs ys) : FirstSmaller (.ofNat m :: xs) (.ofNat n :: ys) := by
  rcases Nat.lt_or_eq_of_le h with h | rfl
  · refine ⟨[], _, _, xs, ys, rfl, rfl, ?_⟩
    rw [Std.compare_eq_lt, UInt8.lt_iff_toNat_lt, UInt8.toNat_ofNat', UInt8.toNat_ofNat']
    omega
  · obtain ⟨same, a, b, rest, rest', rfl, rfl, hab⟩ := hxy rfl
    exact ⟨_ :: same, a, b, rest, rest', rfl, rfl, hab⟩

/-- The leading digits of the smaller number are the smaller ones. -/
theorem lead_le_lead {v w : Nat} (h : v ≤ w) (k : Nat) : lead v k ≤ lead w k := by
  induction k with
  | zero => exact h
  | succ k ih => exact Nat.div_le_div_right ih

/-- Of two numbers with the same leading digits the smaller one has the smaller digits behind them. -/
theorem firstSmaller_continuation {v w : Nat} (h : v < w) {k : Nat}
    (hlead : lead v k = lead w k) : FirstSmaller (continuation v k) (continuation w k) := by
  induction k with
  | zero => exact absurd hlead (Nat.ne_of_lt h)
  | succ k ih =>
    have hle := lead_le_lead (Nat.le_of_lt h) k
    have hdiv : lead v k / 64 = lead w k / 64 := hlead
    refine firstSmaller_cons (by omega) (by omega) fun hdigit => ?_
    exact ih (by omega)

/-- Of two characters the smaller one has the smaller bytes. -/
theorem firstSmaller_encode (h : c.toNat < d.toNat) :
    FirstSmaller (utf8EncodeChar c) (utf8EncodeChar d) := by
  obtain ⟨k, marker, hc⟩ := written c
  obtain ⟨l, marker', hd⟩ := written d
  rw [encode_eq hc, encode_eq hd]
  generalize c.toNat = v at *
  generalize d.toNat = w at *
  have hsmall := hd.lt
  have hlead : k = l ∧ marker = marker' ∨ lead v k + marker < lead w l + marker' := by
    cases hc <;> cases hd <;> simp [lead] <;> omega
  rcases hlead with ⟨rfl, rfl⟩ | hlead
  · have hle := lead_le_lead (Nat.le_of_lt h) k
    refine firstSmaller_cons (by omega) hsmall fun heq => ?_
    exact firstSmaller_continuation h (by omega)
  · exact firstSmaller_cons (by omega) hsmall (by omega)

end Encode

/-- What two lists start with in common does not matter when they are compared. -/
theorem compare_append_left {α : Type} [Ord α] [Std.ReflOrd α] (same xs ys : List α) :
    compare (same ++ xs) (same ++ ys) = compare xs ys := by
  induction same with
  | nil => rfl
  | cons x same ih =>
    have hself : compare x x = .eq := Std.ReflCmp.compare_self
    rw [List.cons_append, List.cons_append, List.compare_cons_cons, hself, ih]
    rfl

/-- The first place where two lists of bytes differ decides, whatever follows. -/
theorem FirstSmaller.compare {xs ys : List UInt8} (h : FirstSmaller xs ys) (more more' : List UInt8) :
    Ord.compare (xs ++ more) (ys ++ more') = .lt := by
  obtain ⟨same, a, b, rest, rest', rfl, rfl, hab⟩ := h
  rw [List.append_assoc, List.append_assoc, compare_append_left, List.cons_append, List.cons_append,
    List.compare_cons_cons, hab]
  rfl

/-- Characters are ordered as their bytes are. By induction on where the two lists differ. -/
theorem compare_flatMap_encode {xs ys : List Char} (h : xs < ys) :
    compare (xs.flatMap String.utf8EncodeChar) (ys.flatMap String.utf8EncodeChar) = .lt := by
  induction h with
  | @nil d ys =>
    rw [List.flatMap_nil, List.flatMap_cons]
    cases hd : String.utf8EncodeChar d with
    | nil => exact absurd hd String.utf8EncodeChar_ne_nil
    | cons b bs => rfl
  | rel h =>
    rw [List.flatMap_cons, List.flatMap_cons]
    exact (firstSmaller_encode h).compare _ _
  | cons _ ih =>
    rw [List.flatMap_cons, List.flatMap_cons, compare_append_left]
    exact ih

/-- Texts are ordered as their bytes are. -/
theorem compare_toUTF8 (s t : String) :
    compare s t = compare s.toUTF8.toList t.toUTF8.toList := by
  have hlt {s t : String} (h : s < t) : compare s.toUTF8.toList t.toUTF8.toList = .lt := by
    rw [toUTF8_toList, toUTF8_toList]
    exact compare_flatMap_encode h
  have hcompare : compare s t = if s < t then .lt else if s = t then .eq else .gt := rfl
  rw [hcompare]
  split
  · next h => exact (hlt h).symm
  split
  · next h =>
    subst h
    exact Std.ReflCmp.compare_self.symm
  · next hnlt hne =>
    have hgt : t < s := by
      refine Classical.byContradiction fun hngt => ?_
      exact hne (String.le_antisymm (String.not_lt.1 hngt) (String.not_lt.1 hnlt))
    exact (Std.OrientedCmp.gt_of_lt (hlt hgt)).symm

/-! ## Reading bytes -/

namespace Utf8

section Scan

variable {p : Pending} {b : UInt8} {bs : List UInt8} {before : List (Option Char)}

/-- A byte that cannot continue a character leaves something malformed, and is read anew. -/
theorem scanFrom_of_out (h : ¬ (p.low ≤ b ∧ b ≤ p.high)) :
    scanFrom before (some p) (b :: bs) = scanFrom (none :: before) none (b :: bs) := by
  simp only [scanFrom, if_neg h]

/-- A byte that continues a character adds its digit, and ends the character if it was the last one. -/
theorem scanFrom_of_in (h : p.low ≤ b ∧ b ≤ p.high) :
    scanFrom before (some p) (b :: bs) =
      if p.left ≤ 1 then
        scanFrom (some (Char.ofNat (64 * p.value + (b.toNat - 0x80))) :: before) none bs
      else scanFrom before (some ⟨p.left - 1, 0x80, 0xBF, 64 * p.value + (b.toNat - 0x80)⟩) bs := by
  simp only [scanFrom, if_pos h]

/-- What was found before stands before what is found. -/
theorem scanFrom_eq_append (before : List (Option Char)) (state : Option Pending)
    (bs : List UInt8) : scanFrom before state bs = before.reverse ++ scanFrom [] state bs := by
  induction bs generalizing before state with
  | nil => cases state <;> simp [scanFrom]
  | cons b bs ih =>
    have hcons (c? : Option Char) (before : List (Option Char)) :
        scanFrom (c? :: before) none bs = before.reverse ++ scanFrom [c?] none bs := by
      rw [ih (c? :: before), ih [c?]]
      simp
    have hnone (before : List (Option Char)) :
        scanFrom before none (b :: bs) = before.reverse ++ scanFrom [] none (b :: bs) := by
      simp only [scanFrom]
      cases start b with
      | whole c => exact hcons _ _
      | pending p => exact ih _ _
      | malformed => exact hcons _ _
    cases state with
    | none => exact hnone before
    | some p =>
      by_cases hb : p.low ≤ b ∧ b ≤ p.high
      · rw [scanFrom_of_in hb, scanFrom_of_in hb]
        split
        · exact hcons _ _
        · exact ih _ _
      · rw [scanFrom_of_out hb, scanFrom_of_out hb, hnone, hnone [none]]
        simp

end Scan

/-- Bytes are a text exactly if all of them are read as its characters, without fault. -/
theorem text?_eq_some_iff_scan {bytes : List UInt8} {s : String} :
    text? bytes = some s ↔ scan bytes = s.toList.map some := by
  have hmapM (found : List (Option Char)) (cs : List Char) :
      found.mapM id = some cs ↔ found = cs.map some := by
    induction found generalizing cs with
    | nil => cases cs <;> simp
    | cons c? found ih =>
      cases c? with
      | none => cases cs <;> simp
      | some c =>
        cases cs with
        | nil => simp [List.mapM_cons, Option.bind_eq_some_iff]
        | cons c' cs =>
          simp [List.mapM_cons, Option.bind_eq_some_iff, ih]
          exact and_comm
  rw [text?, Option.map_eq_some_iff]
  constructor
  · intro h
    obtain ⟨cs, hcs, rfl⟩ := h
    rw [String.toList_ofList]
    exact (hmapM _ _).1 hcs
  · intro h
    exact ⟨s.toList, (hmapM _ _).2 h, String.ofList_toList⟩

/-- A byte that continues a character adds a digit. -/
theorem scanFrom_digit {k u digit : Nat} {low high : UInt8} (hdigit : digit < 64)
    (hlow : low.toNat ≤ digit + 0x80) (hhigh : digit + 0x80 ≤ high.toNat)
    (before : List (Option Char)) (bs : List UInt8) :
    scanFrom before (some ⟨k + 1, low, high, u⟩) (.ofNat (digit + 0x80) :: bs) =
      if k = 0 then scanFrom (some (Char.ofNat (64 * u + digit)) :: before) none bs
      else scanFrom before (some ⟨k, 0x80, 0xBF, 64 * u + digit⟩) bs := by
  have hbyte : (UInt8.ofNat (digit + 0x80)).toNat = digit + 0x80 := by
    rw [UInt8.toNat_ofNat']
    omega
  have hin : low ≤ .ofNat (digit + 0x80) ∧ .ofNat (digit + 0x80) ≤ high := by
    rw [UInt8.le_iff_toNat_le, UInt8.le_iff_toNat_le, hbyte]
    exact ⟨hlow, hhigh⟩
  rw [scanFrom_of_in hin, hbyte]
  simp

/-- The leading digits of a number in base 64, and one more. -/
theorem lead_append_digit (v k : Nat) : 64 * lead v (k + 1) + lead v k % 64 = lead v k := by
  rw [lead]
  omega

/-- The bytes that continue a character are read as its last digits. -/
theorem scanFrom_continuation {v k : Nat} {low high : UInt8}
    (hlow : low.toNat ≤ lead v k % 64 + 0x80) (hhigh : lead v k % 64 + 0x80 ≤ high.toNat)
    (before : List (Option Char)) (rest : List UInt8) :
    scanFrom before (some ⟨k + 1, low, high, lead v (k + 1)⟩) (continuation v (k + 1) ++ rest) =
      scanFrom (some (Char.ofNat v) :: before) none rest := by
  induction k generalizing low high with
  | zero =>
    rw [continuation, List.cons_append, scanFrom_digit (by omega) hlow hhigh, if_pos rfl,
      lead_append_digit]
    rfl
  | succ k ih =>
    rw [continuation, List.cons_append, scanFrom_digit (by omega) hlow hhigh, if_neg (by omega),
      lead_append_digit]
    have hlow : (0x80 : UInt8).toNat = 0x80 := rfl
    have hhigh : (0xBF : UInt8).toNat = 0xBF := rfl
    exact ih (by omega) (by omega)

/-- The next byte of what is read without fault, from within a character on, is a digit. -/
theorem digit_of_scanFrom {k u : Nat} {low high : UInt8} {bs : List UInt8} {cs : List Char}
    (hlow : 0x80 ≤ low.toNat) (hhigh : high.toNat ≤ 0xBF)
    (h : scanFrom [] (some ⟨k, low, high, u⟩) bs = cs.map some) :
    ∃ digit rest, digit < 64 ∧ low.toNat ≤ digit + 0x80 ∧ digit + 0x80 ≤ high.toNat ∧
      bs = .ofNat (digit + 0x80) :: rest := by
  cases bs with
  | nil => cases cs <;> simp [scanFrom] at h
  | cons b rest =>
    by_cases hb : low ≤ b ∧ b ≤ high
    · rw [UInt8.le_iff_toNat_le, UInt8.le_iff_toNat_le] at hb
      have hdigit : b.toNat - 0x80 + 0x80 = b.toNat := by omega
      refine ⟨b.toNat - 0x80, rest, by omega, by omega, by omega, ?_⟩
      rw [hdigit, UInt8.ofNat_toNat]
    · rw [scanFrom_of_out hb, scanFrom_eq_append] at h
      cases cs <;> simp at h

/-- Bytes that are read without fault, from within a character on, continue the character. -/
theorem continuation_of_scanFrom {k u : Nat} {low high : UInt8} {bs : List UInt8} {cs : List Char}
    (hlow : 0x80 ≤ low.toNat) (hhigh : high.toNat ≤ 0xBF)
    (h : scanFrom [] (some ⟨k + 1, low, high, u⟩) bs = cs.map some) :
    ∃ v rest later, bs = continuation v (k + 1) ++ rest ∧ lead v (k + 1) = u ∧
      low.toNat ≤ lead v k % 64 + 0x80 ∧ lead v k % 64 + 0x80 ≤ high.toNat ∧
      cs = Char.ofNat v :: later ∧ scanFrom [] none rest = later.map some := by
  induction k generalizing u low high bs with
  | zero =>
    obtain ⟨digit, rest, hdigit, hl, hh, rfl⟩ := digit_of_scanFrom hlow hhigh h
    rw [scanFrom_digit hdigit hl hh, if_pos rfl, scanFrom_eq_append] at h
    cases cs with
    | nil => simp at h
    | cons c later =>
      simp only [List.reverse_singleton, List.singleton_append, List.map_cons, List.cons.injEq,
        Option.some.injEq] at h
      have hlast : lead (64 * u + digit) 0 % 64 = digit := by rw [lead]; omega
      have hlead : lead (64 * u + digit) (0 + 1) = u := by simp only [lead]; omega
      refine ⟨64 * u + digit, rest, later, ?_, hlead, by omega, by omega, by rw [h.1], h.2⟩
      rw [continuation, hlast]
      rfl
  | succ k ih =>
    obtain ⟨digit, rest, hdigit, hl, hh, rfl⟩ := digit_of_scanFrom hlow hhigh h
    rw [scanFrom_digit hdigit hl hh, if_neg (by omega)] at h
    obtain ⟨v, rest, later, rfl, hv, _, _, hcs, hrest⟩ := ih (by decide) (by decide) h
    have hlead : lead v (k + 1) % 64 = digit := by omega
    refine ⟨v, rest, later, ?_, ?_, by omega, by omega, hcs, hrest⟩
    · rw [continuation.eq_2 v (k + 1), hlead]
      rfl
    · rw [lead]
      omega

/-- Which first bytes announce further ones, and which the next one can be. -/
inductive Announces (n : Nat) : Pending → Prop where
  | two {u : Nat} (byte : n = u + 0xC0) (low : 2 ≤ u) (high : u < 0x20) :
      Announces n ⟨1, 0x80, 0xBF, u⟩
  | threeLow {u : Nat} (byte : n = u + 0xE0) (least : u = 0) : Announces n ⟨2, 0xA0, 0xBF, u⟩
  | three {u : Nat} (byte : n = u + 0xE0) (low : 0 < u) (high : u < 0x10) (ne : u ≠ 0xD) :
      Announces n ⟨2, 0x80, 0xBF, u⟩
  | threeHigh {u : Nat} (byte : n = u + 0xE0) (gap : u = 0xD) : Announces n ⟨2, 0x80, 0x9F, u⟩
  | fourLow {u : Nat} (byte : n = u + 0xF0) (least : u = 0) : Announces n ⟨3, 0x90, 0xBF, u⟩
  | four {u : Nat} (byte : n = u + 0xF0) (low : 0 < u) (high : u < 4) :
      Announces n ⟨3, 0x80, 0xBF, u⟩
  | fourHigh {u : Nat} (byte : n = u + 0xF0) (greatest : u = 4) : Announces n ⟨3, 0x80, 0x8F, u⟩

/-- What is announced has at least one byte to come, and that byte is one that continues a character. -/
theorem Announces.range {n : Nat} {p : Pending} (h : Announces n p) :
    p.left ≠ 0 ∧ 0x80 ≤ p.low.toNat ∧ p.high.toNat ≤ 0xBF := by
  cases h <;> simp

/-- What a first byte can say. -/
theorem start_cases (b : UInt8) :
    b.toNat < 0x80 ∧ start b = .whole (Char.ofNat b.toNat) ∨
      (∃ p, Announces b.toNat p ∧ start b = .pending p) ∨ start b = .malformed := by
  simp only [start, UInt8.lt_iff_toNat_lt, ← UInt8.toNat_inj, UInt8.reduceToNat]
  generalize b.toNat = n
  by_cases h₁ : n < 0x80
  · exact .inl ⟨h₁, if_pos h₁⟩
  rw [if_neg h₁]
  refine .inr ?_
  by_cases h₂ : n < 0xC2
  · exact .inr (if_pos h₂)
  rw [if_neg h₂]
  by_cases h₃ : n < 0xE0
  · exact .inl ⟨_, .two (by omega) (by omega) (by omega), if_pos h₃⟩
  rw [if_neg h₃]
  by_cases h₄ : n = 0xE0
  · exact .inl ⟨_, .threeLow (by omega) rfl, if_pos h₄⟩
  rw [if_neg h₄]
  by_cases h₅ : n = 0xED
  · exact .inl ⟨_, .threeHigh (by omega) (by omega), if_pos h₅⟩
  rw [if_neg h₅]
  by_cases h₆ : n < 0xF0
  · exact .inl ⟨_, .three (by omega) (by omega) (by omega) (by omega), if_pos h₆⟩
  rw [if_neg h₆]
  by_cases h₇ : n = 0xF0
  · exact .inl ⟨_, .fourLow (by omega) rfl, if_pos h₇⟩
  rw [if_neg h₇]
  by_cases h₈ : n < 0xF4
  · exact .inl ⟨_, .four (by omega) (by omega) (by omega), if_pos h₈⟩
  rw [if_neg h₈]
  by_cases h₉ : n = 0xF4
  · exact .inl ⟨_, .fourHigh (by omega) (by omega), if_pos h₉⟩
  · exact .inr (if_neg h₉)

/-- A byte that announces further ones is taken for such a byte. -/
theorem start_of_announces {b : UInt8} {p : Pending} (h : Announces b.toNat p) :
    start b = .pending p := by
  simp only [start, UInt8.lt_iff_toNat_lt, ← UInt8.toNat_inj, UInt8.reduceToNat]
  generalize b.toNat = n at h
  cases h with
  | two byte low high =>
    rw [if_neg (by omega), if_neg (by omega), if_pos (by omega), byte, Nat.add_sub_cancel]
  | threeLow byte least =>
    subst least byte
    rfl
  | three byte low high ne =>
    rw [if_neg (by omega), if_neg (by omega), if_neg (by omega), if_neg (by omega), if_neg (by omega),
      if_pos (by omega), byte, Nat.add_sub_cancel]
  | threeHigh byte gap =>
    subst gap byte
    rfl
  | fourLow byte least =>
    subst least byte
    rfl
  | four byte low high =>
    rw [if_neg (by omega), if_neg (by omega), if_neg (by omega), if_neg (by omega), if_neg (by omega),
      if_neg (by omega), if_neg (by omega), if_pos (by omega), byte, Nat.add_sub_cancel]
  | fourHigh byte greatest =>
    subst greatest byte
    rfl

/-- A byte that is taken to announce further ones does announce them. -/
theorem announces_of_start {b : UInt8} {p : Pending} (h : start b = .pending p) :
    Announces b.toNat p := by
  rcases start_cases b with ⟨-, hb⟩ | ⟨p', hp, hb⟩ | hb
  · cases h.symm.trans hb
  · cases h.symm.trans hb
    exact hp
  · cases h.symm.trans hb

/-- A first byte is a character of its own exactly if it is below 0x80. -/
theorem start_eq_whole_iff {b : UInt8} {c : Char} :
    start b = .whole c ↔ b.toNat < 0x80 ∧ c = Char.ofNat b.toNat := by
  constructor
  · intro h
    rcases start_cases b with ⟨hlt, hb⟩ | ⟨p, -, hb⟩ | hb
    · cases h.symm.trans hb
      exact ⟨hlt, rfl⟩
    · cases h.symm.trans hb
    · cases h.symm.trans hb
  · rintro ⟨hlt, rfl⟩
    rw [start, if_pos (UInt8.lt_iff_toNat_lt.2 hlt)]

/-- The first byte of a character of several bytes announces the others. -/
theorem announces_of_written {c : Char} {k marker : Nat} (h : Written c.toNat (k + 1) marker) :
    ∃ low high, Announces (lead c.toNat (k + 1) + marker)
        ⟨k + 1, low, high, lead c.toNat (k + 1)⟩ ∧
      low.toNat ≤ lead c.toNat k % 64 + 0x80 ∧ lead c.toNat k % 64 + 0x80 ≤ high.toNat := by
  have hvalid := toNat_valid c
  generalize c.toNat = v at *
  cases h with
  | two low high =>
    simp only [lead]
    exact ⟨_, _, .two rfl (by omega) (by omega), by simp, by simp; omega⟩
  | three low high =>
    simp only [lead]
    by_cases hlow : v / 64 / 64 = 0
    · exact ⟨_, _, .threeLow rfl hlow, by simp; omega, by simp; omega⟩
    by_cases hgap : v / 64 / 64 = 0xD
    · exact ⟨_, _, .threeHigh rfl hgap, by simp, by simp; omega⟩
    exact ⟨_, _, .three rfl (by omega) (by omega) hgap, by simp, by simp; omega⟩
  | four low high =>
    simp only [lead]
    by_cases hlow : v / 64 / 64 / 64 = 0
    · exact ⟨_, _, .fourLow rfl hlow, by simp; omega, by simp; omega⟩
    by_cases hhigh : v / 64 / 64 / 64 = 4
    · exact ⟨_, _, .fourHigh rfl hhigh, by simp, by simp; omega⟩
    exact ⟨_, _, .four rfl (by omega) (by omega), by simp, by simp; omega⟩

/-- What is announced and follows is a character. -/
theorem written_of_announces {n k v : Nat} {p : Pending} (h : Announces n p) (hleft : p.left = k + 1)
    (hvalue : lead v (k + 1) = p.value) (hlow : p.low.toNat ≤ lead v k % 64 + 0x80)
    (hhigh : lead v k % 64 + 0x80 ≤ p.high.toNat) :
    (v < 0xD800 ∨ 0xDFFF < v ∧ v < 0x110000) ∧
      ∃ marker, Written v (k + 1) marker ∧ n = lead v (k + 1) + marker := by
  cases h with
  | two byte low high =>
    obtain rfl : k = 0 := by simpa using hleft.symm
    simp only [lead] at hvalue ⊢
    exact ⟨by omega, 0xC0, .two (by omega) (by omega), by omega⟩
  | threeLow | three | threeHigh =>
    obtain rfl : k = 1 := by simpa using hleft.symm
    simp only [lead, UInt8.reduceToNat] at hlow hhigh hvalue ⊢
    exact ⟨by omega, 0xE0, .three (by omega) (by omega), by omega⟩
  | fourLow | four | fourHigh =>
    obtain rfl : k = 2 := by simpa using hleft.symm
    simp only [lead, UInt8.reduceToNat] at hlow hhigh hvalue ⊢
    exact ⟨by omega, 0xF0, .four (by omega) (by omega), by omega⟩

/-- A character that is written out is read, whatever follows. -/
theorem scanFrom_encode (before : List (Option Char)) (c : Char) (rest : List UInt8) :
    scanFrom before none (String.utf8EncodeChar c ++ rest) =
      scanFrom (some c :: before) none rest := by
  obtain ⟨k, marker, hw⟩ := written c
  rw [encode_eq hw, List.cons_append]
  have hbyte : (UInt8.ofNat (lead c.toNat k + marker)).toNat = lead c.toNat k + marker := by
    have := hw.lt
    rw [UInt8.toNat_ofNat']
    omega
  cases k with
  | zero =>
    cases hw with
    | one high =>
      rw [lead, Nat.add_zero] at hbyte ⊢
      have hstart : start (.ofNat c.toNat) = .whole c := by
        rw [start_eq_whole_iff, hbyte, Char.ofNat_toNat]
        exact ⟨by omega, rfl⟩
      simp [scanFrom, hstart, continuation]
  | succ k =>
    obtain ⟨low, high, hp, hlow, hhigh⟩ := announces_of_written hw
    rw [← hbyte] at hp
    have hstart := start_of_announces hp
    have := scanFrom_continuation hlow hhigh before rest
    rw [Char.ofNat_toNat] at this
    rw [← this]
    simp only [scanFrom, hstart]

/-- What is read without fault starts with a character. -/
theorem exists_encode_of_scanFrom {b : UInt8} {bs : List UInt8} {cs : List Char}
    (h : scanFrom [] none (b :: bs) = cs.map some) :
    ∃ c rest later, b :: bs = String.utf8EncodeChar c ++ rest ∧ cs = c :: later ∧
      scanFrom [] none rest = later.map some := by
  simp only [scanFrom] at h
  split at h
  · next c hstart =>
    obtain ⟨hb, rfl⟩ := start_eq_whole_iff.1 hstart
    rw [scanFrom_eq_append] at h
    have hnat := toNat_ofNat (n := b.toNat) (by omega)
    cases cs with
    | nil => simp at h
    | cons c later =>
      simp only [List.reverse_singleton, List.singleton_append, List.map_cons, List.cons.injEq,
        Option.some.injEq] at h
      refine ⟨Char.ofNat b.toNat, bs, later, ?_, by rw [h.1], h.2⟩
      rw [encode_eq (.one (by omega)), hnat]
      simp [continuation, lead]
  · next p hstart =>
    have hp := announces_of_start hstart
    obtain ⟨hleft, hlow, hhigh⟩ := hp.range
    obtain ⟨k, hk⟩ := Nat.exists_eq_succ_of_ne_zero hleft
    obtain ⟨left, low, high, u⟩ := p
    subst hk
    obtain ⟨v, rest, later, rfl, hv, hl, hh, hcs, hrest⟩ := continuation_of_scanFrom hlow hhigh h
    obtain ⟨hvalid, marker, hw, hb⟩ := written_of_announces hp rfl hv hl hh
    have hnat := toNat_ofNat hvalid
    refine ⟨Char.ofNat v, rest, later, ?_, hcs, hrest⟩
    rw [encode_eq (hnat.symm ▸ hw), hnat, ← hb, UInt8.ofNat_toNat, List.cons_append]
  · rw [scanFrom_eq_append] at h
    cases cs <;> simp at h

/-- Bytes are read as characters exactly when they are those characters, written out. -/
theorem scan_eq_map_some_iff {bytes : List UInt8} {cs : List Char} :
    scan bytes = cs.map some ↔ bytes = cs.flatMap String.utf8EncodeChar := by
  rw [scan]
  constructor
  · intro h
    induction cs generalizing bytes with
    | nil =>
      cases bytes with
      | nil => rfl
      | cons b bs =>
        obtain ⟨c, rest, later, _, hcs, _⟩ := exists_encode_of_scanFrom h
        contradiction
    | cons c cs ih =>
      cases bytes with
      | nil => simp [scanFrom] at h
      | cons b bs =>
        obtain ⟨c, rest, later, hbytes, hcs, hrest⟩ := exists_encode_of_scanFrom h
        cases hcs
        rw [hbytes, ih hrest, List.flatMap_cons]
  · rintro rfl
    induction cs with
    | nil => rfl
    | cons c cs ih =>
      rw [List.flatMap_cons, scanFrom_encode, scanFrom_eq_append, ih]
      rfl

/-- Bytes are a text when they are the bytes of that text. -/
theorem text?_eq_some_iff {bytes : List UInt8} {s : String} :
    text? bytes = some s ↔ bytes = s.toUTF8.toList := by
  rw [text?_eq_some_iff_scan, scan_eq_map_some_iff, toUTF8_toList]

end Utf8

/-- A name is a text when it is the name that is written so. -/
theorem FileName.text?_eq_some_iff {n : FileName} {s : String} :
    n.text? = some s ↔ n = .ofString s := by
  rw [text?, Utf8.text?_eq_some_iff, ofString, FileName.mk.injEq]

/-- Different texts are different names. -/
@[simp]
theorem FileName.ofString_inj {s t : String} : ofString s = ofString t ↔ s = t := by
  constructor
  · intro h
    have hs : (ofString s).text? = some s := text?_eq_some_iff.2 rfl
    have ht : (ofString t).text? = some t := text?_eq_some_iff.2 rfl
    rw [h, ht] at hs
    exact (Option.some.inj hs).symm
  · rintro rfl
    rfl

end BareCallGraph
