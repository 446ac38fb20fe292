import BareCallGraph.CallGraph.Json
import BareCallGraph.Proofs.GraphSets
import BareCallGraph.Proofs.TextBytes
import Mathlib.Data.List.Forall2

/-!
# Graphs read back from their texts

A quoted text is read back as it was, whatever characters it has: each escape leads the reader back to
where it was before, with one more character read. From there on readers are put together as the texts
are: `ReadsAs` says that a reader finds something in the compact text of a value, whatever follows. So
a graph is read back from its text, and nodes and edges may be listed in any order and more than once.
-/

namespace BareCallGraph

namespace Scanner

open JsonValue (escape hexDigit)

/-! ## Strings -/

/-- Inside a string a character takes the reader one step further. -/
theorem stringFrom_step {before : List Char} {state next : StringState} {c : Char} {rest : List Char}
    {read : Option Char} (hopen : ¬ (c = '\x22' ∧ state = .plain))
    (hstep : stringStep .reading c rest state = .ok (next, read)) :
    stringFrom .reading before state (c :: rest) =
      stringFrom .reading (read.toList ++ before) next rest := by
  rw [stringFrom, if_neg hopen, hstep]

/-- A backslash opens an escape. -/
theorem stringFrom_backslash (before rest : List Char) :
    stringFrom .reading before .plain ('\\' :: rest) = stringFrom .reading before .escaped rest := by
  have hstep : stringStep .reading '\\' rest .plain = .ok (.escaped, none) := rfl
  exact stringFrom_step (by simp) hstep

/-- Behind a backslash a letter is read as the character that it stands for. -/
theorem stringFrom_letter {c letter : Char} (hletter : letter ≠ 'u')
    (h : escapedChar? letter = some c) (before rest : List Char) :
    stringFrom .reading before .plain ('\\' :: letter :: rest) =
      stringFrom .reading (c :: before) .plain rest := by
  have hstep : stringStep .reading letter rest .escaped = .ok (.plain, some c) := by
    simp [stringStep, hletter, h]
  rw [stringFrom_backslash, stringFrom_step (by simp) hstep]
  rfl

/-- A digit of base sixteen is read back. -/
theorem hexValue?_hexDigit (n : Nat) : hexValue? (hexDigit n) = some (n % 16) := by
  have hall : ∀ d < 16, hexValue? (Nat.digitChar d) = some d := by decide
  exact hall _ (Nat.mod_lt n (by decide))

/-- Four characters are enough for the digits of an escape. -/
theorem lacksDigits_eq_false (a b c d : Char) (rest : List Char) :
    lacksDigits (a :: b :: c :: d :: rest) = false := by
  have ha := a.utf8Size_pos
  have hb := b.utf8Size_pos
  have hc := c.utf8Size_pos
  have hd := d.utf8Size_pos
  refine decide_eq_false ?_
  simp only [List.take_succ_cons, List.take_zero, List.foldl_cons, List.foldl_nil]
  omega

/-- A control character is read back from its code. -/
theorem stringFrom_code {c : Char} (h : c.toNat < 0x20) (before rest : List Char) :
    stringFrom .reading before .plain
        ('\\' :: 'u' :: '0' :: '0' :: hexDigit (c.toNat / 16) :: hexDigit c.toNat :: rest) =
      stringFrom .reading (c :: before) .plain rest := by
  have hletter (a b c d : Char) (rest : List Char) :
      stringStep .reading 'u' (a :: b :: c :: d :: rest) .escaped = .ok (.hex 4 0 none, none) := by
    simp [stringStep, beforeDigits, lacksDigits_eq_false, Except.map]
  have hdigit (left value n : Nat) (more : List Char) (hleft : ¬ left ≤ 1) :
      stringStep .reading (hexDigit n) more (.hex left value none) =
        .ok (.hex (left - 1) (16 * value + n % 16) none, none) := by
    simp [stringStep, hexValue?_hexDigit, hleft]
  have hvalue : 16 * (16 * (16 * (16 * 0 + 0 % 16) + 0 % 16) + c.toNat / 16 % 16) + c.toNat % 16 =
      c.toNat := by omega
  have hlast : stringStep .reading (hexDigit c.toNat) rest
      (.hex 1 (16 * (16 * (16 * 0 + 0 % 16) + 0 % 16) + c.toNat / 16 % 16) none) =
        .ok (.plain, some c) := by
    have htrail : isTrail c.toNat = false := by simp [isTrail]; omega
    have hlead : isLead c.toNat = false := by simp [isLead]; omega
    simp only [stringStep, hexValue?_hexDigit, hvalue]
    simp [afterDigits, htrail, hlead, Char.ofNat_toNat]
  have hzero : '0' = hexDigit 0 := rfl
  rw [hzero, stringFrom_backslash, stringFrom_step (by simp) (hletter _ _ _ _ _),
    stringFrom_step (by simp) (hdigit 4 0 0 _ (by decide)),
    stringFrom_step (by simp) (hdigit 3 _ 0 _ (by decide)),
    stringFrom_step (by simp) (hdigit 2 _ _ _ (by decide)), stringFrom_step (by simp) hlast]
  rfl

/-- How a character can be escaped: by a letter that stands for it, by its code, or not at all. -/
theorem escape_cases (c : Char) :
    (∃ letter, escape c = ['\\', letter] ∧ letter ≠ 'u' ∧ escapedChar? letter = some c) ∨
      (c.toNat < 0x20 ∧
        escape c = ['\\', 'u', '0', '0', hexDigit (c.toNat / 16), hexDigit c.toNat]) ∨
      c ≠ '\x22' ∧ c ≠ '\\' ∧ ¬ c.toNat < 0x20 ∧ escape c = [c] := by
  by_cases hletter : c ∈ ['\x22', '\\', '\x08', '\x0c', '\n', '\r', '\t']
  · refine .inl ?_
    simp only [List.mem_cons, List.not_mem_nil, or_false] at hletter
    rcases hletter with rfl | rfl | rfl | rfl | rfl | rfl | rfl <;> exact ⟨_, rfl, by decide, rfl⟩
  · simp only [List.mem_cons, List.not_mem_nil, or_false, not_or] at hletter
    obtain ⟨hquote, hbackslash, hb, hf, hn, hr, ht⟩ := hletter
    refine .inr ?_
    simp only [escape, if_neg hquote, if_neg hbackslash, if_neg hb, if_neg hf, if_neg hn, if_neg hr,
      if_neg ht]
    by_cases hcontrol : c.toNat < 0x20
    · exact .inl ⟨hcontrol, if_pos hcontrol⟩
    · exact .inr ⟨hquote, hbackslash, hcontrol, if_neg hcontrol⟩

/-- A character is read back from its escape. -/
theorem stringFrom_escape (before : List Char) (c : Char) (rest : List Char) :
    stringFrom .reading before .plain (escape c ++ rest) =
      stringFrom .reading (c :: before) .plain rest := by
  rcases escape_cases c with ⟨letter, hescape, hletter, hchar⟩ | ⟨hcontrol, hescape⟩ |
    ⟨hquote, hbackslash, hcontrol, hescape⟩
  · rw [hescape]
    exact stringFrom_letter hletter hchar before rest
  · rw [hescape]
    exact stringFrom_code hcontrol before rest
  · have hstep : stringStep .reading c rest .plain = .ok (.plain, some c) := by
      simp [stringStep, hbackslash, hcontrol]
    rw [hescape]
    exact stringFrom_step (fun h => hquote h.1) hstep

/-- A text is read back from its quotes, whatever follows. -/
theorem string_escaped (text : String) (rest : List Char) :
    string .reading (text.toList.flatMap escape ++ '\x22' :: rest) = .ok (text, rest) := by
  have hfrom (cs before : List Char) :
      stringFrom .reading before .plain (cs.flatMap escape ++ '\x22' :: rest) =
        .ok (String.ofList (before.reverse ++ cs), rest) := by
    induction cs generalizing before with
    | nil => simp [stringFrom]
    | cons c cs ih =>
      rw [List.flatMap_cons, List.append_assoc, stringFrom_escape, ih]
      simp
  rw [string, hfrom]
  simp

/-! ## What stands between values -/

/-- A text starts with something other than a blank or the end of an array. -/
def Opens (cs : List Char) : Prop := ∃ c more, cs = c :: more ∧ isBlank c = false ∧ c ≠ ']'

/-- What starts with no blank stays as it is when blanks are skipped. -/
theorem skipBlanks_of_opens {cs : List Char} (h : Opens cs) : skipBlanks cs = cs := by
  obtain ⟨c, more, rfl, hblank, -⟩ := h
  rw [skipBlanks, List.dropWhile_cons_of_neg (by simp [hblank])]

/-- An array that does not end at once has a first item. -/
theorem nextItem?_first {cs : List Char} (h : Opens cs) : nextItem? true cs = .ok (some cs) := by
  have hcs := skipBlanks_of_opens h
  obtain ⟨c, more, rfl, -, hc⟩ := h
  simp [nextItem?, hcs]

/-- Behind a comma there is a next item. -/
theorem nextItem?_comma {cs : List Char} (h : Opens cs) :
    nextItem? false (',' :: cs) = .ok (some cs) := by
  have hcs := skipBlanks_of_opens h
  have hcomma : skipBlanks (',' :: cs) = ',' :: cs := rfl
  obtain ⟨c, more, rfl, -, hc⟩ := h
  simp [nextItem?, hcomma, hcs, hc]

/-- There is no next item at the end of an array. -/
theorem nextItem?_end (first : Bool) (rest : List Char) :
    nextItem? first (']' :: rest) = .ok none := rfl

theorem closingBracket_cons (rest : List Char) : closingBracket (']' :: rest) = .ok rest := rfl

/-- An object that does not end at once has a first member. -/
theorem nextMember?_first (rest : List Char) :
    nextMember? true ('\x22' :: rest) = .ok (some rest) := rfl

/-- Behind a comma there is a next member. -/
theorem nextMember?_comma (rest : List Char) :
    nextMember? false (',' :: '\x22' :: rest) = .ok (some rest) := rfl

/-- There is no next member at the end of an object. -/
theorem nextMember?_end (first : Bool) (rest : List Char) :
    nextMember? first ('\x7d' :: rest) = .ok none := rfl

theorem colon_cons (rest : List Char) : colon (':' :: rest) = .ok rest := rfl

end Scanner

namespace ShapeReader

open Scanner

variable {α β σ : Type} {item : ShapeReader α} {first : Bool} {cs rest start : List Char} {a : α}

/-- Where there is no next item the array is complete. -/
theorem items_end (h : nextItem? first cs = .ok none) :
    items item first cs = (closingBracket cs).map ([], ·) := by
  rw [items]
  split <;> simp_all

/-- One item is read, and then the others. -/
theorem items_next (h : nextItem? first cs = .ok (some start))
    (hrun : item.run start = .ok (a, rest)) :
    items item first cs = (items item false rest).map fun (as, rest) => (a :: as, rest) := by
  rw [items]
  split
  · next h' => cases h.symm.trans h'
  · next h' => cases h.symm.trans h'
  · next h' =>
    cases h.symm.trans h'
    split
    · next hrun' => cases hrun.symm.trans hrun'
    · next hrun' =>
      cases hrun.symm.trans hrun'
      rfl

/-- Where there is no next member the object is complete. -/
theorem members_end {member : σ → String → Except ReadFault (ShapeReader σ)} {found : σ}
    (h : nextMember? first cs = .ok none) :
    members member first found cs = .ok (found, (skipBlanks cs).drop 1) := by
  rw [members]
  split <;> simp_all

/-- One member is read, and the others with what is known then. -/
theorem members_next {member : σ → String → Except ReadFault (ShapeReader σ)} {found found' : σ}
    {name : String} {content : ShapeReader σ} {behind value : List Char}
    (h : nextMember? first cs = .ok (some start))
    (hname : Scanner.string .reading start = .ok (name, behind))
    (hmember : member found name = .ok content) (hcolon : colon behind = .ok value)
    (hrun : content.run value = .ok (found', rest)) :
    members member first found cs = members member false found' rest := by
  rw [members]
  split
  · next h' => cases h.symm.trans h'
  · next h' => cases h.symm.trans h'
  · next h' =>
    cases h.symm.trans h'
    split
    · next hname' => cases hname.symm.trans hname'
    · next hname' =>
      cases hname.symm.trans hname'
      rw [hmember]
      simp only
      split
      · next hcolon' => cases hcolon.symm.trans hcolon'
      · next hcolon' =>
        cases hcolon.symm.trans hcolon'
        split
        · next hrun' => cases hrun.symm.trans hrun'
        · next hrun' =>
          cases hrun.symm.trans hrun'
          rfl

/-! ## Readers and texts -/

/-- A reader finds something in the compact text of a value, whatever follows. -/
structure ReadsAs (r : ShapeReader α) (v : JsonValue) (a : α) : Prop where
  /-- The text is not taken for the end of an array. -/
  opens : ∀ depth rest, Opens (v.write .compact depth ++ rest)
  /-- What is found, and the text behind it. -/
  run : ∀ depth rest, r.run (v.write .compact depth ++ rest) = .ok (a, rest)

/-- A reader of something else is had by changing what is found. -/
theorem ReadsAs.map {r : ShapeReader α} {v : JsonValue} (f : α → β) (h : r.ReadsAs v a) :
    (r.map f).ReadsAs v (f a) where
  opens := h.opens
  run depth rest := by simp [ShapeReader.map, h.run, Except.map]

/-- A string is read from its quotes. -/
theorem readsAs_string (text : String) : ShapeReader.string.ReadsAs (.string text) text where
  opens depth rest := ⟨'\x22', _, rfl, rfl, by decide⟩
  run depth rest := by
    have hquote (cs : List Char) :
        ShapeReader.string.run ('\x22' :: cs) = Scanner.string .reading cs := rfl
    have hwrite : (JsonValue.string text).write .compact depth ++ rest =
        '\x22' :: (text.toList.flatMap JsonValue.escape ++ '\x22' :: rest) := by
      simp [JsonValue.write, JsonValue.quote]
    rw [hwrite, hquote, string_escaped]

/-- In the compact style items are parted by commas alone. -/
theorem writeItems_compact_cons (depth : Nat) (v : JsonValue) (vs : List JsonValue) :
    JsonValue.writeItems .compact depth (v :: vs) =
      ',' :: (v.write .compact depth ++ JsonValue.writeItems .compact depth vs) := by
  simp [JsonValue.writeItems, JsonStyle.compact]

/-- In the compact style an array has its items between brackets, parted by commas. -/
theorem write_compact_array (depth : Nat) (v : JsonValue) (vs : List JsonValue) :
    (JsonValue.array (v :: vs)).write .compact depth = '[' ::
      (v.write .compact (depth + 1) ++ JsonValue.writeItems .compact (depth + 1) vs ++ [']']) := by
  simp [JsonValue.write, JsonStyle.compact]

/-- The items behind the first one are read one after the other, up to the end of the array. -/
theorem items_writeItems {vs : List JsonValue} {as : List α}
    (h : List.Forall₂ item.ReadsAs vs as) (depth : Nat) (rest : List Char) :
    items item false (JsonValue.writeItems .compact depth vs ++ ']' :: rest) = .ok (as, rest) := by
  induction h with
  | nil =>
    rw [JsonValue.writeItems, List.nil_append, items_end (nextItem?_end false rest),
      closingBracket_cons]
    rfl
  | @cons v a vs as hv _ ih =>
    have hnext := nextItem?_comma (hv.opens depth
      (JsonValue.writeItems .compact depth vs ++ ']' :: rest))
    rw [writeItems_compact_cons, List.cons_append, List.append_assoc, items_next hnext (hv.run _ _),
      ih]
    rfl

/-- An array is read item by item. -/
theorem readsAs_arrayOf {vs : List JsonValue} {as : List α} (h : List.Forall₂ item.ReadsAs vs as) :
    (arrayOf item).ReadsAs (.array vs) as where
  opens depth rest := by
    cases vs with
    | nil => exact ⟨'[', _, rfl, rfl, by decide⟩
    | cons v vs => exact ⟨'[', _, rfl, rfl, by decide⟩
  run depth rest := by
    have hopen (cs : List Char) : (arrayOf item).run ('[' :: cs) = items item true cs := rfl
    cases h with
    | nil =>
      have hwrite : (JsonValue.array []).write .compact depth ++ rest = '[' :: ']' :: rest := rfl
      rw [hwrite, hopen, items_end (nextItem?_end true rest), closingBracket_cons]
      rfl
    | @cons v a vs as hv hvs =>
      have hnext := nextItem?_first (hv.opens (depth + 1)
        (JsonValue.writeItems .compact (depth + 1) vs ++ ']' :: rest))
      rw [write_compact_array, List.cons_append, hopen, List.append_assoc, List.append_assoc,
        List.singleton_append, items_next hnext (hv.run _ _), items_writeItems hvs]
      rfl

/-- An item that has to be there is read where one starts. -/
theorem required_run (h : nextItem? first cs = .ok (some start)) :
    (required first item).run cs = item.run start := by
  simp [required, h]

/-- The two parts of a pair are read one after the other, up to the end of the array. -/
theorem pairOf_run {left : ShapeReader α} {right : ShapeReader β} {b : β} {more behind : List Char}
    (hleft : (required true left).run cs = .ok (a, more))
    (hright : (required false right).run more = .ok (b, behind))
    (hend : closingBracket behind = .ok rest) :
    (pairOf left right).run ('[' :: cs) = .ok ((a, b), rest) := by
  have hskip : skipBlanks ('[' :: cs) = '[' :: cs := rfl
  simp [pairOf, bracketed, hskip, hleft, hright, hend, Except.map]

/-- A pair is read from an array of its two parts. -/
theorem readsAs_pairOf {left : ShapeReader α} {right : ShapeReader β} {v v' : JsonValue} {b : β}
    (h : left.ReadsAs v a) (h' : right.ReadsAs v' b) :
    (pairOf left right).ReadsAs (.array [v, v']) (a, b) where
  opens depth rest := ⟨'[', _, rfl, rfl, by decide⟩
  run depth rest := by
    have hwrite : (JsonValue.array [v, v']).write .compact depth ++ rest =
        '[' :: (v.write .compact (depth + 1) ++
          ',' :: (v'.write .compact (depth + 1) ++ ']' :: rest)) := by
      rw [write_compact_array, writeItems_compact_cons]
      simp [JsonValue.writeItems]
    have hleft := (required_run (nextItem?_first (h.opens (depth + 1) _))).trans
      (h.run (depth + 1) (',' :: (v'.write .compact (depth + 1) ++ ']' :: rest)))
    have hright := (required_run (nextItem?_comma (h'.opens (depth + 1) _))).trans
      (h'.run (depth + 1) (']' :: rest))
    rw [hwrite]
    exact pairOf_run hleft hright (closingBracket_cons rest)

end ShapeReader

namespace CallGraph

open Scanner ShapeReader

/-- The record of lists of nodes and of edges, which may be in any order. -/
def recordOf (nodes : List String) (edges : List (String × String)) : JsonValue :=
  .object [
    ("nodes", .array (nodes.map .string)),
    ("edges", .array (edges.map fun (caller, callee) => .array [.string caller, .string callee]))]

/-- Names are read from an array of strings. -/
theorem readsAs_nodes (nodes : List String) :
    nodesReader.ReadsAs (.array (nodes.map .string)) nodes := by
  refine readsAs_arrayOf ?_
  rw [List.forall₂_map_left_iff]
  exact List.forall₂_same.2 fun text _ => readsAs_string text

/-- The ends of edges are read from an array of pairs of strings. -/
theorem readsAs_edges (edges : List (String × String)) :
    edgesReader.ReadsAs (.array (edges.map fun (caller, callee) =>
      .array [.string caller, .string callee])) edges := by
  refine readsAs_arrayOf ?_
  rw [List.forall₂_map_left_iff]
  exact List.forall₂_same.2 fun edge _ => readsAs_pairOf (readsAs_string _) (readsAs_string _)

/-- The text of a member: its name, and behind a colon its value and what follows. -/
def memberText (name : String) (value : List Char) : List Char :=
  '\x22' :: (name.toList.flatMap JsonValue.escape ++ '\x22' :: ':' :: value)

/-- The compact text of a record has the nodes and then the edges. -/
theorem write_recordOf (nodes : List String) (edges : List (String × String)) :
    (recordOf nodes edges).write .compact 0 = '\x7b' :: memberText "nodes"
      ((JsonValue.array (nodes.map .string)).write .compact 1 ++ ',' :: memberText "edges"
        ((JsonValue.array (edges.map fun (caller, callee) =>
          .array [.string caller, .string callee])).write .compact 1 ++ ['\x7d'])) := by
  simp [recordOf, memberText, JsonValue.write, JsonValue.writeMembers, JsonValue.quote,
    JsonStyle.compact]

/-- The record of any lists is read as those lists. -/
theorem recordReader_run (nodes : List String) (edges : List (String × String)) :
    recordReader.run ((recordOf nodes edges).write .compact 0) =
      .ok (⟨some nodes, some edges⟩, []) := by
  have hopen (cs : List Char) : recordReader.run ('\x7b' :: cs) = members member true {} cs := rfl
  have hnodes := (readsAs_nodes nodes).map fun nodes => ({ nodes := some nodes } : Record)
  have hedges := (readsAs_edges edges).map fun edges =>
    ({ nodes := some nodes, edges := some edges } : Record)
  have hmember : member {} "nodes" =
      .ok (nodesReader.map fun nodes => { nodes := some nodes }) := rfl
  have hmember' : member { nodes := some nodes } "edges" =
      .ok (edgesReader.map fun edges => { nodes := some nodes, edges := some edges }) := rfl
  rw [write_recordOf, hopen, memberText,
    members_next (nextMember?_first _) (string_escaped _ _) hmember (colon_cons _) (hnodes.run _ _),
    memberText,
    members_next (nextMember?_comma _) (string_escaped _ _) hmember' (colon_cons _) (hedges.run _ _),
    members_end (nextMember?_end false [])]
  rfl

/-- Any lists of nodes and edges are read back from their text, as the graph that has them. -/
theorem ofJsonText_recordOf (nodes : List String) (edges : List (String × String)) :
    ofJsonText ((recordOf nodes edges).render .compact) = .ok (ofLists nodes edges) := by
  simp only [ofJsonText, JsonValue.render, String.toList_ofList, recordReader_run]
  rfl

/-- The ends of the edges of a graph, in order. -/
def edgeEnds (g : CallGraph) : List (String × String) :=
  g.edges.elements.map fun e => (e.caller, e.callee)

/-- A graph is written as the record of its nodes and edges. -/
theorem toJson_eq (g : CallGraph) : g.toJson = recordOf g.nodes.elements g.edgeEnds := by
  simp [toJson, recordOf, edgeEnds]

/-- The graph of the nodes and edges of a graph is the graph. -/
theorem ofLists_elements (g : CallGraph) : ofLists g.nodes.elements g.edgeEnds = g := by
  refine eq_of_mem (fun q => ?_) (fun e => ?_)
  · rw [ofLists, SortedSet.mem_ofList, SortedSet.mem_iff]
  · rw [ofLists, SortedSet.mem_ofList, SortedSet.mem_iff]
    simp [edgeEnds]

/-- A graph is read back from its text. -/
theorem ofJsonText_toJsonText (g : CallGraph) : ofJsonText g.toJsonText = .ok g := by
  rw [toJsonText, toJson_eq, ofJsonText_recordOf, ofLists_elements]

/-- A text that is read as a graph has a record of lists, and the graph has what is in the lists. -/
theorem ofJsonText_eq_ok_iff {text : String} {g : CallGraph} :
    ofJsonText text = .ok g ↔ ∃ nodes edges rest,
      recordReader.run text.toList = .ok (⟨some nodes, some edges⟩, rest) ∧ isDone rest = true ∧
        g = ofLists nodes edges := by
  rw [ofJsonText]
  constructor
  · intro h
    split at h
    · contradiction
    · next record rest hrun =>
      obtain ⟨nodes?, edges?⟩ := record
      split at h
      · next nodes edges hnodes hedges =>
        cases hnodes
        cases hedges
        split at h
        · next hdone => exact ⟨nodes, edges, rest, hrun, hdone, (Except.ok.inj h).symm⟩
        · contradiction
      · contradiction
  · rintro ⟨nodes, edges, rest, hrun, hdone, rfl⟩
    simp only [hrun, hdone, if_true]

/-- The nodes of a graph are listed in the order of their bytes. -/
theorem nodes_sorted (g : CallGraph) : g.nodes.elements.Pairwise fun x y =>
    compare x.toUTF8.toList y.toUTF8.toList = .lt := by
  refine g.nodes.sorted.imp ?_
  intro x y hxy
  rw [← compare_toUTF8, hxy]

/-- The edges of a graph are listed in the order of the bytes of their callers, and then of their
callees. -/
theorem edgeEnds_sorted (g : CallGraph) : g.edgeEnds.Pairwise fun d e =>
    (compare d.1.toUTF8.toList e.1.toUTF8.toList).then
      (compare d.2.toUTF8.toList e.2.toUTF8.toList) = .lt := by
  refine List.pairwise_map.2 (g.edges.sorted.imp ?_)
  intro d e hde
  rw [← compare_toUTF8, ← compare_toUTF8, ← Edge.compare_eq, hde]

/-- The graph of lists has the edges of the lists. -/
theorem mem_edgeEnds_ofLists {nodes : List String} {edges : List (String × String)}
    {e : String × String} : e ∈ (ofLists nodes edges).edgeEnds ↔ e ∈ edges := by
  rw [edgeEnds, List.mem_map]
  constructor
  · rintro ⟨d, hd, rfl⟩
    obtain ⟨e, he, rfl⟩ := List.mem_map.1 (SortedSet.mem_ofList.1 hd)
    exact he
  · intro he
    exact ⟨⟨e.1, e.2⟩, SortedSet.mem_ofList.2 (List.mem_map.2 ⟨e, he, rfl⟩), rfl⟩

/-- Graphs and their texts. A graph is read back from its text, also where its nodes and edges are
listed in another order or more than once. Of every text that is read as a graph, the text of the graph
has the same nodes and edges, each of them once and in strictly increasing order of their bytes, and it
is read as the same graph. -/
theorem graph_roundTrip :
    (∀ g : CallGraph, ofJsonText g.toJsonText = .ok g) ∧
    (∀ nodes edges, ofJsonText ((recordOf nodes edges).render .compact) = .ok (ofLists nodes edges)) ∧
    ∀ text g, ofJsonText text = .ok g →
      ∃ nodes edges rest, recordReader.run text.toList = .ok (⟨some nodes, some edges⟩, rest) ∧
        ∃ names ends, g.toJson = recordOf names ends ∧
          (∀ x, x ∈ names ↔ x ∈ nodes) ∧ (∀ e, e ∈ ends ↔ e ∈ edges) ∧
          (names.Pairwise fun x y => compare x.toUTF8.toList y.toUTF8.toList = .lt) ∧
          (ends.Pairwise fun d e => (compare d.1.toUTF8.toList e.1.toUTF8.toList).then
            (compare d.2.toUTF8.toList e.2.toUTF8.toList) = .lt) ∧
          ofJsonText g.toJsonText = .ok g := by
  refine ⟨ofJsonText_toJsonText, ofJsonText_recordOf, ?_⟩
  intro text g h
  obtain ⟨nodes, edges, rest, hrun, -, rfl⟩ := ofJsonText_eq_ok_iff.1 h
  refine ⟨nodes, edges, rest, hrun, _, _, toJson_eq _, ?_, ?_, nodes_sorted _, edgeEnds_sorted _,
    ofJsonText_toJsonText _⟩
  · intro x
    exact SortedSet.mem_ofList
  · intro e
    exact mem_edgeEnds_ofLists

/-- A text with a member that nobody asks for, the edges before the nodes, repetitions and a surrogate
pair. -/
def mixedText : String :=
  " \x7b\"x\":1.5, \"edges\":[[\"b\",\"a\"],[\"b\",\"a\"]]," ++
    "\"nodes\":[\"\\ud83d\\ude00\",\"b\",\"b\"]\x7d "

/-- The sample and the text of its graph. -/
theorem mixedText_roundTrip :
    ∃ g, ofJsonText mixedText = .ok g ∧
      g.toJsonText = "\x7b\"nodes\":[\"b\",\"😀\"],\"edges\":[[\"b\",\"a\"]]\x7d" ∧
      ofJsonText g.toJsonText = .ok g := by
  have h : ofJsonText mixedText = .ok (ofLists ["😀", "b"] [("b", "a")]) := by decide +kernel
  obtain ⟨_, _, _, _, _, _, _, _, _, _, _, hback⟩ := graph_roundTrip.2.2 _ _ h
  exact ⟨_, h, by decide +kernel, hback⟩

end CallGraph

end BareCallGraph
