import BareCallGraph.Proofs.FunctionNames
import Mathlib.Data.List.DropRight

/-!
# Places in a text

A place is told by the bytes before it, its line, and the bytes before it on that line; lines and bytes of
a line are counted from one (`Position.pastAll_start`). While a text is read, every cursor stays in the
text, whatever the table says: a vertex is pushed with the cursor behind a token, or with that of a vertex
that was there before. So each node of the tree of a text starts at a place of the text, and its
characters stand there (`Python.syntaxTree_placedIn`).
-/

namespace BareCallGraph

/-- Characters stand at a place of a text. -/
def StandsAt (text : List Char) (p : Position) (cs : List Char) : Prop :=
  ∃ before after, text = before ++ cs ++ after ∧ p = Position.start.pastAll before

/-- The place behind some characters: the number of their bytes, that of their line feeds, and that of the
bytes behind the last line feed. -/
theorem Position.pastAll_start (before : List Char) :
    start.pastAll before = ⟨(String.ofList before).utf8ByteSize, before.count '\n' + 1,
      (String.ofList (before.rtakeWhile (· != '\n'))).utf8ByteSize + 1⟩ := by
  have hbytes (cs : List Char) (c : Char) :
      (String.ofList (cs ++ [c])).utf8ByteSize = (String.ofList cs).utf8ByteSize + c.utf8Size := by
    rw [String.ofList_append, String.utf8ByteSize_append, ← String.singleton_eq_ofList,
      String.utf8ByteSize_singleton]
  induction before using List.reverseRecOn with
  | nil => rfl
  | append_singleton before c ih =>
    rw [pastAll_append, ih, pastAll_cons, pastAll_nil, past, hbytes, List.rtakeWhile_concat,
      List.count_append]
    by_cases hc : c = '\n'
    · subst hc
      rfl
    · have hline : (c != '\n') = true := by simpa using hc
      rw [if_neg hc, if_pos hline, hbytes, List.count_singleton, beq_false_of_ne hc]
      simp only [Nat.add_right_comm, Bool.false_eq_true, if_false, Nat.add_zero]

section

variable {text cs : List Char} {p : Position}

/-- Nothing stands at the start of every text. -/
theorem standsAt_start : StandsAt text .start [] := ⟨[], text, rfl, rfl⟩

/-- Where characters stand there is a place of the text. -/
theorem StandsAt.place (h : StandsAt text p cs) : StandsAt text p [] := by
  obtain ⟨before, after, htext, hp⟩ := h
  exact ⟨before, cs ++ after, by rw [htext, List.append_nil, List.append_assoc], hp⟩

end

namespace Cursor

/-- A cursor is at a place of a text, before the rest of the text. -/
def IsIn (c : Cursor) (text : List Char) : Prop :=
  ∃ before, text = before ++ c.rest ∧ c.position = Position.start.pastAll before

variable {text : List Char} {c : Cursor}

/-- A cursor that skips characters of the text stays in it. -/
theorem IsIn.skip (h : c.IsIn text) (n : Nat) : (c.skip n).IsIn text := by
  obtain ⟨before, htext, hposition⟩ := h
  refine ⟨before ++ c.take n, ?_, ?_⟩
  · rw [List.append_assoc, take_append_rest, htext]
  · rw [Position.pastAll_append, ← hposition]
    rfl

/-- The next characters stand where the cursor is. -/
theorem IsIn.standsAt (h : c.IsIn text) (n : Nat) : StandsAt text c.position (c.take n) := by
  obtain ⟨before, htext, hposition⟩ := h
  refine ⟨before, (c.skip n).rest, ?_, hposition⟩
  rw [List.append_assoc, take_append_rest, htext]

/-- A cursor in the text is at a place of it. -/
theorem IsIn.place (h : c.IsIn text) : StandsAt text c.position [] := (h.standsAt 0).place

end Cursor

namespace Grammar

/-! ## Stacks -/

section

variable {T : Type} (text : List Char) (holds : Token T → Prop)

/-- The tokens of a derivation stand where they say and have some property besides, and its phrases start
at places of the text. -/
inductive Derivation.PlacedIn : Derivation T → Prop where
  | leaf {symbol : Nat} {token : Token T} {stop : Position}
      (stands : StandsAt text token.start token.text) (found : holds token) :
      PlacedIn (.leaf symbol token stop)
  | phrase {symbol : Nat} {weight : Int} {start stop : Position} {parts : List (Mark × Derivation T)}
      (starts : StandsAt text start []) (inner : ∀ p ∈ parts, PlacedIn p.2) :
      PlacedIn (.phrase symbol weight start stop parts)

/-- A vertex has its cursor in the text, and all that was read there is placed in it. -/
structure Vertex.PlacedIn (x : Vertex T) : Prop where
  /-- The text not read yet is the rest of the text. -/
  cursor : x.cursor.IsIn text
  /-- What was read on the way to the vertex. -/
  link : ∀ l ∈ x.links, l.tree.PlacedIn text holds
  /-- What was read since. -/
  extra : ∀ d ∈ x.extras, d.PlacedIn text holds

/-- All vertices are placed in the text. -/
def Stacks.PlacedIn (s : Stacks T) : Prop := ∀ n < s.size, (s.vertex n).PlacedIn text holds

end

section

variable {T : Type} {text : List Char} {holds : Token T → Prop}

/-- A derivation that is placed in the text starts at a place of it. -/
theorem Derivation.PlacedIn.starts {d : Derivation T} (h : d.PlacedIn text holds) :
    StandsAt text d.start [] := by
  cases h with
  | leaf stands => exact stands.place
  | phrase starts => exact starts

/-- The parts of a phrase are placed in the text with it. -/
theorem Derivation.PlacedIn.placedIn_parts {d : Derivation T} (h : d.PlacedIn text holds) :
    ∀ p ∈ d.parts, p.2.PlacedIn text holds := by
  cases h with
  | leaf => exact fun p hp => absurd hp List.not_mem_nil
  | phrase _ inner => exact inner

/-- A phrase starts where its first part does, or where it is closed if it has none. -/
theorem Derivation.placedIn_close {here : Position} (hhere : StandsAt text here [])
    {parts : List (Mark × Derivation T)} (hparts : ∀ p ∈ parts, p.2.PlacedIn text holds) (symbol : Nat)
    (weight : Int) : (close symbol weight here parts).PlacedIn text holds := by
  refine .phrase ?_ hparts
  cases parts with
  | nil => exact hhere
  | cons p parts => exact (hparts p (.head _)).starts

namespace Stacks

variable {s : Stacks T}

/-- There is nothing at a vertex that is not there. -/
theorem vertex_of_le {n : Nat} (h : s.size ≤ n) : s.vertex n = default := by
  rw [vertex, Array.getD_eq_getD_getElem?, Array.getElem?_eq_none h, Option.getD_none]

/-- What was read before a vertex is placed in the text. -/
theorem PlacedIn.link (h : s.PlacedIn text holds) {n : Nat} :
    ∀ l ∈ (s.vertex n).links, l.tree.PlacedIn text holds := by
  rcases Nat.lt_or_ge n s.size with hn | hn
  · exact (h n hn).link
  · rw [vertex_of_le hn]
    exact fun l hl => absurd hl List.not_mem_nil

/-- The extras that stand before a vertex are placed in the text. -/
theorem PlacedIn.extra (h : s.PlacedIn text holds) {n : Nat} :
    ∀ d ∈ (s.vertex n).extras, d.PlacedIn text holds := by
  rcases Nat.lt_or_ge n s.size with hn | hn
  · exact (h n hn).extra
  · rw [vertex_of_le hn]
    exact fun d hd => absurd hd List.not_mem_nil

/-- A vertex may be changed into another one that is placed in the text. -/
theorem PlacedIn.modify {n : Nat} {f : Vertex T → Vertex T} (h : s.PlacedIn text holds)
    (hf : (s.vertex n).PlacedIn text holds → (f (s.vertex n)).PlacedIn text holds) :
    Stacks.PlacedIn text holds (s.modify n f) := by
  intro m hm
  rw [Array.size_modify] at hm
  rcases vertex_modify_cases s n m f with heq | ⟨rfl, heq⟩
  · rw [heq]
    exact h m hm
  · rw [heq]
    exact hf (h n hm)

/-- A vertex that is placed in the text may be added. -/
theorem PlacedIn.push {x : Vertex T} (h : s.PlacedIn text holds) (hx : x.PlacedIn text holds) :
    Stacks.PlacedIn text holds (s.push x) := by
  intro n hn
  rw [Array.size_push] at hn
  rw [vertex, Array.getD_eq_getD_getElem?, Array.getElem?_push]
  split
  · exact hx
  · have := h n (by omega)
    rwa [vertex, Array.getD_eq_getD_getElem?] at this

/-- Adding a link adds no vertex. -/
theorem size_addLink (limit : Nat) (s : Stacks T) (n : Nat) (link : Link T) :
    (addLink limit s n link).size = s.size := by
  induction limit generalizing s n link with
  | zero => rfl
  | succ limit ih =>
    rw [addLink]
    split
    · rfl
    · split
      · exact Array.size_modify
      · split
        · split
          · exact Array.size_modify
          · rfl
        · rw [Array.size_modify]
          exact List.foldlRecOn (motive := fun s' : Stacks T => s'.size = s.size) _ _ rfl
            fun s' hs' m _ => (ih s' _ m).trans hs'

/-- Links are only ever put somewhere else. -/
theorem PlacedIn.addLink (limit : Nat) (h : s.PlacedIn text holds) (n : Nat) {link : Link T}
    (hlink : link.tree.PlacedIn text holds) : (addLink limit s n link).PlacedIn text holds := by
  induction limit generalizing s n link with
  | zero => exact h
  | succ limit ih =>
    rw [Stacks.addLink]
    split
    · exact h
    · split
      · refine h.modify fun hn => ⟨hn.cursor, ?_, hn.extra⟩
        exact List.forall_mem_append.2 ⟨hn.link, List.forall_mem_singleton.2 hlink⟩
      · split
        · split
          · refine h.modify fun hn => ⟨hn.cursor, ?_, hn.extra⟩
            intro l hl
            rcases List.mem_or_eq_of_mem_set hl with hl | rfl
            · exact hn.link l hl
            · exact hlink
          · exact h
        · refine PlacedIn.modify ?_ fun hn => ⟨hn.cursor, hn.link, hn.extra⟩
          exact List.foldlRecOn (motive := fun s' : Stacks T => s'.PlacedIn text holds) _ _ h
            fun s' hs' m hm => ih hs' _ (h.link m hm)

/-- Joining two vertices adds no vertex. -/
theorem size_join (s : Stacks T) (m n : Nat) : (s.join m n).size = s.size :=
  List.foldlRecOn (motive := fun s' : Stacks T => s'.size = s.size) _ _ rfl
    fun s' hs' l _ => (size_addLink s'.size s' m l).trans hs'

/-- Links of one vertex may be given to another. -/
theorem PlacedIn.join (h : s.PlacedIn text holds) (m n : Nat) : (s.join m n).PlacedIn text holds :=
  List.foldlRecOn (motive := fun s' : Stacks T => s'.PlacedIn text holds) _ _ h
    fun s' hs' l hl => hs'.addLink s'.size m (h.link l hl)

end Stacks

/-- The parts that are met on a way down are placed in the text. -/
theorem Descent.Descends.placedIn {s : Stacks T} (h : s.PlacedIn text holds) {marks : List Mark}
    {d d' : Descent T} (hdescends : Descends s marks d d') (hd : ∀ p ∈ d.parts, p.2.PlacedIn text holds) :
    ∀ p ∈ d'.parts, p.2.PlacedIn text holds := by
  induction hdescends with
  | here => exact hd
  | @link d d' marks mark l mem rest ih =>
    refine ih (List.forall_mem_cons.2 ⟨h.link l mem, ?_⟩)
    intro p hp
    rcases List.mem_append.1 hp with hp | hp
    · obtain ⟨e, he, rfl⟩ := List.mem_map.1 hp
      split at he
      · contradiction
      · exact h.extra e he
    · exact hd p hp

end

/-! ## Readings -/

/-- A head is on top of a vertex, and if it is stuck then at a place of the text. -/
structure Head.PlacedIn {T S : Type} (text : List Char) (s : Stacks T) (h : Head S) : Prop where
  /-- The vertex on top is there. -/
  vertex : h.vertex < s.size
  /-- It is stuck at a place of the text. -/
  stuck : ∀ here, h.status = .stuck here → StandsAt text here []

/-- A head stays placed in the text while vertices are added. -/
theorem Head.PlacedIn.mono {T S : Type} {text : List Char} {s s' : Stacks T} {h : Head S}
    (hh : h.PlacedIn text s) (hs : s.size ≤ s'.size) : h.PlacedIn text s' :=
  ⟨Nat.lt_of_lt_of_le hh.vertex hs, hh.stuck⟩

/-- A head that is running may be put on a new vertex. -/
theorem Head.placedIn_push {T S : Type} {text : List Char} (s : Stacks T) (mode : S) (x : Vertex T) :
    Head.PlacedIn text (s.push x) (⟨s.size, mode, .running⟩ : Head S) :=
  ⟨by simp, fun _ h => nomatch h⟩

/-- A lexer that is given a cursor in the text finds tokens of the text, or fails at a place of it. -/
structure Lexer.StaysIn {T S : Type} (text : List Char) (holds : Token T → Prop)
    (lexer : Lexer T S) : Prop where
  /-- A token stands at a place of the text, and so does what is behind it. -/
  found : ∀ {accepts mode cursor lexeme}, lexer accepts mode cursor = .ok lexeme → cursor.IsIn text →
    StandsAt text lexeme.token.start lexeme.token.text ∧ lexeme.after.IsIn text
  /-- The tokens of the text have the property. -/
  token : ∀ {accepts mode cursor lexeme}, lexer accepts mode cursor = .ok lexeme → cursor.IsIn text →
    holds lexeme.token
  /-- Where there is no token, this is a place of the text. -/
  failed : ∀ {accepts mode cursor here}, lexer accepts mode cursor = .error here → cursor.IsIn text →
    StandsAt text here []

namespace Readings

section

variable {T S : Type} (text : List Char) (holds : Token T → Prop)

/-- The stacks, the heads and the best of the finished readings are placed in the text. -/
structure PlacedIn (r : Readings T S) : Prop where
  /-- The stacks are. -/
  shared : r.shared.PlacedIn text holds
  /-- The heads are. -/
  head : ∀ h ∈ r.heads, h.PlacedIn text r.shared
  /-- The best of the finished readings is. -/
  best : ∀ d, r.best = some d → d.PlacedIn text holds

end

variable {T S : Type} {text : List Char} {holds : Token T → Prop} {r : Readings T S}

/-- The status of a head may change, if a place where it gets stuck is one of the text. -/
theorem PlacedIn.mark (h : r.PlacedIn text holds) (i : Nat) {status : Status}
    (hstatus : ∀ here, status = .stuck here → StandsAt text here []) :
    (r.mark i status).PlacedIn text holds := by
  refine ⟨h.shared, ?_, h.best⟩
  intro a ha
  obtain ⟨n, hn⟩ := List.getElem?_of_mem ha
  rw [Readings.mark, List.getElem?_modify] at hn
  obtain ⟨b, hb, rfl⟩ := Option.map_eq_some_iff.1 hn
  have hplaced := h.head b (List.mem_of_getElem? hb)
  split
  · exact ⟨hplaced.vertex, hstatus⟩
  · exact hplaced

/-- All heads stay placed in the text when a vertex is added. -/
theorem PlacedIn.pushed (h : r.PlacedIn text holds) (x : Vertex T) :
    ∀ a ∈ r.heads, a.PlacedIn text (r.shared.push x) :=
  fun a ha => (h.head a ha).mono (by simp)

/-- A head may move to a new vertex that is placed in the text. -/
theorem PlacedIn.advanceTo (h : r.PlacedIn text holds) (i : Nat) (mode : S) {x : Vertex T}
    (hx : x.PlacedIn text holds) : (r.advanceTo i mode x).PlacedIn text holds := by
  refine ⟨h.shared.push hx, ?_, h.best⟩
  intro a ha
  rcases List.mem_or_eq_of_mem_set ha with ha | rfl
  · exact h.pushed x a ha
  · exact Head.placedIn_push r.shared mode x

/-- A head may take the place of another one. -/
theorem PlacedIn.replace (h : r.PlacedIn text holds) (i j : Nat) {new : Head S} (hnew : new ∈ r.heads) :
    (r.replace i j new).PlacedIn text holds := by
  refine ⟨h.shared, ?_, h.best⟩
  intro a ha
  rcases List.mem_or_eq_of_mem_set ha with ha | rfl
  · exact h.head a (List.mem_of_mem_eraseIdx ha)
  · exact h.head a hnew

/-- A reading with a vertex of the text on top may be finished. -/
theorem PlacedIn.accept (h : r.PlacedIn text holds) {top : Vertex T} (htop : top.PlacedIn text holds) :
    (r.accept top).PlacedIn text holds := by
  refine List.foldlRecOn (motive := fun r' : Readings T S => r'.PlacedIn text holds) _ _ h ?_
  intro r' hr' l hl
  have hextras {ds : List (Derivation T)} (hds : ∀ d ∈ ds, d.PlacedIn text holds) :
      ∀ p ∈ ds.map fun d => (({} : Mark), d), p.2.PlacedIn text holds := by
    intro p hp
    obtain ⟨d, hd, rfl⟩ := List.mem_map.1 hp
    exact hds d hd
  have hbest (d : Derivation T) (hd : d.PlacedIn text holds) :
      PlacedIn text holds { r' with best := some d } :=
    ⟨hr'.shared, hr'.head, fun _ heq => Option.some.inj heq ▸ hd⟩
  have hwhole : (Derivation.phrase l.tree.symbol l.tree.weight .start top.cursor.position
      (((r'.shared.vertex l.below).extras.map fun d => (({} : Mark), d)) ++ l.tree.parts ++
        top.extras.map fun d => (({} : Mark), d))).PlacedIn text holds :=
    .phrase standsAt_start (List.forall_mem_append.2 ⟨List.forall_mem_append.2
      ⟨hextras hr'.shared.extra, (htop.link l hl).placedIn_parts⟩, hextras htop.extra⟩)
  dsimp only
  split
  · split
    · exact hbest _ hwhole
    · exact hr'
  · exact hbest _ hwhole

variable [DecidableEq S]

/-- A head may be added, and no vertex is lost by it. -/
theorem PlacedIn.addHead (h : r.PlacedIn text holds) (self : Nat) {new : Head S}
    (hnew : new.PlacedIn text r.shared) :
    (addHead self new r).PlacedIn text holds ∧ (addHead self new r).shared.size = r.shared.size := by
  obtain ⟨shared, heads, best⟩ := r
  rw [Readings.addHead]
  split
  · next other i _ =>
    have hsize := Stacks.size_join shared other.vertex new.vertex
    exact ⟨⟨h.shared.join _ _, fun a ha => (h.head a ha).mono (Nat.le_of_eq hsize.symm), h.best⟩, hsize⟩
  · have hheads := List.forall_mem_append.2 ⟨h.head, List.forall_mem_singleton.2 hnew⟩
    exact ⟨⟨h.shared, hheads, h.best⟩, rfl⟩

/-- A head on top of a new vertex may be added, and no vertex is lost by it. -/
theorem PlacedIn.addVertex (h : r.PlacedIn text holds) (self : Nat) (mode : S) {x : Vertex T}
    (hx : x.PlacedIn text holds) : (addVertex self mode x r).PlacedIn text holds ∧
      r.shared.size ≤ (addVertex self mode x r).shared.size := by
  have hpushed : PlacedIn text holds ⟨r.shared.push x, r.heads, r.best⟩ :=
    ⟨h.shared.push hx, h.pushed x, h.best⟩
  obtain ⟨hplaced, hsize⟩ := hpushed.addHead self (Head.placedIn_push r.shared mode x)
  refine ⟨hplaced, ?_⟩
  rw [Readings.addVertex, hsize, Array.size_push]
  exact Nat.le_succ _

/-- Putting a head among others. -/
theorem insert_placedIn {shared : Stacks T} (hshared : shared.PlacedIn text holds) {new : Head S}
    {heads : List (Head S)} (hheads : ∀ a ∈ new :: heads, a.PlacedIn text shared) :
    (insert shared new heads).1.PlacedIn text holds ∧ (insert shared new heads).1.size = shared.size ∧
      ∀ a ∈ (insert shared new heads).2, a.PlacedIn text shared := by
  induction heads generalizing new with
  | nil => exact ⟨hshared, rfl, hheads⟩
  | cons a heads ih =>
    obtain ⟨hnew, hrest⟩ := List.forall_mem_cons.1 hheads
    obtain ⟨ha, hlater⟩ := List.forall_mem_cons.1 hrest
    rw [Readings.insert]
    split
    · exact ⟨hshared, rfl, hrest⟩
    · split
      · exact ih (List.forall_mem_cons.2 ⟨hnew, hlater⟩)
      · split
        · exact ⟨hshared.join _ _, Stacks.size_join _ _ _, hrest⟩
        · generalize hordered : (if (shared.vertex a.vertex).weight < (shared.vertex new.vertex).weight
            then (new, a) else (a, new)) = ordered
          obtain ⟨first, later⟩ := ordered
          have hboth : first.PlacedIn text shared ∧ later.PlacedIn text shared := by
            split at hordered
            · cases hordered
              exact ⟨hnew, ha⟩
            · cases hordered
              exact ⟨ha, hnew⟩
          obtain ⟨hplaced, hsize, hheads⟩ := ih (List.forall_mem_cons.2 ⟨hboth.2, hlater⟩)
          exact ⟨hplaced, hsize, List.forall_mem_cons.2 ⟨hboth.1, hheads⟩⟩

/-- Dropping, joining and ordering heads keeps all of them placed in the text. -/
theorem PlacedIn.condense (h : r.PlacedIn text holds) : r.condense.PlacedIn text holds := by
  obtain ⟨shared, heads, best⟩ := r
  have hfold (todo : List (Head S)) (htodo : ∀ a ∈ todo, a.PlacedIn text shared) (shared' : Stacks T)
      (hshared : shared'.PlacedIn text holds) (hsize : shared'.size = shared.size) (done : List (Head S))
      (hdone : ∀ a ∈ done, a.PlacedIn text shared') :
      let result := todo.foldl (fun p a => insert p.1 a p.2) (shared', done)
      result.1.PlacedIn text holds ∧ ∀ a ∈ result.2, a.PlacedIn text result.1 := by
    induction todo generalizing shared' done with
    | nil => exact ⟨hshared, hdone⟩
    | cons a todo ih =>
      have ha := (htodo a (.head _)).mono (Nat.le_of_eq hsize.symm)
      obtain ⟨hplaced, hsize', hheads⟩ := insert_placedIn hshared (List.forall_mem_cons.2 ⟨ha, hdone⟩)
      exact ih (fun b hb => htodo b (.tail _ hb)) _ hplaced (hsize'.trans hsize) _
        fun b hb => (hheads b hb).mono (Nat.le_of_eq hsize'.symm)
  obtain ⟨hplaced, hheads⟩ := hfold (heads.filter (·.status != .finished))
    (fun a ha => h.head a (List.mem_filter.1 ha).1) shared h.shared rfl []
    fun a ha => absurd ha List.not_mem_nil
  exact ⟨hplaced, fun a ha => hheads a (List.mem_of_mem_take ha), h.best⟩

/-- What was read below a vertex is placed in the text. -/
theorem placedIn_trail {shared : Stacks T} (h : shared.PlacedIn text holds) (limit n : Nat)
    {later : List (Derivation T)} (hlater : ∀ d ∈ later, d.PlacedIn text holds) :
    ∀ d ∈ trail shared limit n later, d.PlacedIn text holds := by
  induction limit generalizing n later with
  | zero => exact hlater
  | succ limit ih =>
    have hextras := List.forall_mem_append.2 ⟨h.extra (n := n), hlater⟩
    rw [trail]
    split
    · exact hextras
    · next l links hlinks =>
      have hmem : l ∈ (shared.vertex n).links := by
        rw [hlinks]
        exact .head _
      exact ih _ (List.forall_mem_cons.2 ⟨h.link l hmem, hextras⟩)

/-! ## Tokens -/

variable [BEq T] [Hashable T] (table : Table T)

/-- A phrase is closed at the cursor of the vertex on top. -/
theorem PlacedIn.reduce (h : r.PlacedIn text holds) (self : Nat) {head : Head S}
    (hhead : head.vertex < r.shared.size) (red : Reduction) :
    (r.reduce table self head red).PlacedIn text holds ∧
      r.shared.size ≤ (r.reduce table self head red).shared.size := by
  -- the vertex on top is that of the readings before any phrase was closed
  have htop := h.shared _ hhead
  refine List.foldlRecOn (motive := fun r' : Readings T S =>
    r'.PlacedIn text holds ∧ r.shared.size ≤ r'.shared.size) _ _ ⟨h, Nat.le_refl _⟩ ?_
  rintro r' ⟨hr', hsize⟩ ⟨bottom, ways⟩ hways
  dsimp only
  split
  · exact ⟨hr', hsize⟩
  · next first others htrees =>
    have hmem := Derivation.mem_of_foldl_beats first others
    rw [← htrees] at hmem
    obtain ⟨d, hd, heq⟩ := List.mem_map.1 hmem
    have hparts := (Descent.descends_of_mem_all (Descent.mem_of_mem_grouped hways hd).1).placedIn h.shared
      fun p hp => absurd hp List.not_mem_nil
    refine And.imp id (Nat.le_trans hsize) (hr'.addVertex self head.mode ⟨htop.cursor, ?_, ?_⟩)
    · rw [← heq]
      exact List.forall_mem_singleton.2 (Derivation.placedIn_close htop.cursor.place hparts _ _)
    · intro e he
      split at he
      · contradiction
      · exact htop.extra e he

/-- Closing several phrases one after the other, each on top of the same vertex. -/
theorem PlacedIn.reduceAll (h : r.PlacedIn text holds) (self : Nat) {head : Head S}
    (hhead : head.vertex < r.shared.size) (reductions : List Reduction) (last : Option Nat) :
    (reductions.foldl (fun (r, last) red =>
      let count := r.heads.length
      let r := r.reduce table self head red
      (r, if count < r.heads.length then some count else last)) (r, last)).1.PlacedIn text holds := by
  induction reductions generalizing r last with
  | nil => exact h
  | cons red reductions ih =>
    obtain ⟨hreduced, hsize⟩ := h.reduce table self hhead red
    exact ih hreduced (Nat.lt_of_lt_of_le hhead hsize) _

/-- Offering a token of the text to a head. -/
theorem PlacedIn.feed {lexeme : Lexeme T S}
    (htoken : StandsAt text lexeme.token.start lexeme.token.text) (hholds : holds lexeme.token)
    (hafter : lexeme.after.IsIn text) (limit : Nat) (h : r.PlacedIn text holds) (i : Nat) :
    (feed table lexeme limit r i).PlacedIn text holds := by
  have hstuck {r : Readings T S} (h : r.PlacedIn text holds) :
      (r.mark i (.stuck lexeme.token.start)).PlacedIn text holds := by
    refine h.mark i fun here hhere => ?_
    cases hhere
    exact htoken.place
  induction limit generalizing r with
  | zero => exact hstuck h
  | succ limit ih =>
    rw [Readings.feed]
    split
    · exact h
    · next head hhead =>
      have hvertex := (h.head head (List.mem_of_getElem? hhead)).vertex
      have htop := h.shared _ hvertex
      have hleaf (symbol : Nat) :
          (Derivation.leaf symbol lexeme.token lexeme.after.position).PlacedIn text holds :=
        .leaf htoken hholds
      dsimp only
      split
      · -- an extra token is put on a copy of the vertex, with the cursor behind the token
        refine h.advanceTo i _ ⟨hafter, htop.link, ?_⟩
        exact List.forall_mem_append.2 ⟨htop.extra, List.forall_mem_singleton.2 (hleaf _)⟩
      · have hreduced := h.reduceAll table i hvertex
          (table.moves (r.shared.vertex head.vertex).state lexeme.token.terminal).reductions none
        generalize (List.foldl _ (r, none) _ : Readings T S × Option Nat) = result at hreduced ⊢
        obtain ⟨r', last⟩ := result
        dsimp only
        split
        · refine hreduced.advanceTo i _ ⟨hafter, ?_, by simp⟩
          exact List.forall_mem_singleton.2 (hleaf _)
        · split
          · exact (hreduced.accept htop).mark i fun here hhere => by contradiction
          · split
            · next j new hnew =>
              obtain ⟨k, -, hk⟩ := Option.bind_eq_some_iff.1 hnew
              obtain ⟨a, ha, heq⟩ := Option.map_eq_some_iff.1 hk
              cases heq
              exact ih (hreduced.replace i j (List.mem_of_getElem? ha))
            · exact hstuck hreduced

variable {lexer : Lexer T S}

/-- Reading one token on a head keeps everything placed in the text. -/
theorem PlacedIn.advance (hlexer : Lexer.StaysIn text holds lexer) (limit : Nat)
    (h : r.PlacedIn text holds) (i : Nat) : (r.advance table lexer limit i).PlacedIn text holds := by
  rw [Readings.advance]
  split
  · exact h
  · next head hhead =>
    have hcursor := (h.shared _ (h.head head (List.mem_of_getElem? hhead)).vertex).cursor
    dsimp only
    split
    · next here hfailed =>
      refine h.mark i fun p hp => ?_
      cases hp
      exact hlexer.failed hfailed hcursor
    · next lexeme hfound =>
      obtain ⟨htoken, hafter⟩ := hlexer.found hfound hcursor
      exact h.feed table htoken (hlexer.token hfound hcursor) hafter limit i

/-- A head that catches up keeps everything placed in the text. -/
theorem PlacedIn.chase (hlexer : Lexer.StaysIn text holds lexer) (i limit : Nat) (h : r.PlacedIn text holds)
    (reached : Nat) : (chase table lexer i limit r reached).1.PlacedIn text holds := by
  induction limit generalizing r with
  | zero => exact h
  | succ limit ih =>
    rw [Readings.chase]
    split
    · have hadvance := h.advance table hlexer limit i
      dsimp only
      split
      · exact hadvance
      · exact ih hadvance
    · exact h

/-- Letting all heads catch up keeps everything placed in the text. -/
theorem PlacedIn.sweep (hlexer : Lexer.StaysIn text holds lexer) (limit : Nat) (h : r.PlacedIn text holds)
    (i reached : Nat) : (sweep table lexer limit r i reached).1.PlacedIn text holds := by
  induction limit generalizing r i reached with
  | zero => exact h
  | succ limit ih =>
    rw [Readings.sweep]
    split
    · exact ih (h.chase table hlexer i (limit + 1) reached) _ _
    · exact h

end Readings

/-- What reading a text gives is placed in the text. -/
inductive Outcome.PlacedIn {T : Type} (text : List Char) (holds : Token T → Prop) : Outcome T → Prop where
  | accepted {tree : Derivation T} (whole : tree.PlacedIn text holds) : PlacedIn text holds (.accepted tree)
  | rejected {trail : List (Derivation T)} {here : Position} (pieces : ∀ d ∈ trail, d.PlacedIn text holds)
      (place : StandsAt text here []) : PlacedIn text holds (.rejected trail here)

section

variable {T S : Type} [BEq T] [Hashable T] [DecidableEq S] {text : List Char}
  {holds : Token T → Prop} {table : Table T} {lexer : Lexer T S}

/-- Reading on to the end gives an outcome that is placed in the text. By induction on the bound, with a
sweep and an ordering of the heads as the step. -/
theorem Readings.PlacedIn.run (hlexer : Lexer.StaysIn text holds lexer) (limit : Nat) {r : Readings T S}
    (h : r.PlacedIn text holds) (reached : Nat) : (r.run table lexer limit reached).PlacedIn text holds := by
  have hnothing : Outcome.PlacedIn text holds (.rejected ([] : List (Derivation T)) .start) :=
    .rejected (fun d hd => absurd hd List.not_mem_nil) standsAt_start
  induction limit generalizing r reached with
  | zero => exact hnothing
  | succ limit ih =>
    have hcondense := (h.sweep table hlexer (limit + 1) 0 reached).condense
    rw [Readings.run]
    dsimp only
    split
    · exact ih hcondense _
    · split
      · next hbest => exact .accepted (hcondense.best _ hbest)
      · next vertex mode here rest _ hheads =>
        refine .rejected (Readings.placedIn_trail hcondense.shared _ _ ?_) ?_
        · exact fun d hd => absurd hd List.not_mem_nil
        · refine (hcondense.head ⟨vertex, mode, .stuck here⟩ ?_).stuck here rfl
          rw [hheads]
          exact .head _
      · exact hnothing

/-- Reading from a cursor in the text stays in the text, whatever the table is. -/
theorem Table.read_placedIn (hlexer : Lexer.StaysIn text holds lexer) (mode : S) {cursor : Cursor}
    (hcursor : cursor.IsIn text) : (table.read lexer mode cursor).PlacedIn text holds := by
  refine Readings.PlacedIn.run hlexer _ ⟨?_, ?_, ?_⟩ _
  · intro n hn
    have hn : n = 0 := Nat.lt_one_iff.1 hn
    subst hn
    exact ⟨hcursor, by simp [Stacks.vertex], by simp [Stacks.vertex]⟩
  · exact List.forall_mem_singleton.2 ⟨Nat.one_pos, fun here hhere => by contradiction⟩
  · exact fun d hd => by contradiction

end

end Grammar

/-! ## Trees -/

/-- Every node of a tree starts at a place of the text, and its characters stand there. -/
def SyntaxTree.PlacedIn (text : List Char) (t : SyntaxTree) : Prop :=
  ∀ u : SyntaxTree, u.Within t → StandsAt text u.start u.text.toList

namespace Python

open Grammar (Derivation Lexer Mark Outcome Table Token)

variable {text : List Char}

/-- A word stands at a place of a text, and no longer word starts there. -/
def IdentifierAt (text : List Char) (p : Position) (cs : List Char) : Prop :=
  ∃ before after, text = before ++ cs ++ after ∧ p = Position.start.pastAll before ∧ isWord cs = true ∧
    ∀ longer, isWord longer = true → longer <+: cs ++ after → longer.length ≤ cs.length

/-- The word at a cursor is an identifier of the text. -/
theorem identifierAt_cursor {c : Cursor} (hc : c.IsIn text) (h : Text.identifierLength c.rest ≠ 0) :
    IdentifierAt text c.position (c.take (Text.identifierLength c.rest)) := by
  obtain ⟨before, hbefore, hposition⟩ := hc
  have hrest := c.take_append_rest (Text.identifierLength c.rest)
  refine ⟨before, (c.skip (Text.identifierLength c.rest)).rest, ?_, hposition, isWord_take h, ?_⟩
  · rw [List.append_assoc, hrest, hbefore]
  · intro longer hword hprefix
    rw [hrest] at hprefix
    have hlength : (c.take (Text.identifierLength c.rest)).length = Text.identifierLength c.rest :=
      List.length_take_of_le (Text.identifierLength_le c.rest)
    rw [hlength, ← identifierLength_of_isWord hword]
    exact Text.identifierLength_le_of_prefix hprefix

/-- A token that is a word is all of the word that stands at its place. -/
def WholeWord (text : List Char) (token : Token Terminal) : Prop :=
  token.terminal.isWord = true → IdentifierAt text token.start token.text

/-- The lexer of Python finds tokens that stand in the text, and words that do not go on. -/
theorem lexer_staysIn : Lexer.StaysIn text (WholeWord text) lexer where
  found {accepts mode cursor lexeme} h hcursor := by
    unfold lexer at h
    split at h
    · contradiction
    · next f _ =>
      cases h
      exact ⟨(hcursor.skip f.skipped).standsAt f.length, (hcursor.skip f.skipped).skip f.length⟩
  token {accepts mode cursor lexeme} h hcursor hword := by
    obtain ⟨skipped, hne, hstart, htext⟩ := lexer_word h hword
    rw [hstart, htext]
    exact identifierAt_cursor (hcursor.skip skipped) hne
  failed {accepts mode cursor here} h hcursor := by
    unfold lexer at h
    split at h
    · cases h
      exact (hcursor.skip _).place
    · contradiction

/-- Reading a source starts at its start, behind a byte order mark if there is one. -/
theorem startOf_isIn (source : String) : (startOf source).IsIn source.toList := by
  have hstart : (Cursor.ofString source).IsIn source.toList := ⟨[], rfl, rfl⟩
  rw [startOf]
  split
  · exact hstart.skip 1
  · exact hstart

/-- A node is placed in the text if its characters stand at its start and its children are placed. -/
theorem placedIn_node {kind : Kind} {role : Option Role} {start : Position} {characters : String}
    {children : List SyntaxTree} (hstart : StandsAt text start characters.toList)
    (hchildren : ∀ c ∈ children, c.PlacedIn text) :
    (SyntaxTree.node kind role start characters children).PlacedIn text := by
  intro u hu
  rcases SyntaxTree.within_iff.1 hu with rfl | ⟨c, hc, hu⟩
  · exact hstart
  · exact hchildren c hc u hu

variable {holds : Token Terminal → Prop}

/-- Being placed in the text passes from a phrase to its parts. -/
theorem passesOn_placedIn (n : Nat) : PassesOn n fun _ d => d.PlacedIn text holds where
  part h := h.placedIn_parts
  hidden h _ := h.placedIn_parts

/-- The pieces that an outcome is shown by are placed in the text. -/
theorem placedIn_pieces {outcome : Outcome Terminal} (h : outcome.PlacedIn text holds) :
    ∀ p ∈ pieces outcome, p.2.PlacedIn text holds := by
  cases h with
  | accepted whole => exact whole.placedIn_parts
  | rejected read =>
    intro p hp
    obtain ⟨d, hd, rfl⟩ := List.mem_map.1 hp
    exact read d hd

/-- What a derivation is shown as is placed where the derivation is. -/
theorem standsAt_of_shownAs {n : Nat} {mark : Mark} {d : Derivation Terminal} {u : SyntaxTree}
    (hu : ShownAs n mark d u) (hd : d.PlacedIn text holds) : StandsAt text u.start u.text.toList := by
  cases hu with
  | token =>
    cases hd with
    | leaf stands =>
      rw [SyntaxTree.text, String.toList_ofList]
      exact stands
  | phrase =>
    cases hd with
    | phrase starts => exact starts

/-- Showing several parts keeps everything placed in the text. -/
theorem placedIn_shownAllOnto {n : Nat} {later : List SyntaxTree} (hlater : ∀ t ∈ later, t.PlacedIn text)
    {parts : List (Mark × Derivation Terminal)} (hparts : ∀ p ∈ parts, p.2.PlacedIn text holds) :
    ∀ t ∈ shownAllOnto n none later parts, t.PlacedIn text := by
  intro t ht u hu
  rcases exists_of_within_shownAllOnto (passesOn_placedIn n) hparts ht hu with ⟨_, _, hd, hshown⟩ | ht
  · exact standsAt_of_shownAs hshown hd
  · exact hlater t ht u hu

/-- A text fails where reading got stuck or where a word that was read starts. -/
theorem standsAt_failure {trail : List (Derivation Terminal)} {here : Position}
    (htrail : ∀ d ∈ trail, d.PlacedIn text holds) (hhere : StandsAt text here []) :
    StandsAt text (failure trail here).2 [] := by
  unfold failure
  split
  · next word before rest hreverse =>
    split
    · have hword : word ∈ trail := List.mem_reverse.1 (hreverse ▸ .head _)
      exact (htrail word hword).starts
    · exact hhere
  · exact hhere

/-- The tree of an outcome that is placed in the text is placed in it. -/
theorem placedIn_treeOf (n : Nat) {outcome : Outcome Terminal} (h : outcome.PlacedIn text holds) :
    (treeOf n outcome).PlacedIn text := by
  cases h with
  | accepted whole =>
    exact placedIn_node whole.starts (placedIn_shownAllOnto (by simp) whole.placedIn_parts)
  | @rejected trail here pieces place =>
    have hread : ∀ p ∈ (failure trail here).1.map (({} : Mark), ·), p.2.PlacedIn text holds := by
      intro p hp
      obtain ⟨d, hd, rfl⟩ := List.mem_map.1 hp
      exact pieces d (mem_of_mem_failure hd)
    refine placedIn_node standsAt_start (placedIn_shownAllOnto ?_ hread)
    exact List.forall_mem_singleton.2 (placedIn_node (standsAt_failure pieces place) (by simp))

/-- What is read of a text is placed in it, and the words among its tokens are whole words. -/
theorem read_placedIn (source : String) : (table.read lexer .start (startOf source)).PlacedIn
    source.toList (WholeWord source.toList) :=
  Table.read_placedIn lexer_staysIn .start (startOf_isIn source)

/-- In the tree of every text the nodes start at places of the text, where their characters stand. -/
theorem syntaxTree_placedIn (source : String) : (syntaxTree source).PlacedIn source.toList :=
  placedIn_treeOf _ (read_placedIn source)

end Python

end BareCallGraph
