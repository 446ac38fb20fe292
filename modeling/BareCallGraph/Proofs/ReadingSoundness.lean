import BareCallGraph.Grammar.Reader
import BareCallGraph.Proofs.StackLinks

/-!
# What is read follows the grammar

A reader with a table that tracks a grammar keeps its stacks sound, whatever the lexer says: each of its
operations turns sound readings into sound ones that keep all vertices (`Readings.Becomes`). So the
derivation of an accepted text is one of the grammar, from its start on, and where a text is rejected,
what was read until then follows the grammar too (`Table.read_sound`).

Nothing is said of which text is accepted: a table may lack moves, and the reader may give up on readings
that would have led somewhere.
-/

namespace BareCallGraph.Grammar

namespace Readings

variable {T S N : Type} [BEq T] [BEq N] (g : Definition T N) (v : Vocabulary T)
  (holds : Nat → Item → Prop)

/-- The stacks of all readings are sound, each reading has a vertex on top, and the best of the finished
ones is a derivation of the grammar. -/
structure Sound (r : Readings T S) : Prop where
  /-- The stacks are sound. -/
  shared : r.shared.Sound g v holds
  /-- The vertex on top is there. -/
  head : ∀ h ∈ r.heads, h.vertex < r.shared.size
  /-- A finished reading is of a whole text. -/
  best : ∀ d, r.best = some d → DerivesWhole g v d

/-- Readings become sound readings that keep the vertices. -/
structure Becomes (r r' : Readings T S) : Prop where
  /-- The new readings are sound. -/
  sound : r'.Sound g v holds
  /-- They keep the vertices of the old ones. -/
  keeps : r.shared.Keeps r'.shared

variable {g v holds} {r r' : Readings T S}

/-- Sound readings become themselves. -/
theorem Sound.becomes (h : r.Sound g v holds) : r.Becomes g v holds r := ⟨h, .refl _⟩

/-- What readings become by two steps they become. -/
theorem Becomes.trans {r'' : Readings T S} (h : r.Becomes g v holds r')
    (h' : r'.Becomes g v holds r'') : r.Becomes g v holds r'' := ⟨h'.sound, h.keeps.trans h'.keeps⟩

/-- What every step of a run keeps sound, the run keeps sound. -/
theorem Sound.foldl {α : Type} {step : Readings T S → α → Readings T S} {xs : List α}
    (h : r.Sound g v holds)
    (hstep : ∀ r' x, x ∈ xs → r.Becomes g v holds r' → r'.Becomes g v holds (step r' x)) :
    r.Becomes g v holds (xs.foldl step r) := by
  have hfold (ys : List α) (r' : Readings T S) (hys : ∀ y ∈ ys, y ∈ xs)
      (h' : r.Becomes g v holds r') : r.Becomes g v holds (ys.foldl step r') := by
    induction ys generalizing r' with
    | nil => exact h'
    | cons y ys ih =>
      exact ih _ (fun z hz => hys z (.tail _ hz)) (h'.trans (hstep r' y (hys y (.head _)) h'))
  exact hfold xs r (fun _ hx => hx) h.becomes

/-- Stacks that become others may take new heads, if these are on top of vertices. -/
theorem Sound.update (h : r.Sound g v holds) {shared : Stacks T} {heads : List (Head S)}
    (hshared : r.shared.Becomes g v holds shared) (hheads : ∀ a ∈ heads, a.vertex < shared.size) :
    r.Becomes g v holds ⟨shared, heads, r.best⟩ :=
  ⟨⟨hshared.sound, hheads, h.best⟩, hshared.keeps⟩

/-! ## Heads -/

/-- Readings stay sound when the status of a head changes. -/
theorem Sound.mark (h : r.Sound g v holds) (i : Nat) (status : Status) :
    r.Becomes g v holds (r.mark i status) := by
  refine h.update h.shared.becomes ?_
  intro a ha
  obtain ⟨n, hn⟩ := List.getElem?_of_mem ha
  rw [List.getElem?_modify] at hn
  obtain ⟨b, hb, rfl⟩ := Option.map_eq_some_iff.1 hn
  have hvertex := h.head b (List.mem_of_getElem? hb)
  split <;> exact hvertex

/-- Readings stay sound when a head moves to a new vertex that fits. -/
theorem Sound.advanceTo (h : r.Sound g v holds) (i : Nat) (mode : S) {x : Vertex T}
    (hlinks : ∀ l ∈ x.links, r.shared.Fitting g v holds x.state l)
    (hextras : ∀ d ∈ x.extras, d.IsExtra v) : r.Becomes g v holds (r.advanceTo i mode x) := by
  have hpush := h.shared.push hlinks hextras
  refine h.update hpush ?_
  intro a ha
  rcases List.mem_or_eq_of_mem_set ha with ha | rfl
  · exact Nat.lt_of_lt_of_le (h.head a ha) hpush.keeps.size
  · simp

/-- Readings stay sound when one of their heads takes the place of another. -/
theorem Sound.replace (h : r.Sound g v holds) (i j : Nat) {new : Head S} (hnew : new ∈ r.heads) :
    r.Becomes g v holds (r.replace i j new) := by
  refine h.update h.shared.becomes ?_
  intro a ha
  rcases List.mem_or_eq_of_mem_set ha with ha | rfl
  · exact h.head a (List.mem_of_mem_eraseIdx ha)
  · exact h.head a hnew

/-- Finishing a reading of a whole text. -/
theorem Sound.accept (h : r.Sound g v holds) {top : Vertex T}
    (hlinks : ∀ l ∈ top.links, DerivesWhole g v l.tree) (hextras : ∀ d ∈ top.extras, d.IsExtra v) :
    r.Becomes g v holds (r.accept top) := by
  refine h.foldl ?_
  intro r' l hl hr'
  have hbest (d : Derivation T) (hd : DerivesWhole g v d) :
      r'.Becomes g v holds { r' with best := some d } :=
    ⟨⟨hr'.sound.shared, hr'.sound.head, fun _ heq => Option.some.inj heq ▸ hd⟩, .refl _⟩
  have hbelow : ∀ d ∈ (r'.shared.vertex l.below).extras, d.IsExtra v :=
    fun d hd => hr'.sound.shared.extra hd
  have hwhole := (hlinks l hl).surround hbelow hextras .start top.cursor.position
  dsimp only
  split
  · split
    · exact hbest _ hwhole
    · exact hr'.sound.becomes
  · exact hbest _ hwhole

variable [DecidableEq S]

omit [BEq T] in
/-- Heads that can be joined are in one state. -/
theorem state_eq_of_joinable {shared : Stacks T} {a b : Head S} (h : joinable shared a b = true) :
    (shared.vertex a.vertex).state = (shared.vertex b.vertex).state := by
  simp only [joinable, Bool.and_eq_true] at h
  exact Stacks.state_eq_of_alike h.1.2

/-- A head on top of a vertex may be added. -/
theorem Sound.addHead (h : r.Sound g v holds) (self : Nat) {new : Head S}
    (hnew : new.vertex < r.shared.size) : r.Becomes g v holds (addHead self new r) := by
  obtain ⟨shared, heads, best⟩ := r
  simp only [Readings.addHead]
  split
  · next other i hfind =>
    have hjoinable := List.find?_some hfind
    have hother : other ∈ heads :=
      List.mem_of_getElem? (List.mem_zipIdx_iff_getElem?.1 (List.mem_of_find?_eq_some hfind))
    rw [Bool.and_eq_true] at hjoinable
    have hjoin := h.shared.join (h.head other hother) (state_eq_of_joinable hjoinable.2)
    exact h.update hjoin fun a ha => Nat.lt_of_lt_of_le (h.head a ha) hjoin.keeps.size
  · refine h.update h.shared.becomes ?_
    intro a ha
    rcases List.mem_append.1 ha with ha | ha
    · exact h.head a ha
    · rwa [List.mem_singleton.1 ha]

/-- Readings stay sound when a head is added on top of a new vertex that fits. -/
theorem Sound.addVertex (h : r.Sound g v holds) (self : Nat) (mode : S) {x : Vertex T}
    (hlinks : ∀ l ∈ x.links, r.shared.Fitting g v holds x.state l)
    (hextras : ∀ d ∈ x.extras, d.IsExtra v) : r.Becomes g v holds (addVertex self mode x r) := by
  have hpush := h.shared.push hlinks hextras
  have hpushed := h.update hpush fun a ha => Nat.lt_of_lt_of_le (h.head a ha) hpush.keeps.size
  refine hpushed.trans (hpushed.sound.addHead self ?_)
  simp

/-- Heads are on top of vertices. -/
def OnTop (shared : Stacks T) (heads : List (Head S)) : Prop := ∀ a ∈ heads, a.vertex < shared.size

/-- Putting a head among others. -/
theorem insert_becomes {shared : Stacks T} (hshared : shared.Sound g v holds) {new : Head S}
    {heads : List (Head S)} (hheads : OnTop shared (new :: heads)) :
    shared.Becomes g v holds (insert shared new heads).1 ∧
      OnTop (insert shared new heads).1 (insert shared new heads).2 := by
  induction heads generalizing new with
  | nil => exact ⟨hshared.becomes, hheads⟩
  | cons a heads ih =>
    obtain ⟨hnew, ha, hrest⟩ : new.vertex < shared.size ∧ a.vertex < shared.size ∧ OnTop shared heads :=
      ⟨hheads _ (.head _), hheads _ (.tail _ (.head _)), fun b hb => hheads b (.tail _ (.tail _ hb))⟩
    rw [Readings.insert]
    split
    · exact ⟨hshared.becomes, fun b hb => hheads b (.tail _ hb)⟩
    · split
      · exact ih (List.forall_mem_cons.2 ⟨hnew, hrest⟩)
      · split
        · next hjoinable =>
          have hjoin := hshared.join ha (state_eq_of_joinable hjoinable)
          exact ⟨hjoin, fun b hb => Nat.lt_of_lt_of_le (hheads b (.tail _ hb)) hjoin.keeps.size⟩
        · generalize hordered : (if (shared.vertex a.vertex).weight < (shared.vertex new.vertex).weight
            then (new, a) else (a, new)) = ordered
          obtain ⟨first, later⟩ := ordered
          have hboth : first.vertex < shared.size ∧ later.vertex < shared.size := by
            split at hordered
            · cases hordered
              exact ⟨hnew, ha⟩
            · cases hordered
              exact ⟨ha, hnew⟩
          obtain ⟨hbecomes, hontop⟩ := ih (List.forall_mem_cons.2 ⟨hboth.2, hrest⟩)
          refine ⟨hbecomes, List.forall_mem_cons.2 ⟨?_, hontop⟩⟩
          exact Nat.lt_of_lt_of_le hboth.1 hbecomes.keeps.size

/-- Readings stay sound when heads are dropped, joined and ordered. -/
theorem Sound.condense (h : r.Sound g v holds) : r.Becomes g v holds r.condense := by
  obtain ⟨shared, heads, best⟩ := r
  have hfold (todo : List (Head S)) (htodo : OnTop shared todo) (shared' : Stacks T)
      (hshared : shared.Becomes g v holds shared') (done : List (Head S)) (hdone : OnTop shared' done) :
      let result := todo.foldl (fun p a => insert p.1 a p.2) (shared', done)
      shared.Becomes g v holds result.1 ∧ OnTop result.1 result.2 := by
    induction todo generalizing shared' done with
    | nil => exact ⟨hshared, hdone⟩
    | cons a todo ih =>
      have ha := Nat.lt_of_lt_of_le (htodo a (.head _)) hshared.keeps.size
      obtain ⟨hbecomes, hontop⟩ := insert_becomes hshared.sound (List.forall_mem_cons.2 ⟨ha, hdone⟩)
      exact ih (fun b hb => htodo b (.tail _ hb)) _ (hshared.trans hbecomes) _ hontop
  obtain ⟨hbecomes, hontop⟩ := hfold (heads.filter (·.status != .finished))
    (fun a ha => h.head a (List.mem_filter.1 ha).1) shared h.shared.becomes []
    fun a ha => absurd ha List.not_mem_nil
  exact h.update hbecomes fun a ha => hontop a (List.mem_of_mem_take ha)

/-- What was read below a vertex is derived, or is extra. -/
theorem mem_trail {shared : Stacks T} (h : shared.Sound g v holds) (limit n : Nat)
    {later : List (Derivation T)} (hlater : ∀ d ∈ later, Derives g v d ∨ d.IsExtra v) :
    ∀ d ∈ trail shared limit n later, Derives g v d ∨ d.IsExtra v := by
  induction limit generalizing n later with
  | zero => exact hlater
  | succ limit ih =>
    have hextras : ∀ d ∈ (shared.vertex n).extras ++ later, Derives g v d ∨ d.IsExtra v := by
      intro d hd
      rcases List.mem_append.1 hd with hd | hd
      · exact .inr (h.extra hd)
      · exact hlater d hd
    rw [trail]
    split
    · exact hextras
    · next l links hlinks =>
      have hmem : l ∈ (shared.vertex n).links := by
        rw [hlinks]
        exact .head _
      have hl := h.link hmem
      exact ih _ (List.forall_mem_cons.2 ⟨.inl hl.derives, hextras⟩)

/-! ## Phrases -/

variable [Hashable T] {table : Table T}

/-- Closing a phrase that an item has come to the end of. -/
theorem Sound.reduce (ht : Table.Tracks g table holds) (h : r.Sound g v holds) (self : Nat) {head : Head S}
    (hhead : head.vertex < r.shared.size) {red : Reduction}
    (hred : ∃ i, holds (r.shared.vertex head.vertex).state i ∧ i.rest = [] ∧
      i.head ≠ (Table.wholeOf g).head ∧ red = Catalogue.reduction i) :
    r.Becomes g v holds (r.reduce table self head red) := by
  obtain ⟨i, hi, hrest, hwhole, rfl⟩ := hred
  refine h.foldl ?_
  rintro r' ⟨bottom, ways⟩ hways hr'
  dsimp only
  split
  · exact hr'.sound.becomes
  · next first others htrees =>
    have hmem := Derivation.mem_of_foldl_beats first others
    rw [← htrees] at hmem
    obtain ⟨d, hd, heq⟩ := List.mem_map.1 hmem
    obtain ⟨hall, rfl⟩ := Descent.mem_of_mem_grouped hways hd
    have hbottom := h.shared.bottom_lt hhead (Descent.descends_of_mem_all hall)
    have hderives := h.shared.derives_close ht hi hrest hwhole hall i.weight
      (r.shared.vertex head.vertex).cursor.position
    refine hr'.sound.addVertex self head.mode ?_ ?_
    · intro l hl
      rw [List.mem_singleton.1 hl]
      refine ⟨Nat.lt_of_lt_of_le hbottom hr'.keeps.size, ?_, ?_⟩
      · rw [← heq, ht.size]
        exact hderives
      · rw [← heq, ht.size]
        exact ht.goto _ _
    · intro e he
      split at he
      · contradiction
      · exact h.shared.extra he

/-! ## Tokens -/

/-- Closing several phrases one after the other, each on top of the same vertex. -/
theorem Sound.reduceAll (ht : Table.Tracks g table holds) (h : r.Sound g v holds) (self : Nat)
    {head : Head S} (hhead : head.vertex < r.shared.size) {reductions : List Reduction}
    (hreductions : ∀ red ∈ reductions, ∃ i, holds (r.shared.vertex head.vertex).state i ∧
      i.rest = [] ∧ i.head ≠ (Table.wholeOf g).head ∧ red = Catalogue.reduction i)
    (last : Option Nat) :
    r.Becomes g v holds (reductions.foldl (fun (r, last) red =>
      let count := r.heads.length
      let r := r.reduce table self head red
      (r, if count < r.heads.length then some count else last)) (r, last)).1 := by
  induction reductions generalizing r last with
  | nil => exact h.becomes
  | cons red reductions ih =>
    have hreduce := h.reduce ht self hhead (hreductions red (.head _))
    refine hreduce.trans (ih hreduce.sound ?_ ?_ _)
    · exact Nat.lt_of_lt_of_le hhead hreduce.keeps.size
    · rw [hreduce.keeps.state _ hhead]
      exact fun red hred => hreductions red (.tail _ hred)

variable [LawfulBEq T]

/-- Offering a token to a head. -/
theorem Sound.feed (ht : Table.Tracks g table holds) {lexeme : Lexeme T S}
    (htoken : v.isToken lexeme.token) (hextra : lexeme.isExtra = true → v.isExtra lexeme.token)
    (limit : Nat) (h : r.Sound g v holds) (i : Nat) :
    r.Becomes g v holds (feed table lexeme limit r i) := by
  induction limit generalizing r with
  | zero => exact h.mark i _
  | succ limit ih =>
    rw [Readings.feed]
    split
    · exact h.becomes
    · next head hhead =>
      have hvertex := h.head head (List.mem_of_getElem? hhead)
      dsimp only
      split
      · next hmoves =>
        -- an extra token is put on a copy of the vertex
        rw [Bool.and_eq_true] at hmoves
        refine h.advanceTo i _ (fun l hl => h.shared.link hl) ?_
        intro d hd
        rcases List.mem_append.1 hd with hd | hd
        · exact h.shared.extra hd
        · exact ⟨_, _, _, List.mem_singleton.1 hd, hextra hmoves.2⟩
      · have hcloses : ∀ red ∈ (table.moves (r.shared.vertex head.vertex).state
            lexeme.token.terminal).reductions, _ := fun red hred => ht.closes hred
        have hreduced := h.reduceAll ht i hvertex hcloses none
        generalize (List.foldl _ (r, none) _ : Readings T S × Option Nat) = result at hreduced ⊢
        obtain ⟨r', last⟩ := result
        refine hreduced.trans ?_
        dsimp only
        split
        · next state hshift =>
          refine hreduced.sound.advanceTo i _ ?_ (by simp)
          intro l hl
          rw [List.mem_singleton.1 hl]
          rw [← hreduced.keeps.state _ hvertex] at hshift
          exact Stacks.fitting_leaf ht (Nat.lt_of_lt_of_le hvertex hreduced.keeps.size) htoken _ hshift
        · split
          · next haccepts =>
            obtain ⟨item, hitem, hrest, hhead⟩ := ht.accepts haccepts
            have haccept := hreduced.sound.accept
              (fun l hl => h.shared.derivesWhole ht hitem hrest hhead hl) fun d hd => h.shared.extra hd
            exact haccept.trans (haccept.sound.mark i .finished)
          · split
            · next j new hnew =>
              obtain ⟨k, -, hk⟩ := Option.bind_eq_some_iff.1 hnew
              obtain ⟨a, ha, heq⟩ := Option.map_eq_some_iff.1 hk
              cases heq
              have hreplace := hreduced.sound.replace i j (List.mem_of_getElem? ha)
              exact hreplace.trans (ih hreplace.sound)
            · exact hreduced.sound.mark i _

/-- A lexer finds only tokens of a vocabulary. -/
structure Finds (v : Vocabulary T) (lexer : Lexer T S) : Prop where
  /-- What it finds is a token of some phrase. -/
  token : ∀ {accepts mode cursor lexeme}, lexer accepts mode cursor = .ok lexeme →
    v.isToken lexeme.token
  /-- What it says is extra is so. -/
  extra : ∀ {accepts mode cursor lexeme}, lexer accepts mode cursor = .ok lexeme →
    lexeme.isExtra = true → v.isExtra lexeme.token

variable {lexer : Lexer T S}

/-- Readings stay sound when one token is read. -/
theorem Sound.advance (ht : Table.Tracks g table holds) (hlexer : Finds v lexer) (limit : Nat)
    (h : r.Sound g v holds) (i : Nat) : r.Becomes g v holds (r.advance table lexer limit i) := by
  rw [Readings.advance]
  split
  · exact h.becomes
  · dsimp only
    split
    · exact h.mark i _
    · next hfound => exact h.feed ht (hlexer.token hfound) (hlexer.extra hfound) limit i

/-- Readings stay sound while one head reads on. By induction on the tokens it may read. -/
theorem Sound.chase (ht : Table.Tracks g table holds) (hlexer : Finds v lexer) (i limit : Nat)
    (h : r.Sound g v holds) (reached : Nat) :
    r.Becomes g v holds (chase table lexer i limit r reached).1 := by
  induction limit generalizing r with
  | zero => exact h.becomes
  | succ limit ih =>
    rw [Readings.chase]
    split
    · have hadvance := h.advance ht hlexer limit i
      dsimp only
      split
      · exact hadvance
      · exact hadvance.trans (ih hadvance.sound)
    · exact h.becomes

/-- Readings stay sound while all heads catch up. -/
theorem Sound.sweep (ht : Table.Tracks g table holds) (hlexer : Finds v lexer) (limit : Nat)
    (h : r.Sound g v holds) (i reached : Nat) :
    r.Becomes g v holds (sweep table lexer limit r i reached).1 := by
  induction limit generalizing r i reached with
  | zero => exact h.becomes
  | succ limit ih =>
    rw [Readings.sweep]
    split
    · have hchase := h.chase ht hlexer i (limit + 1) reached
      exact hchase.trans (ih hchase.sound _ _)
    · exact h.becomes

end Readings

/-- What reading a text gives follows the grammar. -/
inductive Outcome.Sound {T N : Type} [BEq T] [BEq N] (g : Definition T N) (v : Vocabulary T) :
    Outcome T → Prop where
  /-- The derivation of an accepted text does so as a whole. -/
  | accepted {tree : Derivation T} (whole : DerivesWhole g v tree) : Sound g v (.accepted tree)
  /-- What was read of a rejected text does so piece by piece. -/
  | rejected {trail : List (Derivation T)} {here : Position}
      (pieces : ∀ d ∈ trail, Derives g v d ∨ d.IsExtra v) : Sound g v (.rejected trail here)

section

variable {T S N : Type} [BEq T] [LawfulBEq T] [Hashable T] [BEq N] [DecidableEq S]
  {g : Definition T N} {v : Vocabulary T} {holds : Nat → Item → Prop} {table : Table T}
  {lexer : Lexer T S}

/-- What comes of sound readings, when all heads are stuck or finished, is sound. -/
theorem Readings.Sound.run (ht : Table.Tracks g table holds) (hlexer : Readings.Finds v lexer)
    (limit : Nat) {r : Readings T S} (h : r.Sound g v holds) (reached : Nat) :
    (r.run table lexer limit reached).Sound g v := by
  induction limit generalizing r reached with
  | zero => exact .rejected fun d hd => absurd hd List.not_mem_nil
  | succ limit ih =>
    have hsweep := h.sweep ht hlexer (limit + 1) 0 reached
    have hcondense := hsweep.sound.condense
    rw [Readings.run]
    dsimp only
    split
    · exact ih hcondense.sound _
    · split
      · next hbest => exact .accepted (hcondense.sound.best _ hbest)
      · refine .rejected (Readings.mem_trail hcondense.sound.shared _ _ ?_)
        exact fun d hd => absurd hd List.not_mem_nil
      · exact .rejected fun d hd => absurd hd List.not_mem_nil

/-- Reading with a table that tracks a grammar follows the grammar, whatever the text is. -/
theorem Table.read_sound (ht : Table.Tracks g table holds) (hlexer : Readings.Finds v lexer)
    (mode : S) (cursor : Cursor) : (table.read lexer mode cursor).Sound g v := by
  refine Readings.Sound.run ht hlexer _ ⟨?_, by simp, by simp⟩ _
  exact (Stacks.sound_empty.push (by simp) (by simp)).sound

end

end BareCallGraph.Grammar
