import BareCallGraph.Grammar.Stack
import BareCallGraph.Proofs.TableStates

/-!
# Stacks whose links follow a grammar

A derivation follows a grammar if its leaves are tokens and the parts of each of its phrases fill the
steps of a production, with extra tokens between them (`Derives`, `Fills`). Stacks are sound if every
link holds such a derivation and its symbol leads from the state below to the state above
(`Stacks.Sound`). So the parts that are met on a way down, as far down as some item of the state on top
has come, fill a production of the grammar (`Stacks.Sound.fills_of_descends`).

Adding links and joining vertices never changes the state of a vertex, and that is what keeps stacks
sound (`Stacks.Becomes`).
-/

namespace BareCallGraph.Grammar

/-- The tokens of a text: those of its phrases, and extra ones that may stand between any two. -/
structure Vocabulary (T : Type) where
  /-- A token of some phrase. -/
  isToken : Token T → Prop
  /-- A token between others. -/
  isExtra : Token T → Prop

/-! ## Derivations of a grammar -/

section

variable {T N : Type} [BEq T] [BEq N] (g : Definition T N) (v : Vocabulary T)

mutual
/-- A derivation follows the grammar. -/
inductive Derives : Derivation T → Prop where
  /-- A token of a terminal of the grammar. -/
  | leaf {n : Nat} {token : Token T} {stop : Position} (terminal : g.terminals[n]? = some token.terminal)
      (isToken : v.isToken token) : Derives (.leaf n token stop)
  /-- A phrase that is written as one of the productions of its nonterminal. -/
  | phrase {p : Production} {weight : Int} {start stop : Position} {parts : List (Mark × Derivation T)}
      (production : p ∈ g.productions) (fills : Fills p.steps parts) :
      Derives (.phrase (g.terminals.length + p.head) weight start stop parts)

/-- The parts of a phrase fill the steps of a production. -/
inductive Fills : List Step → List (Mark × Derivation T) → Prop where
  | done : Fills [] []
  /-- A part with the symbol and the mark of the step. -/
  | part {s : Step} {d : Derivation T} {steps : List Step} {parts : List (Mark × Derivation T)}
      (symbol : d.symbol = s.symbol.number g.terminals.length) (derives : Derives d)
      (rest : Fills steps parts) : Fills (s :: steps) ((s.mark, d) :: parts)
  /-- An extra token, which fills no step. -/
  | extra {n : Nat} {token : Token T} {stop : Position} {steps : List Step}
      {parts : List (Mark × Derivation T)} (isExtra : v.isExtra token) (rest : Fills steps parts) :
      Fills steps (({}, .leaf n token stop) :: parts)
end

/-- A derivation of a whole text. -/
def DerivesWhole (d : Derivation T) : Prop :=
  Derives g v d ∧ d.symbol = g.terminals.length + g.coding.nonterminal g.start

end

/-- A derivation is an extra token. -/
def Derivation.IsExtra {T : Type} (v : Vocabulary T) (d : Derivation T) : Prop :=
  ∃ n token stop, d = .leaf n token stop ∧ v.isExtra token

section

variable {T N : Type} [BEq T] [BEq N] {g : Definition T N} {v : Vocabulary T} {steps : List Step}
  {parts : List (Mark × Derivation T)} {extras : List (Derivation T)}

/-- Extra tokens may stand before other parts. -/
theorem Fills.extras_append (hextras : ∀ d ∈ extras, d.IsExtra v) (h : Fills g v steps parts) :
    Fills g v steps ((extras.map fun d => (({} : Mark), d)) ++ parts) := by
  induction extras with
  | nil => exact h
  | cons d extras ih =>
    obtain ⟨n, token, stop, rfl, hextra⟩ := hextras d (.head _)
    exact .extra hextra (ih fun d hd => hextras d (.tail _ hd))

/-- Extra tokens may stand behind other parts. -/
theorem Fills.append_extras (hextras : ∀ d ∈ extras, d.IsExtra v) :
    ∀ {steps parts}, Fills g v steps parts → Fills g v steps (parts ++ extras.map fun d => (({} : Mark), d))
  | _, _, .done => by simpa using Fills.done.extras_append hextras
  | _, _, .part symbol derives rest => .part symbol derives (rest.append_extras hextras)
  | _, _, .extra isExtra rest => .extra isExtra (rest.append_extras hextras)

/-- A part of a phrase fills one of the steps, or is an extra token. -/
theorem Fills.of_mem {part : Mark × Derivation T} : ∀ {steps parts}, Fills g v steps parts →
    part ∈ parts → (∃ s ∈ steps, part.1 = s.mark ∧ Derives g v part.2 ∧
      part.2.symbol = s.symbol.number g.terminals.length) ∨ part.1 = {} ∧ part.2.IsExtra v
  | _, _, .part symbol derives rest, h => by
    rcases List.mem_cons.1 h with rfl | h
    · exact .inl ⟨_, .head _, rfl, derives, symbol⟩
    · refine (rest.of_mem h).imp_left ?_
      exact fun ⟨s, hs, hpart⟩ => ⟨s, .tail _ hs, hpart⟩
  | _, _, .extra isExtra rest, h => by
    rcases List.mem_cons.1 h with rfl | h
    · exact .inr ⟨rfl, _, _, _, rfl, isExtra⟩
    · exact rest.of_mem h

/-- Each step is filled by a part. -/
theorem Fills.exists_part {s : Step} : ∀ {steps parts}, Fills g v steps parts → s ∈ steps →
    ∃ d, (s.mark, d) ∈ parts ∧ Derives g v d ∧ d.symbol = s.symbol.number g.terminals.length
  | _, _, .part symbol derives rest, h => by
    rcases List.mem_cons.1 h with rfl | h
    · exact ⟨_, .head _, derives, symbol⟩
    · obtain ⟨d, hd, hpart⟩ := rest.exists_part h
      exact ⟨d, .tail _ hd, hpart⟩
  | _, _, .extra _ rest, h => by
    obtain ⟨d, hd, hpart⟩ := rest.exists_part h
    exact ⟨d, .tail _ hd, hpart⟩

/-- One part fills the first step, and the others fill the rest. -/
theorem Fills.exists_first {s : Step} : ∀ {steps parts}, Fills g v (s :: steps) parts →
    ∃ d rest, Derives g v d ∧ d.symbol = s.symbol.number g.terminals.length ∧ Fills g v steps rest ∧
      ∀ part, part ∈ parts ↔ part = (s.mark, d) ∨ part ∈ rest
  | _, _, .part symbol derives rest => ⟨_, _, derives, symbol, rest, fun _ => List.mem_cons⟩
  | _, (_, .leaf n token stop) :: _, .extra isExtra rest => by
    obtain ⟨d, later, derives, symbol, hlater, hmem⟩ := rest.exists_first
    refine ⟨d, ({}, .leaf n token stop) :: later, derives, symbol, .extra isExtra hlater, fun part => ?_⟩
    rw [List.mem_cons, hmem, List.mem_cons, or_left_comm]

/-- A derivation whose symbol is a nonterminal is a phrase. -/
theorem Derives.exists_phrase {d : Derivation T} (h : Derives g v d) {n : Nat}
    (hsymbol : d.symbol = g.terminals.length + n) :
    ∃ p weight start stop parts, p ∈ g.productions ∧ p.head = n ∧ Fills g v p.steps parts ∧
      d = .phrase (g.terminals.length + p.head) weight start stop parts := by
  cases h with
  | @leaf m token stop terminal _ =>
    obtain ⟨hlt, -⟩ := List.getElem?_eq_some_iff.1 terminal
    have hsymbol : m = g.terminals.length + n := hsymbol
    omega
  | @phrase p weight start stop parts production fills =>
    have hsymbol : g.terminals.length + p.head = g.terminals.length + n := hsymbol
    exact ⟨p, weight, start, stop, parts, production, by omega, fills, rfl⟩

/-- A derivation of a whole text may have extra tokens around it. -/
theorem DerivesWhole.surround {d : Derivation T} (h : DerivesWhole g v d)
    {before after : List (Derivation T)} (hbefore : ∀ d ∈ before, d.IsExtra v)
    (hafter : ∀ d ∈ after, d.IsExtra v) (start stop : Position) :
    DerivesWhole g v (.phrase d.symbol d.weight start stop
      ((before.map fun d => (({} : Mark), d)) ++ d.parts ++
        after.map fun d => (({} : Mark), d))) := by
  obtain ⟨hderives, hsymbol⟩ := h
  obtain ⟨p, _, _, _, parts, hp, -, hfills, rfl⟩ := hderives.exists_phrase hsymbol
  exact ⟨.phrase hp ((hfills.extras_append hbefore).append_extras hafter), hsymbol⟩

end

/-! ## Sound stacks -/

namespace Stacks

variable {T : Type}

/-- The vertices of one stack are still there in another, in the same states. -/
structure Keeps (s s' : Stacks T) : Prop where
  /-- No vertex is gone. -/
  size : s.size ≤ s'.size
  /-- A vertex is in the state that it was in. -/
  state : ∀ n < s.size, (s'.vertex n).state = (s.vertex n).state

/-- Stacks keep their own vertices. -/
theorem Keeps.refl (s : Stacks T) : s.Keeps s := ⟨Nat.le_refl _, fun _ _ => rfl⟩

/-- What is kept by stacks that keep others is kept from the others. -/
theorem Keeps.trans {s s' s'' : Stacks T} (h : s.Keeps s') (h' : s'.Keeps s'') : s.Keeps s'' where
  size := Nat.le_trans h.size h'.size
  state n hn := (h'.state n (Nat.lt_of_lt_of_le hn h.size)).trans (h.state n hn)

/-- Changing one vertex changes that vertex or nothing. -/
theorem vertex_modify_cases (s : Stacks T) (n m : Nat) (f : Vertex T → Vertex T) :
    Stacks.vertex (s.modify n f) m = s.vertex m ∨
      n = m ∧ Stacks.vertex (s.modify n f) m = f (s.vertex m) :=
  getD_modify_cases s n m f default

/-- Vertices that are alike are in one state. -/
theorem state_eq_of_alike {s : Stacks T} {m n : Nat} (h : s.alike m n = true) :
    (s.vertex m).state = (s.vertex n).state := by
  rw [alike, Bool.and_eq_true] at h
  exact eq_of_beq h.1

variable {N : Type} [BEq T] [BEq N] (g : Definition T N) (v : Vocabulary T)
  (holds : Nat → Item → Prop)

/-- A link may lead to a vertex in the given state. -/
structure Fitting (s : Stacks T) (state : Nat) (l : Link T) : Prop where
  /-- The vertex below is there. -/
  below : l.below < s.size
  /-- What was read follows the grammar. -/
  derives : Derives g v l.tree
  /-- What was read leads from the state below to the given one. -/
  leads : Leads g.terminals.length holds (s.vertex l.below).state l.tree.symbol state

/-- All links of the stacks fit, and what was read between them is extra. -/
structure Sound (s : Stacks T) : Prop where
  /-- The links of a vertex may lead to it. -/
  link : ∀ {n l}, l ∈ (s.vertex n).links → s.Fitting g v holds (s.vertex n).state l
  /-- Only extra tokens are kept as such. -/
  extra : ∀ {n d}, d ∈ (s.vertex n).extras → d.IsExtra v

/-- Stacks become sound stacks that keep the vertices. -/
structure Becomes (s s' : Stacks T) : Prop where
  /-- The new stacks are sound. -/
  sound : s'.Sound g v holds
  /-- They keep the vertices of the old ones. -/
  keeps : s.Keeps s'

variable {g v holds} {s s' : Stacks T}

/-- Sound stacks become themselves. -/
theorem Sound.becomes (h : s.Sound g v holds) : s.Becomes g v holds s := ⟨h, .refl s⟩

/-- What stacks become by two steps they become. -/
theorem Becomes.trans {s'' : Stacks T} (h : s.Becomes g v holds s') (h' : s'.Becomes g v holds s'') :
    s.Becomes g v holds s'' := ⟨h'.sound, h.keeps.trans h'.keeps⟩

/-- A link that fits in some stacks fits in stacks that keep them. -/
theorem Fitting.mono {state : Nat} {l : Link T} (h : s.Fitting g v holds state l) (hs : s.Keeps s') :
    s'.Fitting g v holds state l where
  below := Nat.lt_of_lt_of_le h.below hs.size
  derives := h.derives
  leads := by
    rw [hs.state _ h.below]
    exact h.leads

/-- What every step of a run keeps sound, the run keeps sound. -/
theorem Sound.foldl {α : Type} {step : Stacks T → α → Stacks T} {xs : List α} (h : s.Sound g v holds)
    (hstep : ∀ s' x, x ∈ xs → s.Becomes g v holds s' → s'.Becomes g v holds (step s' x)) :
    s.Becomes g v holds (xs.foldl step s) := by
  have hfold (ys : List α) (s' : Stacks T) (hys : ∀ y ∈ ys, y ∈ xs) (h' : s.Becomes g v holds s') :
      s.Becomes g v holds (ys.foldl step s') := by
    induction ys generalizing s' with
    | nil => exact h'
    | cons y ys ih =>
      exact ih _ (fun z hz => hys z (.tail _ hz)) (h'.trans (hstep s' y (hys y (.head _)) h'))
  exact hfold xs s (fun _ hx => hx) h.becomes

/-- A vertex may be changed if its state and its extra tokens stay and its links fit. -/
theorem Sound.modify {n : Nat} {f : Vertex T → Vertex T} (h : s.Sound g v holds)
    (hstate : ∀ x, (f x).state = x.state) (hextras : ∀ x, (f x).extras = x.extras)
    (hlinks : ∀ l ∈ (f (s.vertex n)).links, s.Fitting g v holds (s.vertex n).state l) :
    s.Becomes g v holds (s.modify n f) := by
  have hkeeps : s.Keeps (s.modify n f) := by
    refine ⟨Nat.le_of_eq Array.size_modify.symm, fun m _ => ?_⟩
    rcases vertex_modify_cases s n m f with heq | ⟨-, heq⟩
    · rw [heq]
    · rw [heq, hstate]
  refine ⟨⟨?_, ?_⟩, hkeeps⟩
  · intro m l hl
    rcases vertex_modify_cases s n m f with heq | ⟨rfl, heq⟩
    · rw [heq] at hl ⊢
      exact (h.link hl).mono hkeeps
    · rw [heq] at hl ⊢
      rw [hstate]
      exact (hlinks l hl).mono hkeeps
  · intro m d hd
    rcases vertex_modify_cases s n m f with heq | ⟨-, heq⟩
    · rw [heq] at hd
      exact h.extra hd
    · rw [heq, hextras] at hd
      exact h.extra hd

/-- Stacks without vertices are sound. -/
theorem sound_empty : Stacks.Sound g v holds #[] where
  link := by simp [vertex, default, instInhabitedVertex.default]
  extra := by simp [vertex, default, instInhabitedVertex.default]

/-- A vertex whose links fit may be added. -/
theorem Sound.push {x : Vertex T} (h : s.Sound g v holds)
    (hlinks : ∀ l ∈ x.links, s.Fitting g v holds x.state l) (hextras : ∀ d ∈ x.extras, d.IsExtra v) :
    s.Becomes g v holds (s.push x) := by
  have hvertex (n : Nat) : Stacks.vertex (s.push x) n = if n = s.size then x else s.vertex n := by
    rw [Stacks.vertex, Array.getD_eq_getD_getElem?, Array.getElem?_push]
    split
    · rfl
    · rw [Stacks.vertex, Array.getD_eq_getD_getElem?]
  have hkeeps : s.Keeps (s.push x) := by
    refine ⟨by simp, fun n hn => ?_⟩
    rw [hvertex, if_neg (Nat.ne_of_lt hn)]
  refine ⟨⟨?_, ?_⟩, hkeeps⟩
  · intro n l hl
    rw [hvertex] at hl ⊢
    split at hl
    · next hn =>
      rw [if_pos hn]
      exact (hlinks l hl).mono hkeeps
    · next hn =>
      rw [if_neg hn]
      exact (h.link hl).mono hkeeps
  · intro n d hd
    rw [hvertex] at hd
    split at hd
    · exact hextras d hd
    · exact h.extra hd

/-- A link that fits may be added, also where this joins vertices further down. -/
theorem Sound.addLink (limit : Nat) (h : s.Sound g v holds) {n : Nat} {link : Link T}
    (hlink : s.Fitting g v holds (s.vertex n).state link) :
    s.Becomes g v holds (addLink limit s n link) := by
  induction limit generalizing s n link with
  | zero => exact h.becomes
  | succ limit ih =>
    rw [Stacks.addLink]
    split
    · exact h.becomes
    · split
      · refine h.modify (fun _ => rfl) (fun _ => rfl) ?_
        intro l hl
        rcases List.mem_append.1 hl with hl | hl
        · exact h.link hl
        · rwa [List.mem_singleton.1 hl]
      · next l hl =>
        split
        · split
          · refine h.modify (fun _ => rfl) (fun _ => rfl) ?_
            intro m hm
            rcases List.mem_or_eq_of_mem_set hm with hm | rfl
            · exact h.link hm
            · exact hlink
          · exact h.becomes
        · next hbelow =>
          -- the vertices below are alike, so what leads to one may lead to the other
          obtain ⟨hplace, heq⟩ := List.getElem?_eq_some_iff.1 hl
          have hfound := List.findIdx_getElem (w := hplace)
          rw [heq] at hfound
          simp only [Bool.and_eq_true, Bool.or_eq_true, beq_iff_eq, hbelow, false_or] at hfound
          have hstates := state_eq_of_alike hfound.2
          have hl := h.link (List.mem_of_getElem? hl)
          have hjoined : s.Becomes g v holds
              ((s.vertex link.below).links.foldl (fun s m => Stacks.addLink limit s l.below m) s) := by
            refine h.foldl ?_
            intro s' m hm hs'
            refine ih hs'.sound ?_
            rw [hs'.keeps.state _ hl.below, hstates]
            exact (h.link hm).mono hs'.keeps
          refine hjoined.trans (hjoined.sound.modify (fun _ => rfl) (fun _ => rfl) ?_)
          exact fun m hm => hjoined.sound.link hm

/-- A vertex may get the links of one in the same state. -/
theorem Sound.join (h : s.Sound g v holds) {m n : Nat} (hm : m < s.size)
    (hstates : (s.vertex m).state = (s.vertex n).state) : s.Becomes g v holds (s.join m n) := by
  refine h.foldl ?_
  intro s' l hl hs'
  refine hs'.sound.addLink _ ?_
  rw [hs'.keeps.state _ hm, hstates]
  exact (h.link hl).mono hs'.keeps

end Stacks

/-! ## Ways down -/

namespace Descent

variable {T : Type} {s : Stacks T} {marks : List Mark} {d d' : Descent T}

/-- A way down goes on from another one over as many parts as there are marks. -/
inductive Descends (s : Stacks T) : List Mark → Descent T → Descent T → Prop where
  | here {d : Descent T} : Descends s [] d d
  | link {d d' : Descent T} {marks : List Mark} {mark : Mark} {l : Link T}
      (mem : l ∈ (s.vertex d.bottom).links) (rest : Descends s marks (through s mark d l) d') :
      Descends s (marks ++ [mark]) d d'

/-- A way down that goes on does so along a link from where it was. -/
theorem exists_of_mem_further {mark : Mark} {ds : List (Descent T)} (h : d' ∈ further s mark ds) :
    ∃ d ∈ ds, ∃ l ∈ (s.vertex d.bottom).links, d' = through s mark d l := by
  rcases List.mem_append.1 h with h | h
  · obtain ⟨d, hd, h⟩ := List.mem_flatMap.1 h
    obtain ⟨l, hl, rfl⟩ := List.mem_map.1 h
    exact ⟨d, hd, l, List.mem_of_mem_take hl, rfl⟩
  · obtain ⟨d, hd, h⟩ := List.mem_flatMap.1 h
    obtain ⟨l, hl, rfl⟩ := List.mem_map.1 h
    exact ⟨d, hd, l, List.mem_of_mem_drop hl, rfl⟩

/-- All ways down from a vertex descend from it. -/
theorem descends_of_mem_all {n : Nat} (h : d ∈ all s n marks) : Descends s marks ⟨n, []⟩ d := by
  have hfold (reversed : List Mark) (ds : List (Descent T))
      (h : d ∈ reversed.foldl (fun ds mark => further s mark ds) ds) :
      ∃ d' ∈ ds, Descends s reversed.reverse d' d := by
    induction reversed generalizing ds with
    | nil => exact ⟨d, h, .here⟩
    | cons mark reversed ih =>
      obtain ⟨d', hd', hrest⟩ := ih _ h
      obtain ⟨d'', hd'', l, hl, rfl⟩ := exists_of_mem_further hd'
      rw [List.reverse_cons]
      exact ⟨d'', hd'', .link hl hrest⟩
  obtain ⟨d', hd', hdescends⟩ := hfold marks.reverse _ h
  rw [List.mem_singleton.1 hd', List.reverse_reverse] at hdescends
  exact hdescends

/-- The ways down in a group are ways down to its bottom. -/
theorem mem_of_mem_grouped {ds ways : List (Descent T)} {bottom : Nat}
    (h : (bottom, ways) ∈ grouped ds) (hd : d ∈ ways) : d ∈ ds ∧ d.bottom = bottom := by
  obtain ⟨n, -, heq⟩ := List.mem_map.1 h
  cases heq
  simpa using List.mem_filter.1 hd

end Descent

/-- The best of several derivations is one of them. -/
theorem Derivation.mem_of_foldl_beats {T : Type} (first : Derivation T)
    (others : List (Derivation T)) :
    others.foldl (fun best t => if t.beats best then t else best) first ∈ first :: others := by
  induction others generalizing first with
  | nil => exact .head _
  | cons t others ih =>
    rw [List.foldl_cons]
    split
    · exact .tail _ (ih t)
    · rcases List.mem_cons.1 (ih first) with heq | hmem
      · rw [heq]
        exact .head _
      · exact .tail _ (.tail _ hmem)

namespace Stacks

variable {T N : Type} [BEq T] [BEq N] {g : Definition T N} {v : Vocabulary T}
  {holds : Nat → Item → Prop} {s : Stacks T} {marks : List Mark} {d d' : Descent T}

/-- A way down ends at a vertex. -/
theorem Sound.bottom_lt (h : s.Sound g v holds) (hd : d.bottom < s.size)
    (hdescends : Descent.Descends s marks d d') : d'.bottom < s.size := by
  induction hdescends with
  | here => exact hd
  | link mem rest ih => exact ih (h.link mem).below

/-- The parts on a way down, as far down as an item has come, fill a production: an item of the state on
top has passed them, and the parts above fill what it has before it. -/
theorem Sound.fills_of_descends [Hashable T] {table : Table T} (ht : Table.Tracks g table holds)
    (h : s.Sound g v holds) (hdescends : Descent.Descends s marks d d') {i : Item}
    (hi : holds (s.vertex d.bottom).state i) (hpassed : i.passed = marks) (hparts : Fills g v i.rest d.parts) :
    ∃ p, (p ∈ g.productions ∨ p = Table.wholeOf g) ∧ p.head = i.head ∧
      Fills g v p.steps d'.parts := by
  induction hdescends generalizing i with
  | here =>
    obtain ⟨p, hp, hof⟩ := ht.item hi
    exact ⟨p, hp, hof.1, hof.steps_eq hpassed ▸ hparts⟩
  | @link d d' marks mark l mem rest ih =>
    have hl := h.link mem
    rcases hl.leads i hi with hnone | ⟨j, step, later, hj, hrest, hsymbol, rfl⟩
    · rw [hnone] at hpassed
      exact absurd hpassed.symm (List.append_ne_nil_of_right_ne_nil _ (List.cons_ne_nil _ _))
    · obtain ⟨hmarks, hmark⟩ := List.append_inj' hpassed rfl
      have hmark : step.mark = mark := (List.cons.inj hmark).1
      have hbetween : ∀ e ∈ if d.parts.isEmpty then [] else (s.vertex d.bottom).extras,
          e.IsExtra v := by
        intro e he
        split at he
        · contradiction
        · exact h.extra he
      have hfills : Fills g v j.rest (Descent.through s mark d l).parts := by
        rw [hrest, ← hmark]
        exact .part hsymbol.symm hl.derives (hparts.extras_append hbetween)
      exact ih (i := j) hj hmarks hfills

/-- A phrase that an item has come to the end of follows the grammar, whichever way it was read. -/
theorem Sound.derives_close [Hashable T] {table : Table T} (ht : Table.Tracks g table holds)
    (h : s.Sound g v holds) {n : Nat} {i : Item} (hi : holds (s.vertex n).state i)
    (hrest : i.rest = []) (hhead : i.head ≠ (Table.wholeOf g).head)
    (hd : d ∈ Descent.all s n i.passed) (weight : Int) (here : Position) :
    Derives g v (.close (g.terminals.length + i.head) weight here d.parts) := by
  obtain ⟨p, hp, hphead, hfills⟩ := h.fills_of_descends ht (Descent.descends_of_mem_all hd) hi rfl
    (hrest ▸ .done)
  rcases hp with hp | rfl
  · rw [← hphead]
    exact .phrase hp hfills
  · exact absurd hphead.symm hhead

/-- Where an item has come to the end of a text, the vertex on top is reached over the whole text. -/
theorem Sound.derivesWhole [Hashable T] {table : Table T} (ht : Table.Tracks g table holds)
    (h : s.Sound g v holds) {n : Nat} {i : Item} (hi : holds (s.vertex n).state i)
    (hrest : i.rest = []) (hhead : i.head = (Table.wholeOf g).head) {l : Link T}
    (hl : l ∈ (s.vertex n).links) : DerivesWhole g v l.tree := by
  have hl := h.link hl
  refine ⟨hl.derives, ?_⟩
  obtain ⟨-, before, hsteps, hpassed⟩ := ht.isOf_whole hi hhead
  rw [hrest, List.append_nil] at hsteps
  rcases hl.leads i hi with hnone | ⟨j, step, rest, hj, hjrest, hsymbol, rfl⟩
  · rw [hpassed, ← hsteps] at hnone
    contradiction
  · obtain ⟨-, before, hsteps, -⟩ := ht.isOf_whole hj hhead
    -- the only step of the whole text is the one that was passed last
    have hrest : rest = [] := hrest
    rw [hjrest, hrest] at hsteps
    have hsteps : [] ++ (Table.wholeOf g).steps = before ++ [step] := hsteps
    obtain ⟨-, hstep⟩ := List.append_inj' hsteps rfl
    rw [← hsymbol, ← (List.cons.inj hstep).1]
    rfl

/-- A token that is taken may lead to the next state. -/
theorem fitting_leaf [Hashable T] [LawfulBEq T] {table : Table T} (ht : Table.Tracks g table holds)
    {n state : Nat} (hn : n < s.size) {token : Token T} (htoken : v.isToken token) (stop : Position)
    (hshift : (table.moves (s.vertex n).state token.terminal).shift = some state) :
    s.Fitting g v holds state ⟨.leaf (table.numbers.getD token.terminal 0) token stop, n⟩ := by
  obtain ⟨symbol, hsymbol, hleads⟩ := ht.shift hshift
  rw [Std.HashMap.getD_eq_getD_getElem?, hsymbol]
  exact ⟨hn, .leaf (ht.number hsymbol) htoken, hleads⟩

end Stacks

end BareCallGraph.Grammar
