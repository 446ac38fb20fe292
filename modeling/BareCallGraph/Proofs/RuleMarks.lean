import BareCallGraph.Proofs.TableStates
import Mathlib.Data.List.Basic

/-!
# Marks in rules and productions

A rule that marks nothing but certain tokens in some way is spelled out as productions that do not either
(`Definition.stepFits_of_mem_productions`). Whether a rule does is told by looking at it
(`Rule.marksOnly`), with no need to spell it out.
-/

namespace BareCallGraph.Grammar

/-- A property of marks that a mark over another has only if one of the two has it. -/
structure Mark.Composes (selects : Mark → Bool) : Prop where
  /-- It takes a mark to have it. -/
  unmarked : selects {} = false
  /-- One of the two marks has it. -/
  either : ∀ {outer inner : Mark}, selects (outer.over inner) = true →
    selects outer = true ∨ selects inner = true

/-- Playing one of some parts is such a property. -/
theorem Mark.composes_role (p : Role → Bool) : Composes fun mark => mark.role.any p where
  unmarked := rfl
  either {outer inner} h := by
    obtain ⟨kind, role⟩ := outer
    cases role with
    | none => exact .inr h
    | some role => exact .inl h

/-- Being shown as one of some kinds is such a property. -/
theorem Mark.composes_kind (p : Kind → Bool) : Composes fun mark => mark.kind.any p where
  unmarked := rfl
  either {outer inner} h := by
    obtain ⟨kind, role⟩ := outer
    cases kind with
    | none => exact .inr h
    | some kind => exact .inl h

namespace Rule

variable {T N : Type} [BEq T]

/-- Whether a rule is a token of one of the given kinds. -/
def isToken (ts : List T) : Rule T N → Bool
  | .terminal t => ts.contains t
  | _ => false

/-- Whether a rule is a token of one of the given kinds, or a choice between such tokens. -/
def isTokenAmong (ts : List T) : Rule T N → Bool
  | .choice options => options.all (·.isToken ts)
  | r => r.isToken ts

variable (selects : Mark → Bool) (ts : List T)

mutual
/-- Whether a rule gives marks of some sort to nothing else than tokens of the given kinds. -/
def marksOnly : Rule T N → Bool
  | .empty | .terminal _ | .nonterminal _ => true
  | .sequence parts => marksOnlyAll parts
  | .choice options => marksOnlyAll options
  | .repeated body => body.marksOnly
  | .marked mark body => (!selects mark || body.isTokenAmong ts) && body.marksOnly
  | .ranked _ _ body => body.marksOnly
  | .weighted _ body => body.marksOnly

/-- Whether several rules give marks of some sort to nothing else than tokens of the given kinds. -/
def marksOnlyAll : List (Rule T N) → Bool
  | [] => true
  | r :: rs => r.marksOnly && marksOnlyAll rs
end

/-- A step has a mark of some sort only where a token of one of the kinds stands. -/
def StepFits (code : Coding T N) (s : Step) : Prop :=
  selects s.mark = true → ∃ t ∈ ts, s.symbol = .terminal (code.terminal t)

variable {selects ts} {code : Coding T N}

omit [BEq T] in
/-- A symbol by itself has no mark, so its step fits. -/
theorem stepFits_ofSymbol (hselects : Mark.Composes selects) (symbol : Symbol) :
    ∀ s ∈ (Alternative.ofSymbol symbol).steps, StepFits selects ts code s := by
  intro s hs hmark
  rw [List.mem_singleton.1 hs, hselects.unmarked] at hmark
  contradiction

/-- A token of one of the kinds is spelled out as such. -/
theorem symbol_of_isToken [LawfulBEq T] {r : Rule T N} (h : r.isToken ts = true) :
    ∀ a ∈ r.alternatives code, ∀ s ∈ a.steps, ∃ t ∈ ts, s.symbol = .terminal (code.terminal t) := by
  intro a ha s hs
  cases r with
  | terminal t =>
    rw [alternatives] at ha
    rw [List.mem_singleton.1 ha] at hs
    rw [List.mem_singleton.1 hs]
    exact ⟨t, List.contains_iff_mem.1 h, rfl⟩
  | _ => contradiction

/-- A choice among tokens of these kinds is spelled out as one of them. -/
theorem symbol_of_isTokenAmong [LawfulBEq T] {r : Rule T N} (h : r.isTokenAmong ts = true) :
    ∀ a ∈ r.alternatives code, ∀ s ∈ a.steps, ∃ t ∈ ts, s.symbol = .terminal (code.terminal t) := by
  cases r with
  | choice options =>
    rw [alternatives]
    rw [isTokenAmong] at h
    induction options with
    | nil =>
      intro a ha
      rw [choices] at ha
      contradiction
    | cons r options ih =>
      rw [List.all_cons, Bool.and_eq_true] at h
      intro a ha
      rw [choices] at ha
      rcases List.mem_append.1 ha with ha | ha
      · exact symbol_of_isToken h.1 a ha
      · exact ih h.2 a ha
  | _ => exact symbol_of_isToken h

/-- A mark over steps that fit is of the sort only over tokens of the kinds. -/
theorem stepFits_marked [LawfulBEq T] (hselects : Mark.Composes selects) {mark : Mark} {body : Rule T N}
    (h : (!selects mark || body.isTokenAmong ts) = true)
    (hbody : ∀ a ∈ body.alternatives code, ∀ s ∈ a.steps, StepFits selects ts code s)
    {a : Alternative} (ha : a ∈ (Rule.marked mark body).alternatives code) {s : Step}
    (hs : s ∈ a.steps) : StepFits selects ts code s := by
  rw [alternatives] at ha
  obtain ⟨b, hb, rfl⟩ := List.mem_map.1 ha
  obtain ⟨u, hu, rfl⟩ := List.mem_map.1 hs
  intro hover
  rcases hselects.either hover with hmark | hinner
  · rw [hmark, Bool.not_true, Bool.false_or] at h
    exact symbol_of_isTokenAmong h b hb u hu
  · exact hbody b hb u hu hinner

mutual
/-- In the alternatives of a rule only tokens of the kinds have such marks. -/
theorem stepFits_of_marksOnly [LawfulBEq T] (hselects : Mark.Composes selects) : ∀ r : Rule T N,
    r.marksOnly selects ts = true →
      ∀ a ∈ r.alternatives code, ∀ s ∈ a.steps, StepFits selects ts code s
  | .empty, _, a, ha, s, hs => by
    rw [alternatives] at ha
    rw [List.mem_singleton.1 ha] at hs
    contradiction
  | .terminal u, _, a, ha, s, hs => by
    rw [alternatives] at ha
    exact stepFits_ofSymbol hselects _ s (List.mem_singleton.1 ha ▸ hs)
  | .nonterminal n, _, a, ha, s, hs => by
    rw [alternatives] at ha
    exact stepFits_ofSymbol hselects _ s (List.mem_singleton.1 ha ▸ hs)
  | .sequence parts, h, a, ha, s, hs => by
    rw [alternatives] at ha
    exact stepFits_sequences hselects parts h a ha s hs
  | .choice options, h, a, ha, s, hs => by
    rw [alternatives] at ha
    exact stepFits_choices hselects options h a ha s hs
  | .repeated body, _, a, ha, s, hs => by
    rw [alternatives] at ha
    exact stepFits_ofSymbol hselects _ s (List.mem_singleton.1 ha ▸ hs)
  | .marked mark body, h, a, ha, s, hs => by
    rw [marksOnly, Bool.and_eq_true] at h
    exact stepFits_marked hselects h.1 (stepFits_of_marksOnly hselects body h.2) ha hs
  | .ranked rank side body, h, a, ha, s, hs => by
    rw [alternatives] at ha
    obtain ⟨b, hb, rfl⟩ := List.mem_map.1 ha
    obtain ⟨u, hu, rfl⟩ := List.mem_map.1 hs
    exact stepFits_of_marksOnly hselects body h b hb u hu
  | .weighted weight body, h, a, ha, s, hs => by
    rw [alternatives] at ha
    obtain ⟨b, hb, rfl⟩ := List.mem_map.1 ha
    exact stepFits_of_marksOnly hselects body h b hb s hs

/-- The steps of a sequence fit if its parts mark nothing else than tokens of these kinds. -/
theorem stepFits_sequences [LawfulBEq T] (hselects : Mark.Composes selects) :
    ∀ parts : List (Rule T N), marksOnlyAll selects ts parts = true →
      ∀ a ∈ sequences code parts, ∀ s ∈ a.steps, StepFits selects ts code s
  | [], _, a, ha, s, hs => by
    rw [sequences] at ha
    rw [List.mem_singleton.1 ha] at hs
    contradiction
  | r :: rs, h, a, ha, s, hs => by
    rw [marksOnlyAll, Bool.and_eq_true] at h
    rw [sequences] at ha
    obtain ⟨b, hb, ha⟩ := List.mem_flatMap.1 ha
    obtain ⟨c, hc, rfl⟩ := List.mem_map.1 ha
    rcases List.mem_append.1 hs with hs | hs
    · exact stepFits_of_marksOnly hselects r h.1 b hb s hs
    · exact stepFits_sequences hselects rs h.2 c hc s hs

/-- The steps of a choice fit if its options mark nothing else than tokens of these kinds. -/
theorem stepFits_choices [LawfulBEq T] (hselects : Mark.Composes selects) :
    ∀ options : List (Rule T N), marksOnlyAll selects ts options = true →
      ∀ a ∈ choices code options, ∀ s ∈ a.steps, StepFits selects ts code s
  | [], _, a, ha, s, hs => by
    rw [choices] at ha
    contradiction
  | r :: rs, h, a, ha, s, hs => by
    rw [marksOnlyAll, Bool.and_eq_true] at h
    rw [choices] at ha
    rcases List.mem_append.1 ha with ha | ha
    · exact stepFits_of_marksOnly hselects r h.1 a ha s hs
    · exact stepFits_choices hselects rs h.2 a ha s hs
end

mutual
/-- What a rule repeats gives such marks to nothing else either. -/
theorem marksOnly_of_mem_repetitions : ∀ r : Rule T N, r.marksOnly selects ts = true →
    ∀ body ∈ r.repetitions, body.marksOnly selects ts = true
  | .empty, _, body, hbody => by
    rw [repetitions] at hbody
    contradiction
  | .terminal _, _, body, hbody => by
    rw [repetitions] at hbody
    contradiction
  | .nonterminal _, _, body, hbody => by
    rw [repetitions] at hbody
    contradiction
  | .sequence parts, h, body, hbody => by
    rw [repetitions] at hbody
    exact marksOnly_of_mem_repetitionsOfAll parts h body hbody
  | .choice options, h, body, hbody => by
    rw [repetitions] at hbody
    exact marksOnly_of_mem_repetitionsOfAll options h body hbody
  | .repeated r, h, body, hbody => by
    rw [repetitions] at hbody
    rcases List.mem_append.1 hbody with hbody | hbody
    · exact marksOnly_of_mem_repetitions r h body hbody
    · rw [List.mem_singleton.1 hbody]
      exact h
  | .marked mark r, h, body, hbody => by
    rw [repetitions] at hbody
    rw [marksOnly, Bool.and_eq_true] at h
    exact marksOnly_of_mem_repetitions r h.2 body hbody
  | .ranked _ _ r, h, body, hbody => by
    rw [repetitions] at hbody
    exact marksOnly_of_mem_repetitions r h body hbody
  | .weighted _ r, h, body, hbody => by
    rw [repetitions] at hbody
    exact marksOnly_of_mem_repetitions r h body hbody

/-- So do the bodies of the repetitions in several rules. -/
theorem marksOnly_of_mem_repetitionsOfAll : ∀ rs : List (Rule T N), marksOnlyAll selects ts rs = true →
    ∀ body ∈ repetitionsOfAll rs, body.marksOnly selects ts = true
  | [], _, body, hbody => by
    rw [repetitionsOfAll] at hbody
    contradiction
  | r :: rs, h, body, hbody => by
    rw [marksOnlyAll, Bool.and_eq_true] at h
    rw [repetitionsOfAll] at hbody
    rcases List.mem_append.1 hbody with hbody | hbody
    · exact marksOnly_of_mem_repetitions r h.1 body hbody
    · exact marksOnly_of_mem_repetitionsOfAll rs h.2 body hbody
end

omit [BEq T] in
/-- Whatever a sequence is spelled out as, each of its parts is in it. -/
theorem exists_of_mem_sequence {r : Rule T N} {parts : List (Rule T N)} (hr : r ∈ parts)
    {a : Alternative} (ha : a ∈ (Rule.sequence parts).alternatives code) :
    ∃ b ∈ r.alternatives code, b.steps ⊆ a.steps := by
  rw [alternatives] at ha
  induction parts generalizing a with
  | nil => contradiction
  | cons q parts ih =>
    rw [sequences] at ha
    obtain ⟨b, hb, ha⟩ := List.mem_flatMap.1 ha
    obtain ⟨c, hc, rfl⟩ := List.mem_map.1 ha
    rcases List.mem_cons.1 hr with rfl | hr
    · exact ⟨b, hb, List.subset_append_left _ _⟩
    · obtain ⟨e, he, hsub⟩ := ih hr hc
      exact ⟨e, he, List.Subset.trans hsub (List.subset_append_right _ _)⟩

end Rule

namespace Definition

variable {T N : Type} [BEq T] [LawfulBEq T] [BEq N] [LawfulBEq N] {g : Definition T N} {p : Production}

omit [LawfulBEq T] in
/-- The production of a nonterminal is one of the alternatives of its rule. -/
theorem exists_alternative_of_nonterminal (hp : p ∈ g.productions) {n : N} (hn : n ∈ g.nonterminals)
    (hhead : p.head = g.coding.nonterminal n) :
    ∃ a ∈ (g.rule n).alternatives g.coding, p.steps = a.steps := by
  have hlt : g.nonterminals.idxOf n < g.nonterminals.length := List.idxOf_lt_length_iff.2 hn
  rcases List.mem_append.1 hp with hp | hp
  · obtain ⟨m, hm, hp⟩ := List.mem_flatMap.1 hp
    obtain ⟨hhead', a, ha, hsteps⟩ := mem_productionsOf hp
    have hindex : g.nonterminals.idxOf m = g.nonterminals.idxOf n := hhead'.symm.trans hhead
    rw [(List.idxOf_inj hm).1 hindex] at ha
    exact ⟨a, ha, hsteps⟩
  · obtain ⟨body, -, hp⟩ := List.mem_flatMap.1 hp
    have hrepetition : p.head = g.nonterminals.length + g.repetitions.idxOf body :=
      (mem_productionsOf hp).1
    have hnonterminal : p.head = g.nonterminals.idxOf n := hhead
    omega

/-- The production of a repetition is one of the alternatives of what is repeated, with or without the
repetition itself before it. -/
theorem exists_alternative_of_repetition (hp : p ∈ g.productions) {body : Rule T N}
    (hbody : body ∈ g.repetitions) (hhead : p.head = g.coding.repetition body) :
    ∃ a ∈ body.alternatives g.coding, p.steps = a.steps ∨
      p.steps = { symbol := .nonterminal (g.coding.repetition body) } :: a.steps := by
  have hhead' : p.head = g.nonterminals.length + g.repetitions.idxOf body := hhead
  rcases List.mem_append.1 hp with hp | hp
  · obtain ⟨m, hm, hp⟩ := List.mem_flatMap.1 hp
    have hnonterminal : p.head = g.nonterminals.idxOf m := (mem_productionsOf hp).1
    have hlt : g.nonterminals.idxOf m < g.nonterminals.length := List.idxOf_lt_length_iff.2 hm
    omega
  · obtain ⟨other, hother, hp⟩ := List.mem_flatMap.1 hp
    obtain ⟨hrepetition, a, ha, hsteps⟩ := mem_productionsOf hp
    have hrepetition : p.head = g.nonterminals.length + g.repetitions.idxOf other := hrepetition
    have hindex : g.repetitions.idxOf other = g.repetitions.idxOf body := by omega
    obtain rfl := (List.idxOf_inj hother).1 hindex
    rcases List.mem_append.1 ha with ha | ha
    · exact ⟨a, ha, .inl hsteps⟩
    · obtain ⟨b, hb, rfl⟩ := List.mem_map.1 ha
      exact ⟨b, hb, .inr hsteps⟩

variable {selects : Mark → Bool} {ts : List T}

/-- If the rules of a grammar give such marks to nothing else than tokens of the kinds, so do its
productions. -/
theorem stepFits_of_mem_productions (hselects : Mark.Composes selects)
    (hrules : ∀ n ∈ g.nonterminals, (g.rule n).marksOnly selects ts = true) (hp : p ∈ g.productions)
    {s : Step} (hs : s ∈ p.steps) : Rule.StepFits selects ts g.coding s := by
  rcases List.mem_append.1 hp with hp | hp
  · obtain ⟨n, hn, hp⟩ := List.mem_flatMap.1 hp
    obtain ⟨-, a, ha, hsteps⟩ := mem_productionsOf hp
    exact Rule.stepFits_of_marksOnly hselects _ (hrules n hn) a ha s (hsteps ▸ hs)
  · obtain ⟨body, hbody, hp⟩ := List.mem_flatMap.1 hp
    obtain ⟨n, hn, hbody⟩ := List.mem_flatMap.1 (List.mem_eraseDups.1 hbody)
    have hmarks := Rule.marksOnly_of_mem_repetitions _ (hrules n hn) body hbody
    have hbodySteps : ∀ a ∈ body.alternatives g.coding, ∀ s ∈ a.steps,
        Rule.StepFits selects ts g.coding s := Rule.stepFits_of_marksOnly hselects body hmarks
    obtain ⟨-, a, ha, hsteps⟩ := mem_productionsOf hp
    rw [hsteps] at hs
    rcases List.mem_append.1 ha with ha | ha
    · exact hbodySteps a ha s hs
    · -- The repetition itself stands before the body, and it is not marked.
      obtain ⟨b, hb, rfl⟩ := List.mem_map.1 ha
      rcases List.mem_append.1 hs with hs | hs
      · exact Rule.stepFits_ofSymbol hselects _ s hs
      · exact hbodySteps b hb s hs

end Definition

end BareCallGraph.Grammar
