import BareCallGraph.Proofs.BareCalls
import BareCallGraph.Python.Module

/-!
# What derivations are shown as

A token or a phrase is shown as a single node (`ShownAs`) or not at all; in place of a phrase that is not
shown stand the nodes of its parts (`Shows`). So each node of the tree of a text, the root and an error
node apart, is what some token or phrase is shown as (`shownAs_of_within_treeOf`), and a property of trees
is proved by looking at that token or phrase.
-/

namespace BareCallGraph.Python

open Grammar (Derivation Mark Outcome Token)

/-- A part of a phrase plays the part that its own mark says, or that of the phrase if it says none. -/
def inheriting (role : Option Role) (mark : Mark) : Mark := { mark with role := mark.role <|> role }

@[simp] theorem inheriting_none (mark : Mark) : inheriting none mark = mark := by
  obtain ⟨kind, role⟩ := mark
  cases role <;> rfl

/-- The node that a token or a phrase is shown as, with the number of terminals. -/
inductive ShownAs (terminals : Nat) : Mark → Derivation Terminal → SyntaxTree → Prop where
  | token {mark : Mark} {symbol : Nat} {token : Token Terminal} {stop : Position} {kind : Kind}
      (shown : leafKind? mark token = some kind) :
      ShownAs terminals mark (.leaf symbol token stop)
        (.node kind mark.role token.start (String.ofList token.text) [])
  | phrase {mark : Mark} {symbol : Nat} {weight : Int} {start stop : Position}
      {parts : List (Mark × Derivation Terminal)} {kind : Kind}
      (shown : phraseKind? terminals mark symbol = some kind) :
      ShownAs terminals mark (.phrase symbol weight start stop parts)
        (.node kind mark.role start "" (shownAllOnto terminals none [] parts))

/-- One of the nodes that stand for a derivation. -/
inductive Shows (terminals : Nat) : Mark → Derivation Terminal → SyntaxTree → Prop where
  | itself {mark : Mark} {d : Derivation Terminal} {t : SyntaxTree} (shown : ShownAs terminals mark d t) :
      Shows terminals mark d t
  | part {mark : Mark} {symbol : Nat} {weight : Int} {start stop : Position}
      {parts : List (Mark × Derivation Terminal)} {p : Mark × Derivation Terminal} {t : SyntaxTree}
      (hidden : phraseKind? terminals mark symbol = none) (mem : p ∈ parts)
      (shows : Shows terminals (inheriting mark.role p.1) p.2 t) :
      Shows terminals mark (.phrase symbol weight start stop parts) t

section

variable {n : Nat} {t u : SyntaxTree}

/-- A token without a kind is not shown. -/
theorem not_shownAs_leaf {mark : Mark} {symbol : Nat} {token : Token Terminal} {stop : Position}
    (hkind : leafKind? mark token = none) : ¬ ShownAs n mark (.leaf symbol token stop) t := by
  intro h
  cases h with
  | token hkind' =>
    rw [hkind] at hkind'
    contradiction

/-- A phrase without a kind is not shown as a node. -/
theorem not_shownAs_phrase {mark : Mark} {symbol : Nat} {weight : Int} {start stop : Position}
    {parts : List (Mark × Derivation Terminal)} (hkind : phraseKind? n mark symbol = none) :
    ¬ ShownAs n mark (.phrase symbol weight start stop parts) t := by
  intro h
  cases h with
  | phrase hkind' =>
    rw [hkind] at hkind'
    contradiction

/-- A derivation is shown as one node at most. -/
theorem ShownAs.unique {mark : Mark} {d : Derivation Terminal} (h : ShownAs n mark d t)
    (h' : ShownAs n mark d u) : t = u := by
  cases h with
  | token hkind =>
    cases h' with
    | token hkind' => rw [Option.some.inj (hkind.symm.trans hkind')]
  | phrase hkind =>
    cases h' with
    | phrase hkind' => rw [Option.some.inj (hkind.symm.trans hkind')]

/-- If it is shown itself, its parts do not stand for it. -/
theorem Shows.eq_of_shownAs {mark : Mark} {d : Derivation Terminal} (h : Shows n mark d t)
    (hu : ShownAs n mark d u) : t = u := by
  cases h with
  | itself shown => exact shown.unique hu
  | part hidden _ _ => exact absurd hu (not_shownAs_phrase hidden)

/-- What is shown as a node shows that node and nothing else. -/
theorem shows_iff_of_shownAs {mark : Mark} {d : Derivation Terminal} (hu : ShownAs n mark d u) :
    Shows n mark d t ↔ t = u :=
  ⟨fun h => h.eq_of_shownAs hu, fun h => h ▸ .itself hu⟩

mutual
/-- What a derivation adds to the nodes behind it is what it shows. -/
theorem mem_shownOnto {mark : Mark} {later : List SyntaxTree} : ∀ d : Derivation Terminal,
    t ∈ shownOnto n mark later d ↔ Shows n mark d t ∨ t ∈ later
  | .leaf symbol token stop => by
    rw [shownOnto]
    split
    · next kind hkind => rw [List.mem_cons, shows_iff_of_shownAs (.token hkind)]
    · next hkind =>
      refine (or_iff_right fun h => ?_).symm
      cases h with
      | itself shown => exact not_shownAs_leaf hkind shown
  | .phrase symbol weight start stop parts => by
    rw [shownOnto]
    split
    · next kind hkind => rw [List.mem_cons, shows_iff_of_shownAs (.phrase hkind)]
    · next hkind =>
      rw [mem_shownAllOnto parts]
      refine or_congr_left ⟨fun ⟨p, hp, h⟩ => .part hkind hp h, fun h => ?_⟩
      cases h with
      | itself shown => exact absurd shown (not_shownAs_phrase hkind)
      | part _ mem shows => exact ⟨_, mem, shows⟩

/-- What several parts add to the nodes behind them is what each of them shows. -/
theorem mem_shownAllOnto {role : Option Role} {later : List SyntaxTree} :
    ∀ parts : List (Mark × Derivation Terminal), t ∈ shownAllOnto n role later parts ↔
      (∃ p ∈ parts, Shows n (inheriting role p.1) p.2 t) ∨ t ∈ later
  | [] => by simp [shownAllOnto]
  | (mark, part) :: parts => by
    rw [shownAllOnto, mem_shownOnto part, mem_shownAllOnto parts]
    simp only [List.mem_cons, exists_eq_or_imp, or_assoc, inheriting]
end

/-- What holds of a phrase with its mark holds of its parts with theirs. -/
structure PassesOn (n : Nat) (holds : Mark → Derivation Terminal → Prop) : Prop where
  /-- The parts of a phrase. -/
  part : ∀ {mark : Mark} {symbol : Nat} {weight : Int} {start stop : Position}
    {parts : List (Mark × Derivation Terminal)}, holds mark (.phrase symbol weight start stop parts) →
      ∀ p ∈ parts, holds p.1 p.2
  /-- If the phrase is not shown, also in the part that it plays. -/
  hidden : ∀ {mark : Mark} {symbol : Nat} {weight : Int} {start stop : Position}
    {parts : List (Mark × Derivation Terminal)}, holds mark (.phrase symbol weight start stop parts) →
      phraseKind? n mark symbol = none → ∀ p ∈ parts, holds (inheriting mark.role p.1) p.2

variable {holds : Mark → Derivation Terminal → Prop}

/-- Two things that are passed on are passed on together. -/
theorem PassesOn.and {holds' : Mark → Derivation Terminal → Prop} (h : PassesOn n holds)
    (h' : PassesOn n holds') : PassesOn n fun mark d => holds mark d ∧ holds' mark d where
  part hd p hp := ⟨h.part hd.1 p hp, h'.part hd.2 p hp⟩
  hidden hd hkind p hp := ⟨h.hidden hd.1 hkind p hp, h'.hidden hd.2 hkind p hp⟩

/-- Every node that is shown is shown by some derivation of which the same holds. -/
theorem Shows.exists_shownAs (hholds : PassesOn n holds) {mark : Mark} {d : Derivation Terminal}
    (h : Shows n mark d t) (hd : holds mark d) : ∃ mark d, holds mark d ∧ ShownAs n mark d t := by
  induction h with
  | itself shown => exact ⟨_, _, hd, shown⟩
  | part hidden mem _ ih => exact ih (hholds.hidden hd hidden _ mem)

/-- A node of a tree that stands for a derivation is what some part of it is shown as. -/
theorem Shows.exists_of_within (hholds : PassesOn n holds) (hu : u.Within t) {mark : Mark}
    {d : Derivation Terminal} (h : Shows n mark d t) (hd : holds mark d) :
    ∃ mark d, holds mark d ∧ ShownAs n mark d u := by
  induction hu generalizing mark d with
  | whole => exact h.exists_shownAs hholds hd
  | inChild hc _ ih =>
    obtain ⟨_, _, hd, shown⟩ := h.exists_shownAs hholds hd
    cases shown with
    | token => exact absurd hc List.not_mem_nil
    | phrase =>
      obtain ⟨p, hp, hshows⟩ | hc := (mem_shownAllOnto _).1 hc
      · rw [inheriting_none] at hshows
        exact ih hshows (hholds.part hd p hp)
      · exact absurd hc List.not_mem_nil

/-- The same for the nodes of several derivations, unless they were there before. -/
theorem exists_of_within_shownAllOnto (hholds : PassesOn n holds)
    {parts : List (Mark × Derivation Terminal)} (hparts : ∀ p ∈ parts, holds p.1 p.2)
    {later : List SyntaxTree} (ht : t ∈ shownAllOnto n none later parts) (hu : u.Within t) :
    (∃ mark d, holds mark d ∧ ShownAs n mark d u) ∨ t ∈ later := by
  rcases (mem_shownAllOnto parts).1 ht with ⟨p, hp, hshows⟩ | ht
  · rw [inheriting_none] at hshows
    exact .inl (hshows.exists_of_within hholds hu (hparts p hp))
  · exact .inr ht

/-- The failure of a text leaves of what was read nothing but what was read. -/
theorem mem_of_mem_failure {trail : List (Derivation Terminal)} {here : Position}
    {d : Derivation Terminal} (h : d ∈ (failure trail here).1) : d ∈ trail := by
  unfold failure at h
  split at h
  · split at h
    · exact (List.dropLast_sublist trail).mem h
    · exact h
  · exact h

/-- What was read of a text, piece by piece, each with its mark. -/
def pieces : Outcome Terminal → List (Mark × Derivation Terminal)
  | .accepted whole => whole.parts
  | .rejected trail _ => trail.map ({}, ·)

/-- Every node of the tree of a text is the root, or an error, or else what something that was read is
shown as. -/
theorem shownAs_of_within_treeOf (hholds : PassesOn n holds) {outcome : Outcome Terminal}
    (hpieces : ∀ p ∈ pieces outcome, holds p.1 p.2) (hu : u.Within (treeOf n outcome)) :
    (u.kind = .module ∨ u.kind = .error) ∧ u.role = none ∨
      ∃ mark d, holds mark d ∧ ShownAs n mark d u := by
  cases outcome with
  | accepted whole =>
    rcases SyntaxTree.within_iff.1 hu with rfl | ⟨c, hc, hu⟩
    · exact .inl ⟨.inl rfl, rfl⟩
    · refine .inr ((exists_of_within_shownAllOnto hholds hpieces hc hu).resolve_right ?_)
      exact List.not_mem_nil
  | rejected trail here =>
    rcases SyntaxTree.within_iff.1 hu with rfl | ⟨c, hc, hu⟩
    · exact .inl ⟨.inl rfl, rfl⟩
    · have hread : ∀ p ∈ (failure trail here).1.map (({} : Mark), ·), holds p.1 p.2 := by
        intro p hp
        obtain ⟨d, hd, rfl⟩ := List.mem_map.1 hp
        exact hpieces _ (List.mem_map.2 ⟨d, mem_of_mem_failure hd, rfl⟩)
      rcases exists_of_within_shownAllOnto hholds hread hc hu with hshown | hc
      · exact .inr hshown
      · rw [List.mem_singleton.1 hc] at hu
        rcases SyntaxTree.within_iff.1 hu with rfl | ⟨c, hc, -⟩
        · exact .inl ⟨.inr rfl, rfl⟩
        · exact absurd hc List.not_mem_nil

end

end BareCallGraph.Python
