import BareCallGraph.Proofs.BareCalls

/-!
# Nodes in pre-order

The address of a node says through which children it is reached from the root. Read like words,
addresses put each node before its children and these from left to right: their order is pre-order.

The scan for bare calls keeps its pending trees on a stack. Round by round it examines the node at the
next address (`scanAfter_pending`), so every node has its turn once and the scan ends when all had theirs.
What it finds is what a recursion over the children finds (`bareCalls_by_recursion`).
-/

namespace BareCallGraph

namespace SyntaxTree

/-- A property that a node has whenever its children have it is one of all trees. -/
theorem childInduction {P : SyntaxTree → Prop} (step : ∀ t, (∀ c ∈ t.children, P c) → P t)
    (t : SyntaxTree) : P t :=
  step t fun c _ => childInduction step c
termination_by t.size
decreasing_by
  exact size_lt_of_mem_children ‹_›

/-- A property that a stack of trees has whenever it holds with the children in place of the first
tree is one of all stacks. -/
theorem stackInduction {P : List SyntaxTree → Prop} (done : P [])
    (round : ∀ t pending, P (t.children ++ pending) → P (t :: pending)) (pending : List SyntaxTree) :
    P pending :=
  match pending with
  | [] => done
  | t :: pending => round t pending (stackInduction done round (t.children ++ pending))
termination_by totalSize pending
decreasing_by
  rw [totalSize_append, totalSize, size_eq]; omega

/-! ## The list of all nodes -/

/-- What was visited before stays in front. -/
theorem preorderOnto_eq_append (visited pending : List SyntaxTree) :
    preorderOnto visited pending = visited.reverse ++ preorderOnto [] pending := by
  induction pending using stackInduction generalizing visited with
  | done => simp [preorderOnto]
  | round t pending ih => simp [preorderOnto, ih (t :: visited), ih [t]]

/-- The trees of a stack are visited one after the other. -/
theorem preorderOnto_nil_append (ts us : List SyntaxTree) :
    preorderOnto [] (ts ++ us) = preorderOnto [] ts ++ preorderOnto [] us := by
  induction ts using stackInduction with
  | done => simp [preorderOnto]
  | round t ts ih =>
    rw [List.cons_append, preorderOnto, preorderOnto_eq_append, ← List.append_assoc, ih, preorderOnto,
      preorderOnto_eq_append [t]]
    simp

/-- The nodes of several trees are those of the first tree, then those of the next, and so on. -/
theorem preorderOnto_nil_eq_flatMap (ts : List SyntaxTree) :
    preorderOnto [] ts = ts.flatMap preorder := by
  induction ts with
  | nil => simp [preorderOnto]
  | cons t ts ih =>
    rw [List.flatMap_cons, ← ih, preorder, ← preorderOnto_nil_append, List.singleton_append]

/-- A node comes first, and then the nodes of its children. -/
theorem preorder_eq (t : SyntaxTree) : t.preorder = t :: t.children.flatMap preorder := by
  rw [preorder, preorderOnto, preorderOnto_eq_append, List.append_nil, preorderOnto_nil_eq_flatMap]
  rfl

/-- There are as many nodes as the tree is large. -/
theorem length_preorder (t : SyntaxTree) : t.preorder.length = t.size := by
  induction t using childInduction with
  | step t ih =>
    have hall (ts : List SyntaxTree) (hts : ∀ c ∈ ts, c.preorder.length = c.size) :
        (ts.flatMap preorder).length = totalSize ts := by
      induction ts with
      | nil => rfl
      | cons c ts ihts =>
        rw [List.flatMap_cons, List.length_append, hts c (.head _),
          ihts fun d hd => hts d (.tail _ hd), totalSize]
    rw [preorder_eq, List.length_cons, hall _ ih, size_eq, Nat.add_comm]

/-- The nodes in the list are those that stand within the tree. -/
theorem mem_preorder {u t : SyntaxTree} : u ∈ t.preorder ↔ u.Within t := by
  induction t using childInduction with
  | step t ih =>
    rw [preorder_eq, List.mem_cons, List.mem_flatMap, within_iff]
    exact or_congr_right (exists_congr fun c => and_congr_right fun hc => ih c hc)

/-! ## Addresses -/

/-- The node at an address: the first number is that of the child of the root that leads to it, and so
on down. -/
def nodeAt? (t : SyntaxTree) : List Nat → Option SyntaxTree
  | [] => some t
  | i :: rest => t.children[i]?.bind fun c => c.nodeAt? rest

mutual
/-- The addresses of all nodes of a tree, each before those of its children. -/
def addresses : SyntaxTree → List (List Nat)
  | node _ _ _ _ children => [] :: addressesFrom 0 children

/-- The addresses of all nodes of the children from number `i` on. -/
def addressesFrom (i : Nat) : List SyntaxTree → List (List Nat)
  | [] => []
  | t :: ts => t.addresses.map (i :: ·) ++ addressesFrom (i + 1) ts
end

/-- The addresses in a tree are that of its root, and those in its children. -/
theorem addresses_eq (t : SyntaxTree) : t.addresses = [] :: addressesFrom 0 t.children := by
  cases t; simp [addresses]

/-- An address in one of several trees is the number of the tree, and an address in that tree. -/
theorem mem_addressesFrom {i : Nat} {ts : List SyntaxTree} {a : List Nat} :
    a ∈ addressesFrom i ts ↔ ∃ k c rest, ts[k]? = some c ∧ rest ∈ c.addresses ∧ a = (i + k) :: rest := by
  induction ts generalizing i with
  | nil => simp [addressesFrom]
  | cons t ts ih =>
    rw [addressesFrom, List.mem_append, List.mem_map, ih]
    constructor
    · rintro (⟨rest, hrest, rfl⟩ | ⟨k, c, rest, hc, hrest, rfl⟩)
      · exact ⟨0, t, rest, rfl, hrest, rfl⟩
      · exact ⟨k + 1, c, rest, hc, hrest, by rw [Nat.add_assoc, Nat.add_comm 1]⟩
    · rintro ⟨k, c, rest, hc, hrest, rfl⟩
      cases k with
      | zero =>
        cases hc
        exact .inl ⟨rest, hrest, rfl⟩
      | succ k => exact .inr ⟨k, c, rest, hc, hrest, by rw [Nat.add_assoc, Nat.add_comm 1]⟩

/-- The listed addresses are those at which there is a node. -/
theorem mem_addresses {t : SyntaxTree} {a : List Nat} : a ∈ t.addresses ↔ (t.nodeAt? a).isSome := by
  induction a generalizing t with
  | nil => simp [addresses_eq, nodeAt?]
  | cons i rest ih =>
    have hmem : i :: rest ∈ t.addresses ↔ ∃ c, t.children[i]? = some c ∧ rest ∈ c.addresses := by
      rw [addresses_eq, List.mem_cons, or_iff_right (List.cons_ne_nil i rest), mem_addressesFrom]
      constructor
      · rintro ⟨k, c, rest', hc, hrest, heq⟩
        rw [Nat.zero_add, List.cons.injEq] at heq
        exact ⟨c, heq.1 ▸ hc, heq.2 ▸ hrest⟩
      · rintro ⟨c, hc, hrest⟩
        exact ⟨i, c, rest, hc, hrest, by rw [Nat.zero_add]⟩
    rw [hmem, nodeAt?]
    cases t.children[i]? with
    | none => simp
    | some c => simp [ih]

/-- The order of words: an address comes before those that go on from it, and before those that have a
greater number where the two first differ. -/
def Precedes : List Nat → List Nat → Prop := List.Lex (· < ·)

/-- Of two addresses at most one precedes the other. -/
theorem Precedes.asymm {a b : List Nat} (h : Precedes a b) : ¬ Precedes b a := by
  induction h with
  | nil => exact fun h => nomatch h
  | rel hlt =>
    intro h
    cases h with
    | rel hgt => omega
    | cons => omega
  | cons _ ih =>
    intro h
    cases h with
    | rel hgt => omega
    | cons h => exact ih h

/-- Addresses are listed in the order of words, and none is listed twice. -/
theorem pairwise_addresses (t : SyntaxTree) : t.addresses.Pairwise Precedes := by
  induction t using childInduction with
  | step t ih =>
    have hall (ts : List SyntaxTree) (i : Nat) (hts : ∀ c ∈ ts, c.addresses.Pairwise Precedes) :
        (addressesFrom i ts).Pairwise Precedes := by
      induction ts generalizing i with
      | nil => simp [addressesFrom]
      | cons c ts ihts =>
        rw [addressesFrom, List.pairwise_append, List.pairwise_map]
        refine ⟨?_, ihts _ fun d hd => hts d (.tail _ hd), ?_⟩
        · exact (hts c (.head _)).imp fun h => List.Lex.cons h
        · intro a ha b hb
          obtain ⟨rest, -, rfl⟩ := List.mem_map.1 ha
          obtain ⟨k, d, rest', -, -, rfl⟩ := mem_addressesFrom.1 hb
          exact List.Lex.rel (by omega)
    rw [addresses_eq, List.pairwise_cons]
    refine ⟨?_, hall _ _ ih⟩
    intro a ha
    obtain ⟨k, c, rest, -, -, rfl⟩ := mem_addressesFrom.1 ha
    exact List.Lex.nil

/-- The nodes at the listed addresses are the nodes in pre-order. -/
theorem map_nodeAt?_addresses (t : SyntaxTree) : t.addresses.map t.nodeAt? = t.preorder.map some := by
  induction t using childInduction with
  | step t ih =>
    -- the children from number `i` on are the ones behind `before`
    have hall (before ts : List SyntaxTree) (hts : before ++ ts = t.children) :
        (addressesFrom before.length ts).map t.nodeAt? = (ts.flatMap preorder).map some := by
      induction ts generalizing before with
      | nil => rfl
      | cons c ts ihts =>
        have hc : t.children[before.length]? = some c := by simp [← hts]
        have hhere : (c.addresses.map (before.length :: ·)).map t.nodeAt? = c.preorder.map some := by
          rw [List.map_map, ← ih c (by simp [← hts])]
          exact List.map_congr_left fun a _ => by simp [nodeAt?, hc]
        have hlater := ihts (before ++ [c]) (by simp [hts])
        rw [List.length_append, List.length_singleton] at hlater
        rw [addressesFrom, List.map_append, hhere, hlater, List.flatMap_cons, List.map_append]
    rw [addresses_eq, preorder_eq, List.map_cons, List.map_cons, nodeAt?]
    exact congrArg _ (hall [] t.children rfl)

/-- The node with some number in pre-order is the one at the address with that number. -/
theorem getElem?_preorder (t : SyntaxTree) (n : Nat) :
    t.preorder[n]? = t.addresses[n]?.bind t.nodeAt? := by
  have hnode : t.addresses[n]?.map t.nodeAt? = t.preorder[n]?.map some := by
    rw [← List.getElem?_map, ← List.getElem?_map, map_nodeAt?_addresses]
  cases ha : t.addresses[n]? <;> cases hu : t.preorder[n]? <;> simp_all

/-! ## The scan round by round -/

/-- What the scan for calls has at hand between two rounds. -/
structure Scan where
  /-- The names found so far, the last one first. -/
  found : List String
  /-- The trees still to be scanned. -/
  pending : List SyntaxTree

namespace Scan

/-- One round examines the first pending node and pushes its children in its place. -/
def round : Scan → Scan
  | ⟨found, []⟩ => ⟨found, []⟩
  | ⟨found, t :: pending⟩ => ⟨t.calledName?.toList ++ found, t.pushChildren pending⟩

/-- The names that the scan will have found in the end. -/
def result (s : Scan) : List String := bareCallsOnto s.found s.pending

/-- A round does not change what the scan comes to. -/
theorem result_round (s : Scan) : s.round.result = s.result := by
  obtain ⟨found, pending⟩ := s
  cases pending with
  | nil => rfl
  | cons t pending => rw [round, result, result, bareCallsOnto]

/-- The nodes that the scan has not examined yet, in the order in which it will. -/
def remaining (s : Scan) : List SyntaxTree := s.pending.flatMap preorder

/-- The next node that the scan examines is the first one pending. -/
theorem head?_remaining (s : Scan) : s.remaining.head? = s.pending.head? := by
  obtain ⟨found, pending⟩ := s
  cases pending with
  | nil => rfl
  | cons t pending => simp [remaining, preorder_eq t]

/-- A round examines the first of the remaining nodes. -/
theorem remaining_round (s : Scan) : s.round.remaining = s.remaining.tail := by
  obtain ⟨found, pending⟩ := s
  cases pending with
  | nil => rfl
  | cons t pending => simp [round, remaining, preorder_eq t]

/-- A round finds what the first of the remaining nodes calls. -/
theorem found_round (s : Scan) :
    s.round.found.reverse = s.found.reverse ++ (s.remaining.take 1).filterMap calledName? := by
  obtain ⟨found, pending⟩ := s
  cases pending with
  | nil => simp [round, remaining]
  | cons t pending =>
    cases hcalled : t.calledName? <;> simp [round, remaining, preorder_eq t, hcalled]

end Scan

/-- The scan of a tree after some number of rounds. -/
def scanAfter (t : SyntaxTree) : Nat → Scan
  | 0 => ⟨[], [t]⟩
  | n + 1 => (t.scanAfter n).round

/-- However many rounds are done, the scan comes to the calls of the tree. -/
theorem result_scanAfter (t : SyntaxTree) (n : Nat) : (t.scanAfter n).result = t.bareCalls := by
  induction n with
  | zero => rfl
  | succ n ih => rw [scanAfter, Scan.result_round, ih]

/-- Each round examines the next node of the tree. -/
theorem remaining_scanAfter (t : SyntaxTree) (n : Nat) :
    (t.scanAfter n).remaining = t.preorder.drop n := by
  induction n with
  | zero => simp [scanAfter, Scan.remaining]
  | succ n ih => rw [scanAfter, Scan.remaining_round, ih, List.tail_drop]

/-- After some rounds the scan has found what the nodes that it has examined call. -/
theorem found_scanAfter (t : SyntaxTree) (n : Nat) :
    (t.scanAfter n).found.reverse = (t.preorder.take n).filterMap calledName? := by
  induction n with
  | zero => rfl
  | succ n ih =>
    rw [scanAfter, Scan.found_round, ih, remaining_scanAfter, ← List.filterMap_append, List.take_add]

/-- The next round examines the node at the next address. -/
theorem scanAfter_pending (t : SyntaxTree) (n : Nat) :
    (t.scanAfter n).pending.head? = t.addresses[n]?.bind t.nodeAt? := by
  rw [← Scan.head?_remaining, remaining_scanAfter, List.head?_drop, getElem?_preorder]

/-- With as many rounds as there are nodes the scan has come to its end. -/
theorem scanAfter_size (t : SyntaxTree) : t.scanAfter t.size = ⟨t.bareCalls.reverse, []⟩ := by
  have hpending : (t.scanAfter t.size).pending = [] := by
    rw [← List.head?_eq_none_iff, ← Scan.head?_remaining, remaining_scanAfter, ← length_preorder,
      List.drop_length]
    rfl
  have hresult := t.result_scanAfter t.size
  rw [Scan.result, hpending, bareCallsOnto] at hresult
  rw [← hresult, List.reverse_reverse, ← hpending]

/-- The bare calls of a tree are what its nodes call, in pre-order. -/
theorem bareCalls_eq_filterMap (t : SyntaxTree) : t.bareCalls = t.preorder.filterMap calledName? := by
  have hfound := t.found_scanAfter t.size
  rwa [scanAfter_size, List.reverse_reverse, ← length_preorder, List.take_length] at hfound

/-! ## The same by recursion -/

mutual
/-- The names called bare in a tree: the one that the node itself calls, and then those called in its
children from left to right. -/
def nestedCalls : SyntaxTree → List String
  | node kind role start text children =>
    (node kind role start text children).calledName?.toList ++ nestedCallsAll children

/-- The names called bare in several trees. -/
def nestedCallsAll : List SyntaxTree → List String
  | [] => []
  | t :: ts => t.nestedCalls ++ nestedCallsAll ts
end

/-- The calls of a tree are that of its root, if it is one, and those in its children. -/
theorem nestedCalls_eq (t : SyntaxTree) :
    t.nestedCalls = t.calledName?.toList ++ nestedCallsAll t.children := by
  cases t; simp [nestedCalls]

/-- The calls found by recursion on the tree are those that its nodes make, one after the other. -/
theorem nestedCalls_eq_filterMap (t : SyntaxTree) :
    t.nestedCalls = t.preorder.filterMap calledName? := by
  induction t using childInduction with
  | step t ih =>
    have hall (ts : List SyntaxTree)
        (hts : ∀ c ∈ ts, c.nestedCalls = c.preorder.filterMap calledName?) :
        nestedCallsAll ts = (ts.flatMap preorder).filterMap calledName? := by
      induction ts with
      | nil => rfl
      | cons c ts ihts =>
        rw [nestedCallsAll, hts c (.head _), ihts fun d hd => hts d (.tail _ hd), List.flatMap_cons,
          List.filterMap_append]
    rw [nestedCalls_eq, hall _ ih, preorder_eq]
    cases hcalled : t.calledName? <;> simp [hcalled]

/-- The scan with a stack finds what the recursion finds, for every tree. In each round it examines the
node at the next address, and it ends as soon as the node at the last address was examined. The addresses
are those of all nodes, each of them once and in pre-order. -/
theorem bareCalls_by_recursion (t : SyntaxTree) :
    t.bareCalls = t.nestedCalls ∧
      (∀ n, (t.scanAfter n).result = t.bareCalls) ∧
      (∀ n, (t.scanAfter n).pending.head? = t.addresses[n]?.bind t.nodeAt?) ∧
      t.scanAfter t.size = ⟨t.bareCalls.reverse, []⟩ ∧
      t.addresses.Pairwise Precedes ∧ ∀ a, a ∈ t.addresses ↔ (t.nodeAt? a).isSome := by
  refine ⟨?_, t.result_scanAfter, t.scanAfter_pending, t.scanAfter_size, t.pairwise_addresses, ?_⟩
  · rw [bareCalls_eq_filterMap, nestedCalls_eq_filterMap]
  · exact fun a => mem_addresses

end SyntaxTree

end BareCallGraph
