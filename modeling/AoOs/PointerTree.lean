import Mathlib.Tactic

/-! # Pointer trees in a store

    A store maps nodes to indexed values; some values are pointers to further
    nodes.  `nodeAt` follows a path of indices from a root.  The lemmas say how
    the nodes of a tree change under the three things a program does to such a
    store: writing where no path leads, writing a value with the same pointer,
    and putting a node into a place, empty or not (`Replace`).

    Trees are looked at to a depth `D`: values of nodes at depth `D` are data,
    whatever they look like. -/

namespace PointerTree

variable {Node Idx Val : Type} {child : Val → Option Node}

/-- The node reached from `r` along a path. -/
def nodeAt (child : Val → Option Node) (μ : Node → Idx → Val) : Node → List Idx → Option Node
  | r, [] => some r
  | r, i :: p => (child (μ r i)).bind fun c => nodeAt child μ c p

variable {μ μ' : Node → Idx → Val} {r t c : Node} {p q : List Idx} {i : Idx} {D : Nat}

theorem length_snoc (p : List Idx) (i : Idx) : (p ++ [i]).length = p.length + 1 :=
  List.length_append

theorem length_snoc_le (h : p.length < D) : (p ++ [i]).length ≤ D := by
  rw [length_snoc]
  exact h

/-- A path is followed to its last node and then one step further. -/
theorem nodeAt_snoc : nodeAt child μ r (p ++ [i]) =
    (nodeAt child μ r p).bind fun t => child (μ t i) := by
  induction p generalizing r with
  | nil =>
    show (child (μ r i)).bind some = child (μ r i)
    exact Option.bind_fun_some _
  | cons j p ih =>
    show (child (μ r j)).bind _ = ((child (μ r j)).bind _).bind _
    rw [Option.bind_assoc]
    exact congrArg _ (funext fun c => ih)

/-- The node before the last step of a path exists if the last one does. -/
theorem nodeAt_parent {c : Node} (h : nodeAt child μ r (p ++ [i]) = some c) :
    ∃ t, nodeAt child μ r p = some t ∧ child (μ t i) = some c := by
  rw [nodeAt_snoc] at h
  exact Option.bind_eq_some_iff.mp h

/-- So does every node on the way to one that exists. -/
theorem nodeAt_of_append {u : Node} (h : nodeAt child μ r (p ++ q) = some u) :
    ∃ t, nodeAt child μ r p = some t := by
  induction q using List.reverseRecOn generalizing u with
  | nil => exact ⟨u, by rwa [List.append_nil] at h⟩
  | append_singleton q i ih =>
    rw [← List.append_assoc] at h
    obtain ⟨t, ht, -⟩ := nodeAt_parent h
    exact ih ht

/-- Stores with the same pointers in all nodes above depth `D` of one of them
    have the same nodes to depth `D`. -/
theorem nodeAt_congr
    (h : ∀ q t, q.length < D → nodeAt child μ r q = some t → ∀ i, child (μ' t i) = child (μ t i))
    (hp : p.length ≤ D) : nodeAt child μ' r p = nodeAt child μ r p := by
  induction p using List.reverseRecOn with
  | nil => rfl
  | append_singleton q i ih =>
    rw [length_snoc] at hp
    rw [nodeAt_snoc, nodeAt_snoc, ih (by omega)]
    cases hq : nodeAt child μ r q with
    | none => rfl
    | some t => exact h q t (by omega) hq i

/-- No node is at two paths of length `D` at most. -/
def Tree (child : Val → Option Node) (μ : Node → Idx → Val) (D : Nat) (r : Node) : Prop :=
  ∀ {p q t}, p.length ≤ D → q.length ≤ D → nodeAt child μ r p = some t →
    nodeAt child μ r q = some t → p = q

/-- Place `i` of the node `t` at path `p` is made to point to `c`: the node that hung there,
    or one that was at no path.  It holds what the node that hung there held, and if there was
    none, it has no pointers; nothing else has changed. -/
structure Replace (child : Val → Option Node) (μ μ' : Node → Idx → Val) (D : Nat) (r : Node)
    (p : List Idx) (t : Node) (i : Idx) (c : Node) : Prop where
  tree : Tree child μ D r
  inside : p.length < D
  place : nodeAt child μ r p = some t
  points : child (μ' t i) = some c
  new : child (μ t i) = some c ∨ ∀ q u, q.length ≤ D → nodeAt child μ r q = some u → u ≠ c
  body : ∀ s, child (μ t i) = some s → μ' c = μ s
  leaf : child (μ t i) = none → p.length + 1 < D → ∀ j, child (μ' c j) = none
  rest : ∀ u j, u ≠ c → (u ≠ t ∨ j ≠ i) → μ' u j = μ u j

namespace Replace

variable {u : Node} {j : Idx} (h : Replace child μ μ' D r p t i c)

include h

theorem ne_new (hq : q.length ≤ D) (hu : nodeAt child μ r q = some u) (hne : q ≠ p ++ [i]) :
    u ≠ c := by
  rintro rfl
  rcases h.new with hold | hnew
  · refine hne (h.tree hq (length_snoc_le h.inside) hu ?_)
    rw [nodeAt_snoc, h.place]
    exact hold
  · exact hnew q u hq hu rfl

/-- Values at other places are as before. -/
theorem value (hq : q.length ≤ D) (hu : nodeAt child μ r q = some u) (hne : q ≠ p ++ [i])
    (hplace : q ≠ p ∨ j ≠ i) : μ' u j = μ u j := by
  refine h.rest u j (h.ne_new hq hu hne) (hplace.imp_left ?_)
  rintro hqp rfl
  exact hqp (h.tree hq h.inside.le hu h.place)

/-- **The replacement rule**: the place has a new node, every other path leads
    where it did. -/
theorem nodes [DecidableEq Idx] (hq : q.length ≤ D) :
    nodeAt child μ' r q = if q = p ++ [i] then some c else nodeAt child μ r q := by
  induction q using List.reverseRecOn with
  | nil =>
    rw [if_neg (by simp)]
    rfl
  | append_singleton q j ih =>
    rw [length_snoc] at hq
    rw [nodeAt_snoc, ih (by omega)]
    by_cases hnew : q = p ++ [i]
    · -- below the new node is what was below the old one
      subst hnew
      rw [length_snoc] at hq
      rw [if_pos rfl, if_neg (by simp), nodeAt_snoc, nodeAt_snoc, h.place, Option.bind_some,
        Option.bind_some]
      cases hs : child (μ t i) with
      | none => exact h.leaf hs (by omega) j
      | some s => exact congrArg child (congrFun (h.body s hs) j)
    · rw [if_neg hnew]
      by_cases hplace : q = p ∧ j = i
      · obtain ⟨rfl, rfl⟩ := hplace
        rw [if_pos rfl, h.place]
        exact h.points
      · rw [if_neg fun heq => hplace (List.append_singleton_inj.mp heq), nodeAt_snoc]
        cases hu : nodeAt child μ r q with
        | none => rfl
        | some u =>
          exact congrArg child (h.value (by omega) hu hnew (not_and_or.mp hplace))

/-- Every node is the new one or was there. -/
theorem node_cases (hq : q.length ≤ D) (hu : nodeAt child μ' r q = some u) :
    q = p ++ [i] ∧ u = c ∨ q ≠ p ++ [i] ∧ nodeAt child μ r q = some u := by
  classical
  rw [h.nodes hq] at hu
  split at hu
  · exact .inl ⟨‹_›, (Option.some.inj hu).symm⟩
  · exact .inr ⟨‹_›, hu⟩

theorem tree_after : Tree child μ' D r := by
  intro q q' u hq hq' hu hu'
  rcases h.node_cases hq hu with ⟨rfl, rfl⟩ | ⟨hne, hu⟩
  · rcases h.node_cases hq' hu' with ⟨rfl, -⟩ | ⟨hne', hu'⟩
    · rfl
    · exact absurd rfl (h.ne_new hq' hu' hne')
  · rcases h.node_cases hq' hu' with ⟨rfl, rfl⟩ | ⟨-, hu'⟩
    · exact absurd rfl (h.ne_new hq hu hne)
    · exact h.tree hq hq' hu hu'

/-- A value afterwards is one that was at its path, or it is at the place, or it is in a new
    node where there was none. -/
theorem value_cases (hq : q.length ≤ D) (hu : nodeAt child μ' r q = some u) (j : Idx) :
    (∃ s, nodeAt child μ r q = some s ∧ μ' u j = μ s j) ∨ (q = p ∧ u = t ∧ j = i) ∨
      q = p ++ [i] ∧ u = c ∧ nodeAt child μ r q = none := by
  rcases h.node_cases hq hu with ⟨rfl, rfl⟩ | ⟨hne, hu⟩
  · cases hs : nodeAt child μ r (p ++ [i]) with
    | none => exact .inr (.inr ⟨rfl, rfl, rfl⟩)
    | some s =>
      rw [nodeAt_snoc, h.place] at hs
      exact .inl ⟨s, rfl, congrFun (h.body s hs) j⟩
  · by_cases hplace : q = p ∧ j = i
    · obtain ⟨rfl, rfl⟩ := hplace
      exact .inr (.inl ⟨rfl, Option.mem_unique hu h.place, rfl⟩)
    · exact .inl ⟨u, hu, h.value hq hu hne (not_and_or.mp hplace)⟩

end Replace

end PointerTree
