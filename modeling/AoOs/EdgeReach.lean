import Mathlib.Logic.Relation

/-! # Reachability when edges change

    What is reachable from a root, before and after a change of the edges: nothing
    changes when the edges out of the reachable nodes stay.  In a graph without two
    edges to one node and without an edge to the root, nothing reachable lies on a
    cycle: what is reachable is a tree. -/

namespace EdgeReach

open Relation

variable {α : Type} {r r' : α → α → Prop} {a : α}

theorem reach_of_edges (h : ∀ x, ReflTransGen r a x → ∀ y, r x y → r' x y) {x : α}
    (hx : ReflTransGen r a x) : ReflTransGen r' a x := by
  induction hx with
  | refl => exact .refl
  | tail hx hedge ih => exact ih.tail (h _ hx _ hedge)

/-- The reachable nodes depend only on the edges out of reachable nodes. -/
theorem reach_congr (h : ∀ x, ReflTransGen r a x → ∀ y, r x y ↔ r' x y) (x : α) :
    ReflTransGen r a x ↔ ReflTransGen r' a x := by
  refine ⟨reach_of_edges fun x hx y => (h x hx y).mp, fun hx => ?_⟩
  induction hx with
  | refl => exact .refl
  | tail _ hedge ih => exact ih.tail ((h _ ih _).mpr hedge)

/-- **No cycles**: the node before a reachable node is unique, so a cycle would lead
    back to the root. -/
theorem no_cycle
    (huniq : ∀ {x y z}, ReflTransGen r a x → ReflTransGen r a y → r x z → r y z → x = y)
    (hroot : ∀ {x}, ReflTransGen r a x → ¬ r x a) {x : α} (hx : ReflTransGen r a x) :
    ¬ TransGen r x x := by
  induction hx with
  | refl =>
    intro hcycle
    obtain ⟨y, hy, hedge⟩ := TransGen.tail'_iff.mp hcycle
    exact hroot hy hedge
  | @tail p x hp hpx ih =>
    intro hcycle
    obtain ⟨q, hq, hedge⟩ := TransGen.tail'_iff.mp hcycle
    obtain rfl := huniq ((hp.tail hpx).trans hq) hp hedge hpx
    exact ih (TransGen.head' hpx hq)

end EdgeReach
