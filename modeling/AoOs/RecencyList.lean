import Mathlib.Data.List.Nodup
import Mathlib.Tactic

/-! # Recency — the distinct elements of a history, latest first

    A history lists the uses of elements, the latest first.  `recency` keeps the
    latest use of each element, `lastUse` is its number.  A cache of size `n` that
    always gives up what has not been used for longest holds the first `n` elements
    of `recency`; the two lemmas about `take` say what one more use does to them. -/

namespace RecencyList

variable {α : Type} [DecidableEq α]

/-- The elements of a history without repetition, the latest used first. -/
def recency : List α → List α
  | [] => []
  | a :: h => a :: (recency h).filter (· ≠ a)

/-- The number of the latest use of an element, counted from one; zero if it has
    not been used. -/
def lastUse : List α → α → Nat
  | [], _ => 0
  | a :: h, x => if a = x then h.length + 1 else lastUse h x

variable {h : List α} {x y : α} {n : Nat}

theorem mem_recency : x ∈ recency h ↔ x ∈ h := by
  induction h with
  | nil => exact Iff.rfl
  | cons a h ih =>
    by_cases hx : x = a
    · simp [recency, hx]
    · simp [recency, hx, ih]

theorem recency_nodup (h : List α) : (recency h).Nodup := by
  induction h with
  | nil => exact List.nodup_nil
  | cons a h ih => exact List.nodup_cons.mpr ⟨by simp, ih.filter _⟩

theorem lastUse_le (h : List α) (x : α) : lastUse h x ≤ h.length := by
  induction h with
  | nil => exact Nat.le_refl _
  | cons a h ih =>
    rw [lastUse, List.length_cons]
    split <;> omega

theorem lastUse_cons_self (x : α) (h : List α) : lastUse (x :: h) x = h.length + 1 := if_pos rfl

theorem lastUse_cons_other (h : List α) (hne : x ≠ y) : lastUse (y :: h) x = lastUse h x :=
  if_neg fun heq => hne heq.symm

/-- Earlier in the list is used later. -/
theorem recency_sorted (h : List α) :
    (recency h).Pairwise fun x y => lastUse h y < lastUse h x := by
  induction h with
  | nil => exact .nil
  | cons a h ih =>
    rw [recency, List.pairwise_cons]
    constructor
    · intro y hy
      have hya : y ≠ a := by simpa using (List.mem_filter.mp hy).2
      rw [lastUse_cons_self, lastUse_cons_other h hya]
      exact Nat.lt_succ_of_le (lastUse_le h y)
    · refine (ih.filter _).imp_of_mem fun {x y} hx hy hlt => ?_
      have hxa : x ≠ a := by simpa using (List.mem_filter.mp hx).2
      have hya : y ≠ a := by simpa using (List.mem_filter.mp hy).2
      rwa [lastUse_cons_other h hya, lastUse_cons_other h hxa]

/-! ## One more use -/

/-- Taking out one of the first `n` elements brings the next one up. -/
theorem mem_take_filter {l : List α} (hl : l.Nodup) (hx : x ∈ l.take (n + 1)) :
    y ∈ (l.filter (· ≠ x)).take n ↔ y ∈ l.take (n + 1) ∧ y ≠ x := by
  induction l generalizing n with
  | nil => cases hx
  | cons a l ih =>
    obtain ⟨hal, hl⟩ := List.nodup_cons.mp hl
    rw [List.take_succ_cons, List.mem_cons] at hx ⊢
    by_cases hax : a = x
    · subst hax
      have hkeep : l.filter (· ≠ a) = l := List.filter_eq_self.mpr fun b hb => by
        simpa using fun heq : b = a => hal (heq ▸ hb)
      rw [List.filter_cons_of_neg (by simp), hkeep]
      refine ⟨fun hy => ⟨.inr hy, ?_⟩, fun ⟨hy, hne⟩ => hy.resolve_left hne⟩
      rintro rfl
      exact hal (List.mem_of_mem_take hy)
    · have hx := hx.resolve_left fun heq => hax heq.symm
      rw [List.filter_cons_of_pos (by simpa using hax)]
      cases n with
      | zero => cases hx
      | succ n =>
        rw [List.take_succ_cons, List.mem_cons, ih hl hx, or_and_right]
        exact ⟨fun h => h.imp_left fun heq => ⟨heq, heq ▸ hax⟩, fun h => h.imp_left And.left⟩

/-- **A hit**: an element among the first `n + 1` is used again. -/
theorem mem_take_recency_hit (hx : x ∈ (recency h).take (n + 1)) :
    y ∈ (recency (x :: h)).take (n + 1) ↔ y ∈ (recency h).take (n + 1) := by
  rw [recency, List.take_succ_cons, List.mem_cons, mem_take_filter (recency_nodup h) hx]
  by_cases hy : y = x
  · simp [hy, hx]
  · simp [hy]

/-- What is not among the first `n` elements can be taken out unnoticed. -/
theorem take_filter_of_not_mem {l : List α} (hx : x ∉ l.take n) :
    (l.filter (· ≠ x)).take n = l.take n := by
  induction l generalizing n with
  | nil => rfl
  | cons a l ih =>
    cases n with
    | zero => rfl
    | succ n =>
      rw [List.take_succ_cons, List.mem_cons, not_or] at hx
      rw [List.filter_cons_of_pos (by simpa using fun heq : a = x => hx.1 heq.symm),
        List.take_succ_cons, List.take_succ_cons, ih hx.2]

/-- **A miss**: the first `n` elements move up, and the one behind them falls
    out. -/
theorem take_recency_miss (hx : x ∉ (recency h).take (n + 1)) :
    (recency (x :: h)).take (n + 1) = x :: (recency h).take n := by
  have hx' : x ∉ (recency h).take n := fun hmem => hx (List.take_subset_take_left _ (by omega) hmem)
  rw [recency, List.take_succ_cons, take_filter_of_not_mem hx']

/-- What the first `n` of `n + 1` elements are: all but the one that has not been
    used for longest. -/
theorem mem_take_of_least {z : α} (hlen : n < (recency h).length)
    (hz : z ∈ (recency h).take (n + 1))
    (hleast : ∀ y ∈ (recency h).take (n + 1), lastUse h z ≤ lastUse h y) :
    y ∈ (recency h).take n ↔ y ∈ (recency h).take (n + 1) ∧ y ≠ z := by
  have hsplit : (recency h).take (n + 1) = (recency h).take n ++ [(recency h)[n]] :=
    (List.take_append_getElem hlen).symm
  have hnodup : ((recency h).take (n + 1)).Nodup := (recency_nodup h).take
  have hsorted : ((recency h).take (n + 1)).Pairwise fun x y => lastUse h y < lastUse h x :=
    (recency_sorted h).take
  rw [hsplit] at hz hleast hnodup hsorted ⊢
  have hlast : z = (recency h)[n] := by
    rcases List.mem_append.mp hz with hmem | hmem
    · have hlt := (List.pairwise_append.mp hsorted).2.2 z hmem _ (List.mem_singleton_self _)
      have hle := hleast _ (List.mem_append_right _ (List.mem_singleton_self _))
      omega
    · exact List.mem_singleton.mp hmem
  rw [List.mem_append, List.mem_singleton, ← hlast]
  refine ⟨fun hy => ⟨.inl hy, ?_⟩, fun ⟨hy, hne⟩ => hy.resolve_right hne⟩
  rintro rfl
  rw [← hlast] at hnodup
  exact (List.nodup_append.mp hnodup).2.2 y hy y (List.mem_singleton_self _) rfl

theorem length_recency (h : List α) : (recency h).length = h.toFinset.card := by
  rw [← List.toFinset_card_of_nodup (recency_nodup h)]
  congr 1
  ext x
  rw [List.mem_toFinset, List.mem_toFinset, mem_recency]

end RecencyList
