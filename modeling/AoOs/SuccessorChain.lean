import Mathlib.Tactic

/-! # Chains in a successor table

    A table gives every cell a successor value.  A chain starts at a cell, follows
    the successors through good cells and ends at a cell whose successor is an end
    mark.  The table is a function, so a chain is determined by its first cell,
    and a chain that ends cannot pass a cell twice.

    `Chain next good stop c l`: the chain from `c` visits the cells of `l`. -/

namespace SuccessorChain

variable {α : Type} {next next' : α → α} {good stop : α → Prop}

inductive Chain (next : α → α) (good stop : α → Prop) : α → List α → Prop
  | last {c : α} (hc : good c) (hs : stop (next c)) : Chain next good stop c [c]
  | link {c : α} {l : List α} (hc : good c) (hs : ¬ stop (next c))
      (h : Chain next good stop (next c) l) : Chain next good stop c (c :: l)

namespace Chain

variable {c : α} {l : List α} (h : Chain next good stop c l)

include h

theorem head : ∃ t, l = c :: t := by
  cases h with
  | last hc hs => exact ⟨[], rfl⟩
  | link hc hs h => exact ⟨_, rfl⟩

theorem mem_head : c ∈ l := by
  obtain ⟨t, rfl⟩ := h.head
  exact List.mem_cons_self

theorem ne_nil : l ≠ [] :=
  List.ne_nil_of_mem h.mem_head

theorem good_of_mem {x : α} (hx : x ∈ l) : good x := by
  induction h with
  | last hc hs => exact List.mem_singleton.mp hx ▸ hc
  | link hc hs h ih =>
    rcases List.mem_cons.mp hx with rfl | hx
    · exact hc
    · exact ih hx

/-- The table is a function, so the first cell determines the chain. -/
theorem unique {l' : List α} (h' : Chain next good stop c l') : l = l' := by
  induction h generalizing l' with
  | last hc hs =>
    cases h' with
    | last => rfl
    | link _ hs' _ => exact absurd hs hs'
  | link hc hs h ih =>
    cases h' with
    | last _ hs' => exact absurd hs' hs
    | link _ _ h' => rw [ih h']

/-- Every cell of a chain starts a chain of its own: the rest. -/
theorem suffix {x : α} (hx : x ∈ l) : ∃ l₁ l₂, l = l₁ ++ l₂ ∧ Chain next good stop x l₂ := by
  induction h with
  | last hc hs =>
    rw [List.mem_singleton.mp hx]
    exact ⟨[], _, rfl, .last hc hs⟩
  | link hc hs h ih =>
    rcases List.mem_cons.mp hx with rfl | hx
    · exact ⟨[], _, rfl, .link hc hs h⟩
    · obtain ⟨l₁, l₂, rfl, hl₂⟩ := ih hx
      exact ⟨_ :: l₁, l₂, rfl, hl₂⟩

/-- **A chain that ends passes no cell twice.** -/
theorem nodup : l.Nodup := by
  induction h with
  | last hc hs => exact List.nodup_singleton _
  | @link c l hc hs h ih =>
    refine List.nodup_cons.mpr ⟨fun hmem => ?_, ih⟩
    -- the chain from the second visit would be the whole chain, but it is shorter
    obtain ⟨l₁, l₂, rfl, hl₂⟩ := h.suffix hmem
    have heq := congrArg List.length ((Chain.link hc hs h).unique hl₂)
    simp only [List.length_cons, List.length_append] at heq
    omega

/-- A cell with a given successor on the chain: the successor of every cell is an end
    mark or a good cell of the chain. -/
theorem next_of_mem {x : α} (hx : x ∈ l) : stop (next x) ∨ next x ∈ l := by
  induction h with
  | last hc hs => exact .inl (List.mem_singleton.mp hx ▸ hs)
  | link hc hs h ih =>
    rcases List.mem_cons.mp hx with rfl | hx
    · exact .inr (List.mem_cons_of_mem _ h.mem_head)
    · exact (ih hx).imp id (List.mem_cons_of_mem _)

/-- A chain reads its own cells only. -/
theorem congr (heq : ∀ x ∈ l, next' x = next x) : Chain next' good stop c l := by
  induction h with
  | @last c hc hs =>
    exact .last hc ((heq c List.mem_cons_self).symm ▸ hs)
  | @link c l hc hs h ih =>
    have hhead := heq c List.mem_cons_self
    refine .link hc (hhead.symm ▸ hs) ?_
    rw [hhead]
    exact ih fun x hx => heq x (List.mem_cons_of_mem _ hx)

/-- A fresh cell linked to the last one lengthens the chain. -/
theorem extend {n : α} (hn : good n) (hnstop : ¬ stop n) (hend : stop (next' n)) (hkeep : ∀ x ∈ l, ¬
    stop (next x) → next' x = next x) (hlink : ∀ x ∈ l, stop (next x) → next' x = n) : Chain next'
    good stop c (l ++ [n]) := by
  induction h with
  | @last c hc hs =>
    have hnext := hlink c List.mem_cons_self hs
    refine .link hc (by rw [hnext]; exact hnstop) ?_
    rw [hnext]
    exact .last hn hend
  | @link c l hc hs h ih =>
    have hnext := hkeep c List.mem_cons_self hs
    refine .link hc (by rw [hnext]; exact hs) ?_
    rw [hnext]
    exact ih (fun x hx => hkeep x (List.mem_cons_of_mem _ hx))
      fun x hx => hlink x (List.mem_cons_of_mem _ hx)

/-- The cells of a chain are what the table walks through, and behind them comes an
    end mark. -/
theorem getElem_next {i : Nat} (hi : i + 1 < l.length) : next (l.get ⟨i, by omega⟩) = l.get ⟨i + 1,
    hi⟩ ∧ ¬ stop (l.get ⟨i + 1, hi⟩) := by
  induction h generalizing i with
  | last hc hs => simp at hi
  | @link c l hc hs h ih =>
    obtain ⟨t, rfl⟩ := h.head
    cases i with
    | zero => exact ⟨rfl, hs⟩
    | succ i => exact ih (by simpa using hi)

/-- Only the last cell of a chain has an end mark for a successor. -/
theorem stop_iff_last {x : α} (hx : x ∈ l) : stop (next x) ↔ x = l.getLast h.ne_nil := by
  induction h with
  | last hc hs =>
    rw [List.mem_singleton.mp hx]
    exact ⟨fun _ => rfl, fun _ => hs⟩
  | @link c l hc hs h ih =>
    have hlast : (c :: l).getLast (List.cons_ne_nil c l) = l.getLast h.ne_nil :=
      List.getLast_cons h.ne_nil
    rw [hlast]
    rcases List.mem_cons.mp hx with rfl | hmem
    · refine ⟨fun hs' => absurd hs' hs, fun heq => ?_⟩
      have hnodup := (Chain.link hc hs h).nodup
      exact absurd (heq ▸ List.getLast_mem h.ne_nil) (List.nodup_cons.mp hnodup).1
    · exact ih hmem

end Chain

end SuccessorChain
