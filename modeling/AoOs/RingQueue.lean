import Mathlib.Tactic

/-! # Queues in a ring

    A ring of `n` cells with two indices: the elements stand from `tail` up to, but not
    including, `head`, and go on at cell 0 behind the last one.  One cell stays unused, so
    that equal indices mean an empty queue.  Cells outside the queue may hold anything. -/

namespace RingQueue

variable {α : Type} {n tail head : Nat}

/-- An index that may have passed the end of the ring. -/
def wrap (n i : Nat) : Nat := if i < n then i else i - n

theorem mod_eq_wrap {i : Nat} (h : i < n + n) : i % n = wrap n i := by
  rw [wrap]
  split
  · exact Nat.mod_eq_of_lt ‹_›
  · rw [Nat.mod_eq_sub_mod (by omega), Nat.mod_eq_of_lt (by omega)]

theorem wrap_lt {i : Nat} (hi : i < n) : wrap n (i + 1) < n := by
  rw [wrap]
  split <;> omega

/-- The number of elements. -/
def size (n tail head : Nat) : Nat := if tail ≤ head then head - tail else head + n - tail

/-- The elements, the one that is next first. -/
def contents (n : Nat) (cell : Nat → α) (tail head : Nat) : List α :=
  (List.range (size n tail head)).map fun k => cell (wrap n (tail + k))

theorem length_contents (cell : Nat → α) :
    (contents n cell tail head).length = size n tail head := by
  rw [contents, List.length_map, List.length_range]

theorem contents_empty (cell : Nat → α) : contents n cell tail tail = [] := by
  rw [contents, size, if_pos (Nat.le_refl _), Nat.sub_self]
  rfl

section Bounds

variable (ht : tail < n) (hh : head < n)

include ht hh

theorem size_lt : size n tail head < n := by
  rw [size]
  split <;> omega

/-- The ring is full when the index behind `head` is `tail`. -/
theorem size_full (h : wrap n (head + 1) = tail) : size n tail head = n - 1 := by
  rw [wrap] at h
  rw [size]
  split at h <;> split <;> omega

theorem size_push (h : wrap n (head + 1) ≠ tail) :
    size n tail (wrap n (head + 1)) = size n tail head + 1 := by
  rw [wrap] at h ⊢
  rw [size, size]
  split_ifs at h ⊢ <;> omega

theorem size_pop (h : tail ≠ head) : size n tail head = size n (wrap n (tail + 1)) head + 1 := by
  rw [wrap, size, size]
  split <;> split <;> split <;> omega

/-- The cell behind the elements is the one at `head`. -/
theorem wrap_size : wrap n (tail + size n tail head) = head := by
  rw [wrap, size]
  split <;> split <;> omega

omit hh in
/-- The elements are not at `head`. -/
theorem wrap_ne_head {k : Nat} (hk : k < size n tail head) : wrap n (tail + k) ≠ head := by
  rw [size] at hk
  rw [wrap]
  split at hk <;> split <;> omega

/-- **Storing at `head`** puts an element behind the others. -/
theorem contents_push (cell : Nat → α) (x : α) (h : wrap n (head + 1) ≠ tail) :
    contents n (fun i => if i = head then x else cell i) tail (wrap n (head + 1)) =
      contents n cell tail head ++ [x] := by
  rw [contents, size_push ht hh h, List.range_succ, List.map_append, contents]
  refine congrArg₂ (· ++ ·) (List.map_congr_left fun k hk => ?_) ?_
  · exact if_neg (wrap_ne_head ht (List.mem_range.mp hk))
  · rw [List.map_singleton, wrap_size ht hh, if_pos rfl]

/-- **Moving `tail`** takes the first element away. -/
theorem contents_pop (cell : Nat → α) (h : tail ≠ head) :
    contents n cell tail head = cell tail :: contents n cell (wrap n (tail + 1)) head := by
  rw [contents, size_pop ht hh h, List.range_succ_eq_map, List.map_cons, List.map_map, contents]
  refine congrArg₂ List.cons ?_ (List.map_congr_left fun k hk => ?_)
  · rw [Nat.add_zero, wrap, if_pos ht]
  · refine congrArg cell ?_
    have hlt := size_lt ht hh
    have hk := List.mem_range.mp hk
    rw [size_pop ht hh h] at hlt
    simp only [wrap]
    split <;> split <;> split <;> omega

end Bounds

end RingQueue
