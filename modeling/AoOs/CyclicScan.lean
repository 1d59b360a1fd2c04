import Mathlib.Tactic

/-! # Scanning a ring

    The places `0 … N - 1` on a ring, looked at one after the other from behind a cursor
    on.  `ahead N c i` is how many steps a scan from the cursor `c` takes to place `i`, at
    least one and at most a full turn.  A cursor that moves to a place the scan passes
    before it comes to `i` gets nearer to `i`. -/

namespace CyclicScan

variable {c i : Nat}

variable {N : Nat}

/-- The steps from `c` to `i`. -/
def ahead (N c i : Nat) : Nat := if i ≤ c % N then i + N - c % N else i - c % N

theorem ahead_pos (hi : i < N) : 1 ≤ ahead N c i := by
  have hc := Nat.mod_lt c (show 0 < N by omega)
  rw [ahead]
  split <;> omega

theorem ahead_le (hi : i < N) : ahead N c i ≤ N := by
  rw [ahead]
  split <;> omega

/-- Going on from `c` by less than a turn. -/
theorem add_mod_cases {k : Nat} (hN : 0 < N) (hk : k ≤ N) :
    c % N + k < N ∧ (c + k) % N = c % N + k ∨ N ≤ c % N + k ∧ (c + k) % N = c % N + k - N := by
  have hc := Nat.mod_lt c hN
  rw [Nat.add_mod]
  rcases Nat.lt_or_eq_of_le hk with hk | rfl
  · rw [Nat.mod_eq_of_lt hk]
    by_cases h : c % N + k < N
    · exact .inl ⟨h, Nat.mod_eq_of_lt h⟩
    · refine .inr ⟨by omega, ?_⟩
      rw [Nat.mod_eq_sub_mod (by omega), Nat.mod_eq_of_lt (by omega)]
  · rw [Nat.mod_self, Nat.add_zero, Nat.mod_mod]
    exact .inr ⟨by omega, by omega⟩

theorem add_ahead (c : Nat) (hi : i < N) : (c + ahead N c i) % N = i := by
  have hc := Nat.mod_lt c (show 0 < N by omega)
  have hcases := add_mod_cases (N := N) (c := c) (by omega) (ahead_le (c := c) hi)
  by_cases h : i ≤ c % N
  · have ha : ahead N c i = i + N - c % N := if_pos h
    omega
  · have ha : ahead N c i = i - c % N := if_neg h
    omega

/-- **Places before `i` are nearer to it.** -/
theorem ahead_lt {k : Nat} (hi : i < N) (hk : 1 ≤ k) (hlt : k < ahead N c i) :
    ahead N ((c + k) % N) i < ahead N c i := by
  have hc := Nat.mod_lt c (show 0 < N by omega)
  have hle := ahead_le (c := c) hi
  have hstep := add_mod_cases (N := N) (c := c) (k := k) (by omega) (by omega)
  rw [ahead, Nat.mod_mod]
  rw [ahead] at *
  generalize (c + k) % N = d at *
  generalize c % N = e at *
  split at hlt <;> split <;> omega

end CyclicScan
