import Mathlib.Tactic

/-! # Moving-anchor cycle detection

    A walk `x 0, x 1, …` along a function is compared, step by step, with an
    anchor that jumps to the current position after 1, 3, 7, … steps: at step
    `j` with `2^k ≤ j < 2^(k+1)` the anchor is `x (2^k - 1)`.  The comparison
    needs constant space, but it does not see a repetition the moment it
    happens.

    For a walk of tail length `μ` and cycle length `p` this file says exactly
    which prefixes get through unnoticed: a prefix of `n` elements does, unless
    some power of two `2^k ≥ μ + 1, p` has `2^k + p ≤ n`
    (`unnoticed_iff`).  Between `μ + p` and that bound lie the repeating
    prefixes that the anchor misses. -/

namespace BrentWalk

variable {i μ p : Nat}

variable {α : Type} {x : Nat → α}

/-- The walk is an orbit: equal positions have equal successors. -/
def Orbit (x : Nat → α) : Prop := ∀ i j, x i = x j → x (i + 1) = x (j + 1)

/-- A rho: `μ` elements of tail, then a cycle of `p`, all of them distinct. -/
structure Rho (x : Nat → α) (μ p : Nat) : Prop where
  pos : 0 < p
  close : x (μ + p) = x μ
  inj : ∀ i j, i < μ + p → j < μ + p → x i = x j → i = j

/-- The first `n` elements pass the anchor comparison. -/
def Unnoticed (x : Nat → α) (n : Nat) : Prop :=
  ∀ k j, 2 ^ k ≤ j → j < 2 ^ (k + 1) → j < n → x j ≠ x (2 ^ k - 1)

/-- The first `n` elements are pairwise distinct. -/
def Distinct (x : Nat → α) (n : Nat) : Prop := ∀ i j, i < j → j < n → x i ≠ x j

/-- An orbit of a function. -/
theorem orbit_of_step {f : α → α} (h : ∀ i, x (i + 1) = f (x i)) : Orbit x := by
  intro i j hij
  rw [h i, h j, hij]

/-- Equal positions stay equal any number of steps later. -/
theorem Orbit.add (hx : Orbit x) {j : Nat} (h : x i = x j) (m) : x (i + m) = x (j + m) := by
  induction m with
  | zero => exact h
  | succ m ih => exact hx _ _ ih

/-- An orbit among `b` values that ever meets `P` does so in its first `b` positions. -/
theorem Orbit.meets_early {x : Nat → Nat} (hx : Orbit x) {b : Nat} (hlt : ∀ i, x i < b)
    {P : Nat → Prop} (h : ∃ k, P (x k)) : ∃ k, k < b ∧ P (x k) := by
  classical
  refine ⟨Nat.find h, ?_, Nat.find_spec h⟩
  by_contra hlate
  -- two of the positions up to the first meeting are equal, and the later one is superfluous
  obtain ⟨i, hi, j, hj, hne, heq⟩ := Finset.exists_ne_map_eq_of_card_lt_of_maps_to
    (s := Finset.range (Nat.find h + 1)) (t := Finset.range b) (f := x)
    (by rw [Finset.card_range, Finset.card_range]; omega)
    (fun i _ => Finset.mem_coe.mpr (Finset.mem_range.mpr (hlt i)))
  rw [Finset.mem_range] at hi hj
  have hearlier : ∀ i j, i < j → j < Nat.find h + 1 → x i = x j → False := by
    intro i j hij hj heq
    have hm := hx.add heq (Nat.find h - j)
    rw [show j + (Nat.find h - j) = Nat.find h by omega] at hm
    exact Nat.find_min h (m := i + (Nat.find h - j)) (by omega) (hm ▸ Nat.find_spec h)
  rcases Nat.lt_or_gt_of_ne hne with hij | hij
  · exact hearlier i j hij hj heq
  · exact hearlier j i hij hi heq.symm

/-- Past the tail the walk has period `p`. -/
theorem Rho.period (hr : Rho x μ p) (hx : Orbit x) (hi : μ ≤ i) (m) : x (i + p * m) = x i := by
  induction m with
  | zero => rfl
  | succ m ih =>
    have hstep : x (i + p) = x i := by
      have h := hx.add hr.close (i - μ)
      rw [show μ + p + (i - μ) = i + p by omega, show μ + (i - μ) = i by omega] at h
      exact h
    have h := hx.add hstep (p * m)
    rw [show i + p * (m + 1) = i + p + p * m by rw [Nat.mul_succ]; omega, h, ih]

/-- Where two positions of a rho coincide: on the cycle, a multiple of its
    length apart. -/
theorem Rho.eq_iff (hr : Rho x μ p) (hx : Orbit x) {j : Nat} (hij : i < j) :
    x i = x j ↔ μ ≤ i ∧ p ∣ j - i := by
  have hp := hr.pos
  -- every position past the tail has a representative in the first lap
  have hrep : ∀ m, μ ≤ m → x m = x (μ + (m - μ) % p) := by
    intro m hm
    have h := hr.period hx (Nat.le_add_right μ ((m - μ) % p)) ((m - μ) / p)
    rw [← h]
    congr 1
    have := Nat.mod_add_div (m - μ) p
    omega
  have hlt : ∀ m, μ + (m - μ) % p < μ + p := by
    intro m
    have := Nat.mod_lt (m - μ) hp
    omega
  constructor
  · intro h
    by_cases hi : μ ≤ i
    · refine ⟨hi, ?_⟩
      have h1 : x (μ + (i - μ) % p) = x (μ + (j - μ) % p) := by
        rw [← hrep i hi, ← hrep j (by omega), h]
      have h2 := hr.inj _ _ (hlt i) (hlt j) h1
      have h3 : (i - μ) % p = (j - μ) % p := by omega
      have h4 := (Nat.modEq_iff_dvd' (show i - μ ≤ j - μ by omega)).mp h3
      rwa [show j - μ - (i - μ) = j - i by omega] at h4
    · exfalso
      by_cases hj : j < μ + p
      · exact absurd (hr.inj i j (by omega) hj h) (by omega)
      · rw [hrep j (by omega)] at h
        have := hr.inj i _ (by omega) (hlt j) h
        omega
  · rintro ⟨hi, m, hm⟩
    rw [← hr.period hx hi m, ← hm]
    congr 1
    omega

/-- A walk with a repetition among its first `n` elements is a rho that closes
    before `n`. -/
theorem exists_rho {n : Nat} (h : ¬ Distinct x n) : ∃ μ p, Rho x μ p ∧ μ + p < n := by
  classical
  unfold Distinct at h
  push Not at h
  obtain ⟨i, j, hij, hjn, hx⟩ := h
  have hex : ∃ j, ∃ i, i < j ∧ x i = x j := ⟨j, i, hij, hx⟩
  obtain ⟨μ, hμ, heq⟩ := Nat.find_spec hex
  have hmin : ∀ a b, a < b → b < Nat.find hex → x a ≠ x b := by
    intro a b hab hb hxab
    exact Nat.find_min hex hb ⟨a, hab, hxab⟩
  have hle : Nat.find hex ≤ j := Nat.find_min' hex ⟨i, hij, hx⟩
  refine ⟨μ, Nat.find hex - μ, ⟨by omega, ?_, ?_⟩, by omega⟩
  · rw [show μ + (Nat.find hex - μ) = Nat.find hex by omega]
    exact heq.symm
  · intro a b ha hb hab
    rcases Nat.lt_trichotomy a b with hlt | he | hgt
    · exact absurd hab (hmin a b hlt (by omega))
    · exact he
    · exact absurd hab.symm (hmin b a hgt (by omega))

/-- A distinct prefix is never reported. -/
theorem unnoticed_of_distinct {n : Nat} (h : Distinct x n) : Unnoticed x n := by
  intro k j hk _ hjn heq
  have : 0 < 2 ^ k := Nat.two_pow_pos k
  exact h (2 ^ k - 1) j (by omega) hjn heq.symm

/-- **What the moving anchor misses.**  A prefix of a rho goes unnoticed exactly
    when no power of two at least `μ + 1` and `p` has room for one more lap. -/
theorem unnoticed_iff (hr : Rho x μ p) (hx : Orbit x) (n : Nat) :
    Unnoticed x n ↔ ¬ ∃ k, μ + 1 ≤ 2 ^ k ∧ p ≤ 2 ^ k ∧ 2 ^ k + p ≤ n := by
  have hp := hr.pos
  constructor
  · rintro h ⟨k, hμ, hpk, hn⟩
    -- the comparison one lap after the anchor `x (2^k - 1)` hits
    refine h k (2 ^ k - 1 + p) (by omega) (by rw [Nat.pow_succ]; omega) (by omega) ?_
    refine ((hr.eq_iff hx (show 2 ^ k - 1 < 2 ^ k - 1 + p by omega)).mpr ⟨by omega, ?_⟩).symm
    rw [Nat.add_sub_cancel_left]
  · intro h k j hk hj hjn heq
    apply h
    obtain ⟨hμ, m, hm⟩ := (hr.eq_iff hx (show 2 ^ k - 1 < j by
      have := Nat.two_pow_pos k
      omega)).mp heq.symm
    rw [Nat.pow_succ] at hj
    have hpos := Nat.two_pow_pos k
    have hm0 : m ≠ 0 := by
      rintro rfl
      omega
    have hpm : p ≤ p * m := Nat.le_mul_of_pos_right p (Nat.pos_of_ne_zero hm0)
    exact ⟨k, by omega, by omega, by omega⟩

/-- The prefixes on which a passed comparison does mean "no repetition". -/
theorem distinct_of_unnoticed_iff (hx : Orbit x) (n : Nat) :
    (Unnoticed x n → Distinct x n) ↔
      Distinct x n ∨ ∃ μ p, Rho x μ p ∧ ∃ k, μ + 1 ≤ 2 ^ k ∧ p ≤ 2 ^ k ∧ 2 ^ k + p ≤ n := by
  constructor
  · intro h
    by_cases hd : Distinct x n
    · exact Or.inl hd
    · obtain ⟨μ, p, hr, -⟩ := exists_rho hd
      refine Or.inr ⟨μ, p, hr, ?_⟩
      by_contra hk
      exact hd (h ((unnoticed_iff hr hx n).mpr hk))
  · rintro (hd | ⟨μ, p, hr, hk⟩) hu
    · exact hd
    · exact absurd hk ((unnoticed_iff hr hx n).mp hu)

end BrentWalk
