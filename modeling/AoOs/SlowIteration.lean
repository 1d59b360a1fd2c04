import Mathlib.Tactic
import Mathlib.Order.Iterate

/-! # Iterating a slowly falling map

    A size that depends on itself through what it leaves over — a table that has
    to describe the space it does not occupy — is a fixed point of a map `g` that
    FALLS.  Iterating such a map overshoots and undershoots in turn, and if no
    size is exactly right it ends in a two-cycle.

    For a map that falls slowly (by less than one in 64, up to rounding) this is
    the whole story: either `g` has a fixed point, and iteration reaches it within
    eight rounds from any 32-bit start, or `g` alternates between two neighbours
    and an even number of rounds from below ends on the smaller one. -/

namespace SlowIteration

/-- A map that falls, by at most one in 64 and one more for rounding. -/
structure Slow (g : Nat → Nat) : Prop where
  antitone : Antitone g
  slope : ∀ a b, a ≤ b → g a ≤ g b + (b - a) / 64 + 1

variable {g : Nat → Nat}

/-- From a start below its image, every even iterate is below its image. -/
theorem iterate_even_le (hg : Antitone g) {f : Nat} (h : f ≤ g f) (n : Nat) :
    g^[2 * n] f ≤ g (g^[2 * n] f) := by
  induction n with
  | zero => exact h
  | succ n ih =>
    have hup : g (g (g^[2 * n] f)) ≤ g (g^[2 * n] f) := hg ih
    rw [show 2 * (n + 1) = 2 * n + 1 + 1 from rfl, Function.iterate_succ_apply',
      Function.iterate_succ_apply']
    exact hg hup

/-- Distance at most `e` from `F`, on either side. -/
def Within (e F x : Nat) : Prop := x ≤ F + e ∧ F ≤ x + e

/-- One round brings an iterate 64 times closer to a fixed point. -/
theorem Slow.within (hg : Slow g) {F e x : Nat} (hF : g F = F) (h : Within e F x) :
    Within (e / 64 + 1) F (g x) := by
  obtain ⟨h1, h2⟩ := h
  rcases Nat.le_total x F with hx | hx
  · have hlow := hg.antitone hx
    have hup := hg.slope x F hx
    rw [hF] at hlow hup
    have hdist : (F - x) / 64 ≤ e / 64 := Nat.div_le_div_right (by omega)
    exact ⟨by omega, by omega⟩
  · have hup := hg.antitone hx
    have hlow := hg.slope F x hx
    rw [hF] at hlow hup
    have hdist : (x - F) / 64 ≤ e / 64 := Nat.div_le_div_right (by omega)
    exact ⟨by omega, by omega⟩

/-- A neighbour of the fixed point is two rounds away from it: it cannot be
    thrown to the other side and back. -/
theorem Slow.settle (hg : Slow g) {F x : Nat} (hF : g F = F) (h : Within 1 F x) : g (g x) = F := by
  obtain ⟨h1, h2⟩ := h
  have hcases : x = F ∨ x + 1 = F ∨ x = F + 1 := by omega
  rcases hcases with rfl | hx | rfl
  · rw [hF, hF]
  · have hlow := hg.antitone (show x ≤ F by omega)
    have hjump := hg.slope x F (by omega)
    have hjump2 := hg.slope x (F + 1) (by omega)
    have hdown := hg.antitone (show F ≤ F + 1 by omega)
    have hgx : g x = F ∨ g x = F + 1 := by omega
    rcases hgx with hgx | hgx
    · rw [hgx, hF]
    · rw [hgx]
      omega
  · have hup := hg.antitone (show F ≤ F + 1 by omega)
    have hjump := hg.slope F (F + 1) (by omega)
    have hgx : g (F + 1) = F ∨ g (F + 1) + 1 = F := by omega
    rcases hgx with hgx | hgx
    · rw [hgx, hF]
    · have hrise := hg.antitone (show g (F + 1) ≤ F by omega)
      have hjump2 := hg.slope (g (F + 1)) (F + 1) (by omega)
      omega

/-- **Convergence**: eight rounds reach the fixed point from any 32-bit start. -/
theorem Slow.iterate_eq (hg : Slow g) {F f : Nat} (hF : g F = F) (hf : f ≤ 2 ^ 32)
    (hF32 : F ≤ 2 ^ 32) {n : Nat} (hn : 8 ≤ n) : g^[n] f = F := by
  have h0 : Within (2 ^ 32) F f := ⟨by omega, by omega⟩
  have h6 : Within 1 F (g^[6] f) :=
    hg.within hF (hg.within hF (hg.within hF (hg.within hF (hg.within hF (hg.within hF h0)))))
  obtain ⟨m, rfl⟩ := Nat.exists_eq_add_of_le' hn
  rw [Function.iterate_add_apply, show g^[8] f = g (g (g^[6] f)) from rfl, hg.settle hF h6]
  exact Function.iterate_fixed hF m

/-- Two neighbours that map to each other. -/
def Alternates (g : Nat → Nat) (a : Nat) : Prop := g a = a + 1 ∧ g (a + 1) = a

/-- A slowly falling map has a fixed point or alternates. -/
theorem Slow.fixed_or_alternates (hg : Slow g) : (∃ F, g F = F) ∨ ∃ a, Alternates g a := by
  have hex : ∃ b, g b ≤ b := ⟨g 0, hg.antitone (Nat.zero_le _)⟩
  classical
  have hb := Nat.find_spec hex
  have hmin := fun m => Nat.find_min hex (m := m)
  cases hfind : Nat.find hex with
  | zero =>
    rw [hfind] at hb
    exact .inl ⟨0, Nat.le_zero.mp hb⟩
  | succ a =>
    rw [hfind] at hb
    have ha := hmin a (by omega)
    have hjump := hg.slope a (a + 1) (by omega)
    by_cases heq : g (a + 1) = a + 1
    · exact .inl ⟨a + 1, heq⟩
    · exact .inr ⟨a, by omega, by omega⟩

/-- It never does both. -/
theorem Alternates.not_fixed (hg : Antitone g) {a F : Nat} (h : Alternates g a) : g F ≠ F := by
  obtain ⟨h1, h2⟩ := h
  intro hF
  rcases Nat.lt_or_ge a F with hlt | hle
  · have := hg (show a + 1 ≤ F from hlt)
    omega
  · have := hg hle
    omega

theorem Slow.fixed_iff (hg : Slow g) : (∃ F, g F = F) ↔ ∀ a, ¬ Alternates g a := by
  constructor
  · rintro ⟨F, hF⟩ a ha
    exact ha.not_fixed hg.antitone hF
  · intro h
    rcases hg.fixed_or_alternates with hF | ⟨a, ha⟩
    · exact hF
    · exact absurd ha (h a)

end SlowIteration
