import Mathlib.Tactic
import Mathlib.Data.Finset.Card

/-! # Bitmaps packed into bytes

    Bit `i` is bit `i % 8` of byte `i / 8`.  The bytes are taken apart here only: a
    store changes one bit, and the number of clear bits moves by one with it. -/

namespace Bitmap

variable {n i : Nat}

abbrev Bits := Nat → UInt8

variable {b : Bits}

/-- `(b[i / 8] >> (i % 8)) & 1`. -/
def test (b : Bits) (i : Nat) : Bool := (b (i / 8)).toNat.testBit (i % 8)

/-- `b[i / 8] |= 1 << (i % 8)`. -/
def set (b : Bits) (i : Nat) : Bits := fun j =>
  if j = i / 8 then b j ||| (1 <<< UInt8.ofNat (i % 8)) else b j

/-- `b[i / 8] &= ~(1 << (i % 8))`. -/
def clear (b : Bits) (i : Nat) : Bits := fun j =>
  if j = i / 8 then b j &&& ~~~ (1 <<< UInt8.ofNat (i % 8)) else b j

/-! ## One bit -/

theorem testBit_or_one (x : UInt8) : ∀ k l, k < 8 → l < 8 →
    (x ||| (1 <<< UInt8.ofNat k)).toNat.testBit l = (decide (l = k) || x.toNat.testBit l) := by
  intro k l hk hl
  rw [UInt8.toNat_or, Nat.testBit_or]
  have hone : (1 <<< UInt8.ofNat k : UInt8).toNat.testBit l = decide (l = k) := by
    interval_cases k <;> interval_cases l <;> rfl
  rw [hone, Bool.or_comm]

theorem testBit_and_not_one (x : UInt8) : ∀ k l, k < 8 → l < 8 →
    (x &&& ~~~ (1 <<< UInt8.ofNat k)).toNat.testBit l =
      (!decide (l = k) && x.toNat.testBit l) := by
  intro k l hk hl
  rw [UInt8.toNat_and, Nat.testBit_and]
  have hone : (~~~ (1 <<< UInt8.ofNat k) : UInt8).toNat.testBit l = !decide (l = k) := by
    interval_cases k <;> interval_cases l <;> rfl
  rw [hone, Bool.and_comm]

theorem eq_iff_byte_bit (i j : Nat) : j = i ↔ j / 8 = i / 8 ∧ j % 8 = i % 8 := by omega

@[simp] theorem test_set (b : Bits) (i j : Nat) :
    test (set b i) j = (decide (j = i) || test b j) := by
  rw [test, set]
  by_cases hbyte : j / 8 = i / 8
  · rw [if_pos hbyte, testBit_or_one _ _ _ (Nat.mod_lt _ (by decide)) (Nat.mod_lt _ (by decide)),
      test]
    simp only [eq_iff_byte_bit i j, hbyte, true_and]
  · rw [if_neg hbyte, decide_eq_false fun h => hbyte (by rw [h]), Bool.false_or, test]

@[simp] theorem test_clear (b : Bits) (i j : Nat) :
    test (clear b i) j = (!decide (j = i) && test b j) := by
  rw [test, clear]
  by_cases hbyte : j / 8 = i / 8
  · rw [if_pos hbyte,
      testBit_and_not_one _ _ _ (Nat.mod_lt _ (by decide)) (Nat.mod_lt _ (by decide)), test]
    simp only [eq_iff_byte_bit i j, hbyte, true_and]
  · rw [if_neg hbyte, decide_eq_false fun h => hbyte (by rw [h]), Bool.not_false, Bool.true_and,
      test]

/-! ## Counting -/

/-- The clear bits below `n`. -/
def clearBits (n : Nat) (b : Bits) : Finset Nat := {i ∈ Finset.range n | test b i = false}

theorem mem_clearBits : i ∈ clearBits n b ↔ i < n ∧ test b i = false := by
  rw [clearBits, Finset.mem_filter, Finset.mem_range]

theorem clearBits_set (n : Nat) (b : Bits) (i : Nat) :
    clearBits n (set b i) = (clearBits n b).erase i := by
  ext j
  rw [Finset.mem_erase, mem_clearBits, mem_clearBits, test_set, Bool.or_eq_false_iff,
    decide_eq_false_iff_not]
  tauto

theorem clearBits_clear (b : Bits) (hi : i < n) :
    clearBits n (clear b i) = insert i (clearBits n b) := by
  ext j
  rw [Finset.mem_insert, mem_clearBits, mem_clearBits, test_clear]
  by_cases hj : j = i
  · simp [hj, hi]
  · simp [hj]

theorem card_clearBits_set (hi : i < n) (h : test b i = false) :
    (clearBits n (set b i)).card + 1 = (clearBits n b).card := by
  rw [clearBits_set]
  exact Finset.card_erase_add_one (mem_clearBits.mpr ⟨hi, h⟩)

theorem card_clearBits_clear (hi : i < n) (h : test b i) :
    (clearBits n (clear b i)).card = (clearBits n b).card + 1 := by
  rw [clearBits_clear b hi]
  refine Finset.card_insert_of_notMem fun hmem => ?_
  cases h.symm.trans (mem_clearBits.mp hmem).2

end Bitmap
