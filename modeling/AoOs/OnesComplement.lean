import Mathlib.Tactic

/-! # Ones'-complement sums of big-endian words

    Bytes are read in pairs, high byte first, an odd last byte as a high byte.  Folding
    the carries back in keeps the sum modulo 65535, so a checksum is a statement about
    that residue: the sum of a range that contains its own checksum is a multiple of
    65535.  If the checksum is stored with its bytes swapped, it still is one exactly
    when the sum of the rest is a multiple of 257. -/

namespace OnesComplement

variable {n s : Nat}

abbrev Bytes := Nat → UInt8

/-- The big-endian word at `i`. -/
def word (b : Bytes) (i : Nat) : Nat := (b i).toNat * 256 + (b (i + 1)).toNat

theorem word_lt (b : Bytes) (i : Nat) : word b i < 65536 := by
  have h := (b i).toNat_lt
  have h' := (b (i + 1)).toNat_lt
  rw [word]
  omega

/-- The sum of the words of the `n` bytes from `i` on. -/
def wordSum (b : Bytes) : Nat → Nat → Nat
  | _, 0 => 0
  | i, 1 => (b i).toNat * 256
  | i, n + 2 => word b i + wordSum b (i + 2) n

theorem wordSum_le (b : Bytes) (i n : Nat) : wordSum b i n ≤ 65535 * ((n + 1) / 2) := by
  induction i, n using wordSum.induct with
  | case1 i => exact Nat.zero_le _
  | case2 i =>
    have := (b i).toNat_lt
    rw [wordSum]
    omega
  | case3 i n ih =>
    have := word_lt b i
    rw [wordSum]
    omega

/-- The sum looks only at its own bytes, wherever they stand. -/
theorem wordSum_shift {b b' : Bytes} {i i' : Nat} (h : ∀ j, j < n → b' (i' + j) = b (i + j)) :
    wordSum b' i' n = wordSum b i n := by
  induction i, n using wordSum.induct generalizing i' with
  | case1 i => rfl
  | case2 i => rw [wordSum, wordSum, show b' i' = b i from h 0 (by omega)]
  | case3 i n ih =>
    have hrest : wordSum b' (i' + 2) n = wordSum b (i + 2) n := by
      refine ih fun j hj => ?_
      rw [Nat.add_assoc, Nat.add_assoc]
      exact h (2 + j) (by omega)
    rw [wordSum, wordSum, word, word, show b' i' = b i from h 0 (by omega), h 1 (by omega), hrest]

theorem wordSum_congr {b b' : Bytes} {i : Nat} (h : ∀ j, i ≤ j → j < i + n → b' j = b j) :
    wordSum b' i n = wordSum b i n :=
  wordSum_shift fun j hj => h (i + j) (by omega) (by omega)

/-- A sum cut at an even place. -/
theorem wordSum_split (b : Bytes) (i k n : Nat) :
    wordSum b i (2 * k + n) = wordSum b i (2 * k) + wordSum b (i + 2 * k) n := by
  induction k generalizing i with
  | zero => rw [Nat.mul_zero, Nat.zero_add, wordSum, Nat.zero_add, Nat.add_zero]
  | succ k ih =>
    rw [show 2 * (k + 1) + n = 2 * k + n + 2 by omega, show 2 * (k + 1) = 2 * k + 2 by omega,
      wordSum, wordSum, ih (i + 2), show i + 2 + 2 * k = i + (2 * k + 2) by omega, Nat.add_assoc]

/-! ## Folding -/

/-- `while (sum >> 16) sum = (sum & 0xFFFF) + (sum >> 16)`, at most `n` rounds. -/
def fold : Nat → Nat → Nat
  | 0, s => s
  | n + 1, s => if s / 65536 ≠ 0 then fold n (s % 65536 + s / 65536) else s

theorem fold_mod (n s : Nat) : fold n s % 65535 = s % 65535 := by
  induction n generalizing s with
  | zero => rfl
  | succ n ih =>
    rw [fold]
    split
    · rw [ih]
      omega
    · rfl

theorem fold_pos (h : 0 < s) : 0 < fold n s := by
  induction n generalizing s with
  | zero => exact h
  | succ n ih =>
    rw [fold]
    split
    · exact ih (by omega)
    · exact h

/-- Two rounds are enough for 32 bits. -/
theorem fold_lt (hn : 2 ≤ n) (hs : s < 2 ^ 32) : fold n s < 65536 := by
  have hdone : ∀ m t, t < 65536 → fold m t < 65536 := by
    intro m t ht
    cases m with
    | zero => exact ht
    | succ m => rw [fold, if_neg (by omega)]; exact ht
  obtain ⟨m, rfl⟩ : ∃ m, n = m + 2 := ⟨n - 2, by omega⟩
  rw [fold]
  split
  · rw [fold]
    split
    · exact hdone m _ (by omega)
    · omega
  · omega

/-! ## Checksums -/

/-- The complement of the folded sum. -/
def complement (n s : Nat) : Nat := 65535 - fold n s

theorem complement_eq_zero_iff (hn : 2 ≤ n) (hs : s < 2 ^ 32) :
    complement n s = 0 ↔ 0 < s ∧ s % 65535 = 0 := by
  have hlt := fold_lt hn hs
  have hmod := fold_mod n s
  rw [complement]
  constructor
  · intro h
    refine ⟨Nat.pos_of_ne_zero fun h0 => ?_, by omega⟩
    rw [h0] at h
    have hzero : fold n 0 = 0 := by cases n <;> rfl
    omega
  · rintro ⟨hpos, h0⟩
    have := fold_pos (n := n) hpos
    omega

/-- The two bytes of a word exchanged. -/
def swap (w : Nat) : Nat := w % 256 * 256 + w / 256

/-- A checksum stored with its bytes exchanged. -/
theorem swapped_complement (hn : 2 ≤ n) (hs : s + 65535 < 2 ^ 32) :
    complement n (s + swap (complement n s)) = 0 ↔ s % 257 = 0 := by
  have hlt := fold_lt hn (show s < 2 ^ 32 by omega)
  have hmod := fold_mod n s
  have hle : complement n s < 65536 := by
    rw [complement]
    omega
  -- the complement is the residue of the negated sum
  have hc : (s + complement n s) % 65535 = 0 := by
    rw [complement]
    omega
  have hsw : swap (complement n s) ≤ 65535 := by
    rw [swap]
    omega
  rw [complement_eq_zero_iff hn (by omega)]
  generalize hcn : complement n s = c at *
  have hzero : s = 0 → c = 65535 := by
    intro h0
    rw [← hcn, h0, complement, show fold n 0 = 0 by cases n <;> rfl]
  rw [swap] at *
  -- both sides say that the bytes of the complement are equal
  have hbytes : (s + (c % 256 * 256 + c / 256)) % 65535 = 0 ↔ c % 256 = c / 256 := by omega
  have hdiv : s % 257 = 0 ↔ c % 256 = c / 256 := by omega
  rw [hbytes, hdiv]
  exact ⟨fun h => h.2, fun h => ⟨by omega, h⟩⟩

/-! ## The sum with its carries -/

/-- Ones'-complement addition: the carry out of 16 bits comes back in. -/
def onesAdd (a b : Nat) : Nat := (a + b) % 65536 + (a + b) / 65536

/-- The ones'-complement sum of the words of the `n` bytes from `i` on. -/
def onesSum (b : Bytes) : Nat → Nat → Nat
  | _, 0 => 0
  | i, 1 => (b i).toNat * 256
  | i, n + 2 => onesAdd (word b i) (onesSum b (i + 2) n)

/-- A word, the residue of the sum, and zero for zeros only. -/
theorem onesSum_spec (b : Bytes) (i n : Nat) : onesSum b i n < 65536 ∧
    onesSum b i n % 65535 = wordSum b i n % 65535 ∧ (onesSum b i n = 0 ↔ wordSum b i n = 0) := by
  induction i, n using wordSum.induct with
  | case1 i => exact ⟨Nat.zero_lt_succ _, rfl, Iff.rfl⟩
  | case2 i =>
    have := (b i).toNat_lt
    rw [onesSum, wordSum]
    exact ⟨by omega, rfl, Iff.rfl⟩
  | case3 i n ih =>
    obtain ⟨hlt, hmod, hzero⟩ := ih
    have := word_lt b i
    rw [onesSum, wordSum, onesAdd]
    exact ⟨by omega, by omega, by omega⟩

/-- Folding the sum gives the ones'-complement sum. -/
theorem fold_wordSum {n : Nat} (hn : 2 ≤ n) (b : Bytes) (i len : Nat)
    (hs : wordSum b i len < 2 ^ 32) : fold n (wordSum b i len) = onesSum b i len := by
  obtain ⟨hlt, hmod, hzero⟩ := onesSum_spec b i len
  have hlt' := fold_lt hn hs
  have hmod' := fold_mod n (wordSum b i len)
  by_cases h0 : wordSum b i len = 0
  · rw [hzero.mpr h0, h0]
    cases n <;> rfl
  · have hpos := fold_pos (n := n) (Nat.pos_of_ne_zero h0)
    omega

/-- A sum with its own complement added. -/
theorem complement_added {n s : Nat} (hn : 2 ≤ n) (hs : s + 65535 < 2 ^ 32) :
    complement n (s + complement n s) = 0 := by
  have hlt := fold_lt hn (show s < 2 ^ 32 by omega)
  have hmod := fold_mod n s
  have hpos : s = 0 → fold n s = 0 := by
    rintro rfl
    cases n <;> rfl
  rw [complement_eq_zero_iff hn (by rw [complement]; omega), complement]
  omega

end OnesComplement
