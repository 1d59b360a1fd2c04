import AoOs.BlockIO

/-! # Nibble fields — numbers packed into a disk

    A disk read as a little-endian stream of half bytes: nibble `2 * a` is the low
    half of byte `a`, nibble `2 * a + 1` the high half.  A field is a window of
    that stream, least significant nibble first.  Tables whose entries are twelve,
    sixteen or twenty-eight bits wide are all arrays of such fields, and two
    entries share nothing exactly when their windows do not overlap, whether or
    not they share a byte. -/

namespace Nibbles

open BlockIO

/-- Nibble `i` of the disk. -/
def nib (d : Disk) (i : Nat) : Nat :=
  if i % 2 = 0 then (d (i / 2)).toNat % 16 else (d (i / 2)).toNat / 16

/-- The number in the `w` nibbles from `i` on. -/
def field (d : Disk) : Nat → Nat → Nat
  | 0, _ => 0
  | w + 1, i => nib d i + 16 * field d w (i + 1)

variable (d : Disk) (a : Nat)

theorem nib_lt (i : Nat) : nib d i < 16 := by
  have := (d (i / 2)).toNat_lt
  rw [nib]
  split <;> omega

/-- The two nibbles of byte `a`. -/
theorem nib_byte : nib d (2 * a) = (d a).toNat % 16 ∧ nib d (2 * a + 1) = (d a).toNat / 16 := by
  have h0 : 2 * a % 2 = 0 := by omega
  have h1 : (2 * a + 1) % 2 ≠ 0 := by omega
  have h2 : 2 * a / 2 = a := by omega
  have h3 : (2 * a + 1) / 2 = a := by omega
  rw [nib, nib, if_pos h0, if_neg h1, h2, h3]
  exact ⟨rfl, rfl⟩

theorem byte_eq : (d a).toNat = nib d (2 * a) + 16 * nib d (2 * a + 1) := by
  rw [(nib_byte d a).1, (nib_byte d a).2]
  omega

/-- Nibbles say everything about a byte. -/
theorem byte_ext {d d' : Disk} {a : Nat} (h0 : nib d (2 * a) = nib d' (2 * a))
    (h1 : nib d (2 * a + 1) = nib d' (2 * a + 1)) : d a = d' a := by
  apply UInt8.toNat.inj
  rw [byte_eq, byte_eq, h0, h1]

theorem nib_congr {d d' : Disk} {i : Nat} (h : d (i / 2) = d' (i / 2)) : nib d i = nib d' i := by
  rw [nib, nib, h]

theorem field_lt (w i : Nat) : field d w i < 16 ^ w := by
  induction w generalizing i with
  | zero => exact Nat.one_pos
  | succ w ih =>
    have := nib_lt d i
    have := ih (i + 1)
    rw [field, Nat.pow_succ]
    omega

theorem field_congr {d d' : Disk} {w i : Nat} (h : ∀ k, k < w → nib d (i + k) = nib d' (i + k)) :
    field d w i = field d' w i := by
  induction w generalizing i with
  | zero => rfl
  | succ w ih =>
    rw [field, field, show nib d i = nib d' i from h 0 (Nat.succ_pos w)]
    rw [ih fun k hk => (by rw [Nat.add_right_comm]; exact h (k + 1) (by omega))]

theorem field_eq_zero_iff (w i : Nat) : field d w i = 0 ↔ ∀ k, k < w → nib d (i + k) = 0 := by
  induction w generalizing i with
  | zero => exact ⟨(fun _ k hk => nomatch hk), fun _ => rfl⟩
  | succ w ih =>
    rw [field]
    constructor
    · intro h k hk
      have htail := (ih (i + 1)).mp (by omega)
      cases k with
      | zero => rw [Nat.add_zero]; omega
      | succ k =>
        have := htail k (by omega)
        rwa [Nat.add_right_comm] at this
    · intro h
      have htail := (ih (i + 1)).mpr fun k hk => by
        rw [Nat.add_right_comm]
        exact h (k + 1) (by omega)
      have hhead := h 0 (Nat.succ_pos w)
      rw [Nat.add_zero] at hhead
      rw [htail, hhead]

/-- The little-endian word in bytes `a` and `a + 1`. -/
def word (d : Disk) (a : Nat) : Nat := (d a).toNat + 256 * (d (a + 1)).toNat

/-- The little-endian word in the four bytes from `a` on. -/
def dword (d : Disk) (a : Nat) : Nat := word d a + 65536 * word d (a + 2)

theorem word_nibs : word d a = nib d (2 * a) + 16 * nib d (2 * a + 1) + 256 * nib d (2 * a + 2) +
      4096 * nib d (2 * a + 3) := by
  have hsucc : 2 * (a + 1) = 2 * a + 2 := by omega
  rw [word, byte_eq d a, byte_eq d (a + 1), hsucc, show 2 * a + 2 + 1 = 2 * a + 3 from rfl]
  omega

theorem word_lt : word d a < 65536 := by
  have := (d a).toNat_lt
  have := (d (a + 1)).toNat_lt
  rw [word]
  omega

/-- The outer nibbles of a word. -/
theorem word_ends : nib d (2 * a) = word d a % 16 ∧ nib d (2 * a + 3) = word d a / 4096 := by
  have := nib_lt d (2 * a)
  have := nib_lt d (2 * a + 1)
  have := nib_lt d (2 * a + 2)
  rw [word_nibs]
  omega

theorem field_full16 : field d 4 (2 * a) = word d a := by
  rw [word_nibs]
  simp only [field, Nat.add_assoc, Nat.reduceAdd]
  omega

theorem field_low12 : field d 3 (2 * a) = word d a % 4096 := by
  have := nib_lt d (2 * a)
  have := nib_lt d (2 * a + 1)
  have := nib_lt d (2 * a + 2)
  rw [word_nibs]
  simp only [field, Nat.add_assoc, Nat.reduceAdd]
  omega

theorem field_high12 : field d 3 (2 * a + 1) = word d a / 16 := by
  have := nib_lt d (2 * a)
  rw [word_nibs]
  simp only [field, Nat.add_assoc, Nat.reduceAdd]
  omega

theorem field_low28 : field d 7 (2 * a) = dword d a % 2 ^ 28 := by
  have hlow := field_full16 d a
  have hhigh := field_low12 d (a + 2)
  have hlt := word_lt d a
  rw [show 2 * (a + 2) = 2 * a + 4 by omega] at hhigh
  simp only [field, Nat.add_assoc, Nat.reduceAdd] at hlow hhigh ⊢
  rw [dword]
  omega

/-- `d'` is `d` with `value` stored in the window of `w` nibbles from `i` on. -/
structure Stored (d d' : Disk) (w i value : Nat) : Prop where
  inside : field d' w i = value % 16 ^ w
  outside : ∀ j, j < i ∨ i + w ≤ j → nib d' j = nib d j

namespace Stored

variable {d d' : Disk} {w i value : Nat}

/-- A window that does not overlap reads as before. -/
theorem field_other (h : Stored d d' w i value) {w' j : Nat} (hj : j + w' ≤ i ∨ i + w ≤ j) :
    field d' w' j = field d w' j :=
  field_congr fun k hk => h.outside _ (by omega)

/-! Stores to two or four bytes, from what they do to the word there. -/

variable {a : Nat}

theorem full16 (hother : ∀ b, b ≠ a → b ≠ a + 1 → d' b = d b) (hw : word d' a = value % 65536) :
    Stored d d' 4 (2 * a) value := by
  refine ⟨(field_full16 d' a).trans hw, fun j hj => nib_congr (hother _ ?_ ?_)⟩ <;> omega

theorem low12 (hother : ∀ b, b ≠ a → b ≠ a + 1 → d' b = d b)
    (hw : word d' a = word d a / 4096 * 4096 + value % 4096) : Stored d d' 3 (2 * a) value := by
  refine ⟨?_, fun j hj => ?_⟩
  · rw [field_low12, hw]
    omega
  · by_cases hlast : j = 2 * a + 3
    · -- the neighbour's nibble in the second byte
      rw [hlast, (word_ends d' a).2, (word_ends d a).2, hw]
      omega
    · exact nib_congr (hother _ (by omega) (by omega))

theorem high12 (hother : ∀ b, b ≠ a → b ≠ a + 1 → d' b = d b)
    (hw : word d' a = (word d a % 16 + value * 16) % 65536) : Stored d d' 3 (2 * a + 1) value := by
  refine ⟨?_, fun j hj => ?_⟩
  · rw [field_high12, hw]
    omega
  · by_cases hfirst : j = 2 * a
    · -- the neighbour's nibble in the first byte
      rw [hfirst, (word_ends d' a).1, (word_ends d a).1, hw]
      omega
    · exact nib_congr (hother _ (by omega) (by omega))

theorem low28 (hother : ∀ b, b < a ∨ a + 4 ≤ b → d' b = d b)
    (hw : dword d' a = dword d a / 2 ^ 28 * 2 ^ 28 + value % 2 ^ 28) :
    Stored d d' 7 (2 * a) value := by
  refine ⟨?_, fun j hj => ?_⟩
  · rw [field_low28, hw]
    omega
  · by_cases hlast : j = 2 * (a + 2) + 3
    · have hlt := word_lt d a
      have hlt' := word_lt d' a
      have htop : word d' (a + 2) / 4096 = word d (a + 2) / 4096 := by
        rw [dword, dword] at hw
        omega
      rw [hlast, (word_ends d' (a + 2)).2, (word_ends d (a + 2)).2, htop]
    · exact nib_congr (hother _ (by omega))

end Stored

/-- No nibble that is zero in `d` has another value in `d'`. -/
def Clears (d d' : Disk) : Prop := ∀ j, nib d j = 0 → nib d' j = 0

namespace Clears

theorem refl (d : Disk) : Clears d d := fun _ h => h

theorem trans {d d' d'' : Disk} (h : Clears d d') (h' : Clears d' d'') : Clears d d'' :=
  fun j hj => h' j (h j hj)

theorem field_zero {d d' : Disk} (h : Clears d d') {w i : Nat} (hz : field d w i = 0) :
    field d' w i = 0 := by
  rw [field_eq_zero_iff] at hz ⊢
  exact fun k hk => h _ (hz k hk)

end Clears

/-- A byte that a store may put in the place of another without raising a zero
    nibble. -/
def ShrinksTo (b b' : UInt8) : Prop :=
  (b.toNat % 16 = 0 → b'.toNat % 16 = 0) ∧ (b.toNat / 16 = 0 → b'.toNat / 16 = 0)

theorem ShrinksTo.refl (b : UInt8) : ShrinksTo b b := ⟨id, id⟩

theorem ShrinksTo.zero (b : UInt8) : ShrinksTo b 0 := ⟨fun _ => rfl, fun _ => rfl⟩

theorem clears_of_bytes {d d' : Disk} (h : ∀ a, ShrinksTo (d a) (d' a)) : Clears d d' := by
  intro j
  rw [nib, nib]
  split
  · exact (h (j / 2)).1
  · exact (h (j / 2)).2

/-- A store of a sector whose bytes shrink. -/
theorem shrinks_store {d e : Disk} (he : ∀ a, ShrinksTo (d a) (e a)) {lba : Nat} {s : Sector}
    (h : ∀ b, ShrinksTo (d.sector lba b) (s b)) : ∀ a, ShrinksTo (d a) (e.store lba s a) := by
  intro a
  by_cases ha : a / sectorSize = lba
  · have hb := h (a % sectorSize)
    rw [Disk.sector, ← ha, Nat.div_add_mod a sectorSize] at hb
    rw [Disk.store, if_pos ha]
    exact hb
  · rw [store_other e s ha]
    exact he a

end Nibbles
