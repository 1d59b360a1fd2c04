import AoOs.FatChange

/-! # The copies of the table

    The driver stores every entry in every copy of the table, so copies that are equal
    byte for byte stay equal.  The other way round, the bytes of the copies are entries
    and what lies between and behind them: when neither changes, no byte does. -/

namespace FatCopies

open BlockIO FatTypes FatTable FatImage FatAlloc Nibbles Relation

variable {I I' : Image} {d d' : Disk} {i k : Nat}

/-- All copies of the table have the same bytes. -/
def Identical (v : Vol) (d : Disk) : Prop :=
  ∀ i < v.fatCount, ∀ o < 512 * v.fatSize,
    d (512 * copyBase v i + o) = d (512 * copyBase v 0 + o)

/-- What the copies hold is the same: entry by entry, and nibble by nibble elsewhere. -/
structure Agrees (v : Vol) (I : Image) : Prop where
  tab : ∀ i c, i < v.fatCount → I.tab i c = I.tab 0 c
  slack : ∀ i k, i < v.fatCount → k < 1024 * v.fatSize →
    I.slack (1024 * copyBase v i + k) = I.slack (1024 * copyBase v 0 + k)

/-- Steps of the driver keep the copies equal. -/
theorem Agrees.update {v : Vol} (h : Agrees v I) (hu : Update v I I') : Agrees v I' := by
  have hset : ∀ {J : Image} {c x : Nat}, Agrees v J → Agrees v (J.set v c x) := by
    intro J c x hJ
    refine ⟨fun i k hi => ?_, hJ.slack⟩
    have h0 : 0 < v.fatCount := Nat.lt_of_le_of_lt (Nat.zero_le i) hi
    simp only [Image.set, hi, h0, true_and, hJ.tab i k hi]
  have hadjust : ∀ {J : Image} {x y : Nat}, Agrees v J → Agrees v (J.adjust v x y) := by
    intro J x y hJ
    refine ⟨fun i k hi => ?_, fun i k hi hk => ?_⟩
    · rw [Image.adjust_tab]
      exact hJ.tab i k hi
    · rw [Image.adjust_slack]
      exact hJ.slack i k hi hk
  cases hu with
  | @alloc c _ _ =>
    have hmarked := hset (c := c) (x := eocValue v) h
    exact hadjust ⟨hmarked.tab, hmarked.slack⟩
  | release => exact hadjust (hset h)
  | link => exact hset h
  | data => exact ⟨h.tab, h.slack⟩
  | root => exact ⟨h.tab, h.slack⟩

theorem Agrees.updates {v : Vol} (h : Agrees v I) (hu : Updates v I I') : Agrees v I' := by
  induction hu with
  | refl => exact h
  | tail _ hstep ih => exact ih.update hstep

/-- Steps of the driver leave what is no entry alone. -/
theorem slack_updates {v : Vol} (hu : Updates v I I') : I'.slack = I.slack := by
  induction hu with
  | refl => rfl
  | tail _ hstep ih =>
    rw [← ih]
    cases hstep with
    | alloc => exact Image.adjust_slack _ _
    | release => exact Image.adjust_slack _ _
    | link => rfl
    | data => rfl
    | root => rfl

/-- Fields are equal when their nibbles are. -/
theorem field_eq_iff {w j : Nat} :
    field d w i = field d' w j ↔ ∀ k < w, nib d (i + k) = nib d' (j + k) := by
  induction w generalizing i j with
  | zero => exact ⟨(fun _ k hk => nomatch hk), fun _ => rfl⟩
  | succ w ih =>
    have hi := nib_lt d i
    have hj := nib_lt d' j
    rw [field, field]
    constructor
    · intro h k hk
      cases k with
      | zero =>
        rw [Nat.add_zero, Nat.add_zero]
        omega
      | succ k =>
        have hrest := ih.mp (show field d w (i + 1) = field d' w (j + 1) by omega) k
          (Nat.lt_of_succ_lt_succ hk)
        rwa [Nat.add_assoc, Nat.add_assoc, Nat.add_comm 1 k] at hrest
    · intro h
      have h0 := h 0 (Nat.succ_pos w)
      have hrest : field d w (i + 1) = field d' w (j + 1) := ih.mpr fun k hk => by
        rw [Nat.add_assoc, Nat.add_assoc, Nat.add_comm 1 k]
        exact h (k + 1) (Nat.succ_lt_succ hk)
      rw [Nat.add_zero, Nat.add_zero] at h0
      rw [h0, hrest]

section Numbered

variable {v : Vol} (hv : Numbered v)

/-- The windows of all copies are the same, seen from their starts. -/
theorem entryNib_shift (i c : Nat) : entryNib v.type (copyBase v i) c + 1024 * copyBase v 0 =
    entryNib v.type (copyBase v 0) c + 1024 * copyBase v i := by
  rw [entryNib, entryNib]
  omega

theorem inWindow_shift {c : Nat} :
    InWindow v i c (1024 * copyBase v i + k) ↔ InWindow v 0 c (1024 * copyBase v 0 + k) := by
  have := entryNib_shift (v := v) i c
  rw [InWindow, InWindow]
  omega

include hv

omit hv in
theorem copy_nibbles (hi : i < v.fatCount) (hk : k < 1024 * v.fatSize) :
    1024 * v.reservedSectors ≤ 1024 * copyBase v i + k ∧
      1024 * copyBase v i + k < 1024 * tableEnd v := by
  have := copy_le hi
  omega

theorem inEntry_iff (hi : i < v.fatCount) (hk : k < 1024 * v.fatSize) :
    InEntry v (1024 * copyBase v i + k) ↔
      ∃ c, validDataCluster v c ∧ InWindow v i c (1024 * copyBase v i + k) := by
  constructor
  · rintro ⟨j, hj, c, hc, hwin⟩
    have hin := hv.window_inside hc hwin
    -- the copies do not overlap
    have hij : j = i := by
      rcases Nat.lt_trichotomy j i with hlt | heq | hgt
      · have := copy_apart (v := v) hlt
        omega
      · exact heq
      · have := copy_apart (v := v) hgt
        omega
    exact ⟨c, hc, hij ▸ hwin⟩
  · rintro ⟨c, hc, hwin⟩
    exact ⟨i, hi, c, hc, hwin⟩

open Classical in
/-- A nibble of a copy is part of an entry, or slack. -/
theorem nibble_cases (d : Disk) (hi : i < v.fatCount) (hk : k < 1024 * v.fatSize) :
    (∃ c, validDataCluster v c ∧ InWindow v i c (1024 * copyBase v i + k)) ∨
    (¬ InEntry v (1024 * copyBase v i + k) ∧
      (image v d).slack (1024 * copyBase v i + k) = nib d (1024 * copyBase v i + k)) := by
  by_cases hin : InEntry v (1024 * copyBase v i + k)
  · exact .inl ((inEntry_iff hv hi hk).mp hin)
  · obtain ⟨hlow, hhigh⟩ := copy_nibbles hi hk
    exact .inr ⟨hin, if_pos ⟨hlow, hhigh, hin⟩⟩

omit hv in
theorem tab_entry (d : Disk) {c : Nat} (hi : i < v.fatCount) (hc : validDataCluster v c) :
    (image v d).tab i c = entry v d i c := if_pos ⟨hi, hc⟩

omit hv in
/-- Bytes and nibbles of the copies. -/
theorem identical_nibbles (d : Disk) : Identical v d ↔ ∀ i < v.fatCount, ∀ k < 1024 * v.fatSize,
    nib d (1024 * copyBase v i + k) = nib d (1024 * copyBase v 0 + k) := by
  constructor
  · intro h i hi k hk
    have hbyte := h i hi (k / 2) (by omega)
    rw [nib, nib, show (1024 * copyBase v i + k) / 2 = 512 * copyBase v i + k / 2 by omega,
      show (1024 * copyBase v 0 + k) / 2 = 512 * copyBase v 0 + k / 2 by omega, hbyte,
      show (1024 * copyBase v i + k) % 2 = (1024 * copyBase v 0 + k) % 2 by omega]
  · intro h i hi o ho
    have h0 := h i hi (2 * o) (by omega)
    have h1 := h i hi (2 * o + 1) (by omega)
    apply UInt8.toNat.inj
    rw [byte_eq, byte_eq, show 2 * (512 * copyBase v i + o) = 1024 * copyBase v i + 2 * o by omega,
      show 2 * (512 * copyBase v 0 + o) = 1024 * copyBase v 0 + 2 * o by omega, Nat.add_assoc,
      Nat.add_assoc, h0, h1]

/-- **Equal copies, in terms of the image.** -/
theorem identical_iff (d : Disk) : Identical v d ↔ Agrees v (image v d) := by
  have hpos := hv.geometry.fatCount_pos
  rw [identical_nibbles]
  constructor
  · intro h
    refine ⟨fun i c hi => ?_, fun i k hi hk => ?_⟩
    · by_cases hc : validDataCluster v c
      · have hin := hv.entry_inside hc (copyBase v 0)
        have hshift := entryNib_shift (v := v) i c
        rw [tab_entry d hi hc, tab_entry d hpos hc, entry, entry, field_eq_iff]
        intro k hk
        have hn := h i hi (entryNib v.type (copyBase v 0) c - 1024 * copyBase v 0 + k) (by omega)
        rwa [show 1024 * copyBase v i + (entryNib v.type (copyBase v 0) c - 1024 * copyBase v 0 + k)
          = entryNib v.type (copyBase v i) c + k by omega,
          show 1024 * copyBase v 0 + (entryNib v.type (copyBase v 0) c - 1024 * copyBase v 0 + k) =
          entryNib v.type (copyBase v 0) c + k by omega] at hn
      · exact (if_neg fun hh => hc hh.2).trans (if_neg fun hh => hc hh.2).symm
    · rcases nibble_cases hv d hi hk with ⟨c, hc, hwin⟩ | ⟨hno, hs⟩
      · have h1 : InEntry v (1024 * copyBase v i + k) := ⟨i, hi, c, hc, hwin⟩
        have h0 : InEntry v (1024 * copyBase v 0 + k) := ⟨0, hpos, c, hc, inWindow_shift.mp hwin⟩
        exact (if_neg fun hh => hh.2.2 h1).trans (if_neg fun hh => hh.2.2 h0).symm
      · rcases nibble_cases hv d hpos hk with ⟨c, hc, hwin⟩ | ⟨_, hs0⟩
        · exact absurd ⟨i, hi, c, hc, inWindow_shift.mpr hwin⟩ hno
        · rw [hs, hs0]
          exact h i hi k hk
  · intro h i hi k hk
    rcases nibble_cases hv d hi hk with ⟨c, hc, hwin⟩ | ⟨hno, hs⟩
    · have htab := h.tab i c hi
      rw [tab_entry d hi hc, tab_entry d hpos hc, entry, entry, field_eq_iff] at htab
      obtain ⟨hlow, hhigh⟩ := hwin
      have hshift := entryNib_shift (v := v) i c
      have hn := htab (1024 * copyBase v i + k - entryNib v.type (copyBase v i) c) (by omega)
      rwa [show entryNib v.type (copyBase v i) c + (1024 * copyBase v i + k -
        entryNib v.type (copyBase v i) c) = 1024 * copyBase v i + k by omega,
        show entryNib v.type (copyBase v 0) c + (1024 * copyBase v i + k -
        entryNib v.type (copyBase v i) c) = 1024 * copyBase v 0 + k by omega] at hn
    · rcases nibble_cases hv d hpos hk with ⟨c, hc, hwin⟩ | ⟨_, hs0⟩
      · exact absurd ⟨i, hi, c, hc, inWindow_shift.mpr hwin⟩ hno
      · rw [← hs, ← hs0]
        exact h.slack i k hi hk

/-- **Equal copies stay equal.** -/
theorem identical_updates (h : Identical v d) (hu : Updates v (image v d) (image v d')) :
    Identical v d' :=
  (identical_iff hv d').mpr (((identical_iff hv d).mp h).updates hu)

/-- **The bytes of the table** are its entries and the slack. -/
theorem bytes_of_table (htab : (image v d').tab = (image v d).tab)
    (hslack : (image v d').slack = (image v d).slack) {o : Nat} (hi : i < v.fatCount)
    (ho : o < 512 * v.fatSize) : d' (512 * copyBase v i + o) = d (512 * copyBase v i + o) := by
  have hnib : ∀ k < 1024 * v.fatSize,
      nib d' (1024 * copyBase v i + k) = nib d (1024 * copyBase v i + k) := by
    intro k hk
    rcases nibble_cases hv d hi hk with ⟨c, hc, hwin⟩ | ⟨hno, hs⟩
    · have heq := congrFun (congrFun htab i) c
      rw [tab_entry d' hi hc, tab_entry d hi hc, entry, entry, field_eq_iff] at heq
      obtain ⟨hlow, hhigh⟩ := hwin
      have hn := heq (1024 * copyBase v i + k - entryNib v.type (copyBase v i) c) (by omega)
      rwa [show entryNib v.type (copyBase v i) c + (1024 * copyBase v i + k -
        entryNib v.type (copyBase v i) c) = 1024 * copyBase v i + k by omega] at hn
    · rcases nibble_cases hv d' hi hk with ⟨c, hc, hwin⟩ | ⟨_, hs'⟩
      · exact absurd ⟨i, hi, c, hc, hwin⟩ hno
      · rw [← hs', ← hs, hslack]
  refine byte_ext ?_ ?_
  · rw [show 2 * (512 * copyBase v i + o) = 1024 * copyBase v i + 2 * o by omega]
    exact hnib _ (by omega)
  · rw [show 2 * (512 * copyBase v i + o) + 1 = 1024 * copyBase v i + (2 * o + 1) by omega]
    exact hnib _ (by omega)

end Numbered

end FatCopies
