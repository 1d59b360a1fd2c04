import AoOs.FatTree

/-! # The entries the driver writes

    What `fat_create` and `fat_mkdir` put into a slot, read back: the short name, the
    attributes, the cluster and the size they were given.  Such an entry is live unless
    its name starts with the byte that marks deleted entries; a deleted entry never is. -/

namespace FatEntries

open FatTypes FatDriver FatImage FatTree

section Fields

variable (v : Vol) (e : Entry) (c n : Nat)

@[simp] theorem attr_setEntryCluster : (setEntryCluster v e c).attr = e.attr := rfl

@[simp] theorem attr_setEntrySize : (setEntrySize e n).attr = e.attr := rfl

@[simp] theorem entryCluster_setEntrySize : entryCluster v (setEntrySize e n) = entryCluster v e :=
  rfl

theorem isDirectory_congr {e e' : Entry} (h : e.attr = e'.attr) :
    e.isDirectory = e'.isDirectory := by
  rw [Entry.isDirectory, Entry.isDirectory, h]

theorem sfn_freshEntry {l : List UInt8} (h : l.length = 11) (attr : UInt8) :
    (freshEntry l attr).sfn = l := by
  match l, h with
  | [_, _, _, _, _, _, _, _, _, _, _], _ => rfl

theorem attr_freshEntry (l : List UInt8) (attr : UInt8) : (freshEntry l attr).attr = attr.toNat :=
  rfl

theorem toNat_byteOf (i : Nat) : (byteOf n i).toNat = n / 256 ^ i % 256 :=
  UInt8.toNat_ofNat_of_lt' (Nat.mod_lt _ (by decide))

theorem le16_bytes : le16 (byteOf n 0) (byteOf n 1) = n % 65536 := by
  rw [le16, toNat_byteOf, toNat_byteOf, Nat.pow_zero, Nat.pow_one, Nat.div_one]
  omega

theorem le32_bytes (h : n < 2 ^ 32) :
    le32 (byteOf n 0) (byteOf n 1) (byteOf n 2) (byteOf n 3) = n := by
  rw [le32, toNat_byteOf, toNat_byteOf, toNat_byteOf, toNat_byteOf]
  omega

theorem size_setEntrySize (h : n < 2 ^ 32) : (setEntrySize e n).size = n := le32_bytes n h

/-- The cluster is read back, if the type's entries have room for it. -/
theorem entryCluster_setEntryCluster (h : c < 2 ^ 32) (h16 : v.type ≠ .fat32 → c < 65536) :
    entryCluster v (setEntryCluster v e c) = c := by
  rw [entryCluster]
  by_cases ht : v.type = .fat32
  · rw [if_pos ht]
    have hlow : le16 (setEntryCluster v e c 26) (setEntryCluster v e c 27) = c % 65536 :=
      le16_bytes c
    have hhigh : le16 (setEntryCluster v e c 20) (setEntryCluster v e c 21) = c / 65536 := by
      simp only [setEntryCluster, ht, if_true]
      rw [if_neg (by decide), if_neg (by decide), if_neg (by decide), if_neg (by decide),
        if_neg (by decide), le16, toNat_byteOf, toNat_byteOf]
      omega
    rw [hlow, hhigh]
    omega
  · rw [if_neg ht]
    exact (le16_bytes c).trans (Nat.mod_eq_of_lt (h16 ht))

end Fields

/-! ## Life -/

/-- The attribute bytes the driver writes, 0x20 for files and 0x10 for directories. -/
def Plain (e : Entry) : Prop := e.attr = 0x20 ∨ e.attr = 0x10

theorem Plain.skipped_iff {e : Entry} (h : Plain e) : skipped e ↔ e 0 = 0xE5 := by
  rw [skipped, Entry.isVolumeId]
  rcases h with h | h
  · rw [h]
    simp [attrLfn, attrVolumeId]
  · rw [h]
    simp [attrLfn, attrVolumeId]

theorem Plain.live_iff {e : Entry} (h : Plain e) : Live e ↔ e 0 ≠ 0 ∧ e 0 ≠ 0xE5 := by
  rw [Live, ← Bool.not_eq_true, h.skipped_iff]

theorem markDeleted_first (e : Entry) : markDeleted e 0 = 0xE5 := rfl

theorem not_live_markDeleted (e : Entry) : ¬ Live (markDeleted e) := by
  intro h
  have : skipped (markDeleted e) := by
    rw [skipped, markDeleted_first]
    rfl
  cases h.2.symm.trans this

theorem not_isDot_markDeleted (e : Entry) : ¬ IsDot (markDeleted e) :=
  not_isDot_of_first (by rw [markDeleted_first]; decide)

/-- A slot that `free_entry_index` takes holds no dot entry and no live one. -/
theorem not_used {e : Entry} (h : ¬ FatScan.Used e) : ¬ IsDot e ∧ ¬ Live e := by
  rw [FatScan.Used, not_and_or, not_not, not_not] at h
  constructor
  · refine not_isDot_of_first fun h46 => ?_
    rcases h with h | h
    · rw [h] at h46
      exact absurd h46 (by decide)
    · rw [h] at h46
      exact absurd h46 (by decide)
  · rintro ⟨h0, hsk⟩
    rcases h with h | h
    · exact h0 h
    · rw [skipped, h] at hsk
      cases hsk

section Written

variable {v : Vol} (hv : Numbered v) (name : CString) {c : Nat}

include hv

/-- A cluster number fits into an entry. -/
theorem cluster_small (hc : validDataCluster v c) :
    c < 2 ^ 32 ∧ (v.type ≠ .fat32 → c < 65536) := by
  have hlt := ((hv.valid_iff c).mp hc).2
  have hsmall := hv.small
  have hmin := eocMin_le v
  refine ⟨by omega, fun ht => ?_⟩
  have : eocMin v ≤ 0xFFF8 := by
    rw [eocMin]
    cases htype : v.type with
    | none => exact absurd htype hv.geometry.available
    | fat12 => decide
    | fat16 => decide
    | fat32 => exact absurd htype ht
  omega

theorem entryCluster_written (e : Entry) (hc : validDataCluster v c) :
    entryCluster v (setEntryCluster v e c) = c :=
  entryCluster_setEntryCluster v e c (cluster_small hv hc).1 (cluster_small hv hc).2

end Written

end FatEntries
