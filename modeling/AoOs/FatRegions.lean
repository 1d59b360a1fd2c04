import AoOs.FatTable

/-! # The areas of a volume

    On a volume whose areas do not wrap around the 32-bit sector numbers and whose
    table has room for its clusters, the copies of the table, the fixed root
    directory and the data clusters lie one behind the other.  What a store to
    one of them does to the entries of the table is said here once. -/

namespace FatRegions

open BlockIO FatTypes FatDriver FatRead FatGeometry FatTable Nibbles
open BlockIO.BlockM (run written)

variable {c i lba : Nat}

/-! ## The areas -/

/-- A sector of a copy of the table. -/
def InFatCopy (v : Vol) (lba : Nat) : Prop :=
  ∃ i, i < v.fatCount ∧ v.reservedSectors + i * v.fatSize ≤ lba ∧
    lba < v.reservedSectors + (i + 1) * v.fatSize

/-- A sector of the fixed root directory. -/
def InRootArea (v : Vol) (lba : Nat) : Prop :=
  v.reservedSectors + v.fatCount * v.fatSize ≤ lba ∧ lba < metaSectors v

/-- A sector of cluster `c`. -/
def InCluster (v : Vol) (c lba : Nat) : Prop :=
  clusterSector v c ≤ lba ∧ lba < clusterSector v c + v.sectorsPerCluster

/-- A sector of a data cluster. -/
def InData (v : Vol) (lba : Nat) : Prop :=
  ∃ c, 2 ≤ c ∧ c < v.clusterCount + 2 ∧ InCluster v c lba

/-- A FAT32 FSInfo sector, the primary one or the backup. -/
def IsFsinfo (v : Vol) (lba : Nat) : Prop :=
  v.type = .fat32 ∧ (lba = v.fsinfoSector ∨ lba = v.backupBootSector + 1)

/-- Bits of one table entry. -/
def entryBits : FatType → Nat
  | .fat12 => 12
  | .fat16 => 16
  | _ => 32

/-- One copy of the table has an entry for every cluster. -/
def FatHolds (v : Vol) : Prop := entryBits v.type * (v.clusterCount + 2) ≤ 8 * (512 * v.fatSize)

theorem entryNib12 (base : Nat) (hc : c < 2 ^ 31) :
    entryNib .fat12 base c = 1024 * base + 3 * c := by
  have hoff : fatOffset .fat12 c = c + c / 2 := u32_of_lt (by omega)
  rw [entryNib, hoff]
  by_cases hodd : c % 2 = 1
  · rw [if_pos ⟨rfl, hodd⟩]
    omega
  · rw [if_neg fun h => hodd h.2]
    omega

/-- The copy `i` of the table ends in front of the root directory. -/
theorem copy_end {v : Vol} (hi : i < v.fatCount) :
    v.reservedSectors + (i + 1) * v.fatSize ≤ v.reservedSectors + v.fatCount * v.fatSize := by
  have := Nat.mul_le_mul_right v.fatSize (show i + 1 ≤ v.fatCount from hi)
  omega

theorem InRootArea.not_copy {v : Vol} (h : InRootArea v lba) : ¬ InFatCopy v lba := by
  rintro ⟨i, hi, _, hlt⟩
  have := copy_end hi
  have := h.1
  omega

/-- A mounted volume whose areas do not wrap around and whose table is large enough. -/
structure Laid (v : Vol) : Prop where
  mounted : Mounted v
  fits : metaSectors v < 2 ^ 32
  holds : FatHolds v

section Laid

variable {v : Vol} (hv : Laid v)

include hv

theorem Laid.geometry : Geometry v := Mounted.geometry hv.mounted

theorem Laid.firstData_eq : v.firstData = metaSectors v := by
  rw [hv.geometry.firstData_eq]
  exact u32_of_lt hv.fits

theorem Laid.clusterLimit_eq : clusterLimit v = v.clusterCount + 2 := by
  have hg := hv.geometry
  have hfit := hg.clusters_fit
  have hpos := hg.perCluster_pos
  have htotal := hg.total_lt
  have hres := hg.reserved_pos
  have hfirst := hv.firstData_eq
  have hmul : v.clusterCount * 1 ≤ v.clusterCount * v.sectorsPerCluster :=
    Nat.mul_le_mul_left _ hpos
  have hfat : 1 * 1 ≤ v.fatCount * v.fatSize := Nat.mul_le_mul hg.fatCount_pos hg.fatSize_pos
  rw [metaSectors] at hfirst
  exact u32_of_lt (by omega)

theorem Laid.valid_iff (c : Nat) : validDataCluster v c ↔ 2 ≤ c ∧ c < v.clusterCount + 2 := by
  rw [validDataCluster, Bool.and_eq_true, decide_eq_true_eq, decide_eq_true_eq, hv.clusterLimit_eq]

theorem Laid.copy_base (hi : i < v.fatCount) :
    u32 (v.reservedSectors + i * v.fatSize) = v.reservedSectors + i * v.fatSize := by
  have hend := copy_end hi
  have hfits := hv.fits
  rw [metaSectors] at hfits
  rw [Nat.succ_mul] at hend
  exact u32_of_lt (by omega)

/-- A sector of a data cluster lies behind the table and the root directory. -/
theorem Laid.data_ge (h : InData v lba) : metaSectors v ≤ lba := by
  obtain ⟨c, h2, hc, hlow, _⟩ := h
  rw [(hv.geometry.clusterSector_eq h2 hc).1] at hlow
  have := hv.firstData_eq
  omega

theorem Laid.not_copy_of_data (h : InData v lba) : ¬ InFatCopy v lba := by
  rintro ⟨i, hi, _, hlt⟩
  have := copy_end hi
  have hge := hv.data_ge h
  rw [metaSectors] at hge
  omega

/-- The sectors of a data cluster, as the driver computes their numbers. -/
theorem Laid.cluster_sector {s : Nat} (hc : validDataCluster v c) (hs : s < v.sectorsPerCluster) :
    u32 (clusterSector v c + s) = clusterSector v c + s ∧
      InCluster v c (clusterSector v c + s) := by
  obtain ⟨h2, hlt⟩ := (hv.valid_iff c).mp hc
  obtain ⟨_, hend⟩ := hv.geometry.clusterSector_eq h2 hlt
  have := hv.geometry.total_lt
  exact ⟨u32_of_lt (by omega), Nat.le_add_right _ _, by omega⟩

theorem Laid.inData_cluster {s : Nat} (hc : validDataCluster v c) (hs : s < v.sectorsPerCluster) :
    InData v (u32 (clusterSector v c + s)) := by
  obtain ⟨heq, hin⟩ := hv.cluster_sector hc hs
  obtain ⟨h2, hlt⟩ := (hv.valid_iff c).mp hc
  rw [heq]
  exact ⟨c, h2, hlt, hin⟩

/-! ## Entries inside their copy -/

theorem Laid.fat12_count (ht : v.type = .fat12) : v.clusterCount < 4085 := by
  by_contra hn
  have htype := hv.geometry.type_eq
  rw [ht, if_neg hn] at htype
  split at htype <;> cases htype

/-- The last nibble of an entry is inside the first `fatSize` sectors. -/
theorem Laid.entry_inside (hc : validDataCluster v c) (base : Nat) :
    1024 * base ≤ entryNib v.type base c ∧
    entryNib v.type base c + width v.type ≤ 1024 * (base + v.fatSize) := by
  obtain ⟨h2, hlt⟩ := (hv.valid_iff c).mp hc
  have hholds := hv.holds
  rw [FatHolds] at hholds
  refine ⟨by rw [entryNib]; omega, ?_⟩
  cases ht : v.type with
  | none => exact absurd ht hv.geometry.available
  | fat12 =>
    rw [ht] at hholds
    have hn := hv.fat12_count ht
    simp only [entryBits] at hholds
    rw [entryNib12 base (by omega), width]
    omega
  | fat16 =>
    rw [ht] at hholds
    simp only [entryBits] at hholds
    have hoff : fatOffset .fat16 c ≤ c * 2 := Nat.mod_le _ _
    rw [entryNib, if_neg (by simp)]
    simp only [width]
    omega
  | fat32 =>
    rw [ht] at hholds
    simp only [entryBits] at hholds
    have hoff : fatOffset .fat32 c ≤ c * 4 := Nat.mod_le _ _
    rw [entryNib, if_neg (by simp)]
    simp only [width]
    omega

/-- Two entries of a copy are the same window or do not overlap. -/
theorem Laid.entry_same_or_disjoint {k : Nat} (hc : validDataCluster v c)
    (hk : validDataCluster v k) (base : Nat) : entryNib v.type base k = entryNib v.type base c ∨
    entryNib v.type base k + width v.type ≤ entryNib v.type base c ∨
    entryNib v.type base c + width v.type ≤ entryNib v.type base k := by
  obtain ⟨_, hclt⟩ := (hv.valid_iff c).mp hc
  obtain ⟨_, hklt⟩ := (hv.valid_iff k).mp hk
  cases ht : v.type with
  | none => exact absurd ht hv.geometry.available
  | fat12 =>
    have hn := hv.fat12_count ht
    rw [entryNib12 base (by omega), entryNib12 base (by omega), width]
    omega
  | fat16 =>
    have h := (fatOffset_aligned (t := .fat16) c).1 rfl
    have h' := (fatOffset_aligned (t := .fat16) k).1 rfl
    rw [entryNib, entryNib, if_neg (by simp), if_neg (by simp)]
    simp only [width]
    omega
  | fat32 =>
    have h := (fatOffset_aligned (t := .fat32) c).2 (by decide) (by decide)
    have h' := (fatOffset_aligned (t := .fat32) k).2 (by decide) (by decide)
    rw [entryNib, entryNib, if_neg (by simp), if_neg (by simp)]
    simp only [width]
    omega

/-! ## Stores to the table -/

/-- A sector of one of the copies `i, i + 1, …`. -/
def InCopiesFrom (v : Vol) (i lba : Nat) : Prop :=
  ∃ j, i ≤ j ∧ j < v.fatCount ∧ v.reservedSectors + j * v.fatSize ≤ lba ∧
    lba < v.reservedSectors + (j + 1) * v.fatSize

theorem Laid.entry_sectors (hc : validDataCluster v c) : fatOffset v.type c / 512 < v.fatSize ∧
    (v.type = .fat12 → fatOffset v.type c % 512 = 511 →
      fatOffset v.type c / 512 + 1 < v.fatSize) := by
  have hin := (hv.entry_inside hc 0).2
  have hw : 3 ≤ width v.type := by cases v.type <;> decide
  rw [entryNib] at hin
  exact ⟨by omega, fun _ _ => by omega⟩

theorem Laid.fatSetCopy_writesIn (hc : validDataCluster v c) (value : Nat) (hi : i < v.fatCount) :
    WritesIn (InCopiesFrom v i) (fatSetCopy v (v.reservedSectors + i * v.fatSize) c value) := by
  obtain ⟨hs, hs1⟩ := hv.entry_sectors hc
  have hend := copy_end hi
  have hfits := hv.fits
  rw [metaSectors] at hfits
  have hsize : (i + 1) * v.fatSize = i * v.fatSize + v.fatSize := Nat.succ_mul _ _
  have hin : ∀ q, q < v.fatSize →
      InCopiesFrom v i (u32 (v.reservedSectors + i * v.fatSize + q)) := by
    intro q hq
    rw [u32_of_lt (by omega)]
    exact ⟨i, Nat.le_refl i, hi, by omega, by omega⟩
  have hfirst := hin _ hs
  rw [fatSetCopy]
  refine writesIn_bind (writesIn_readSector _) fun r => ?_
  cases r with
  | none => exact writesIn_pure _
  | some sec =>
    refine writesIn_ite (fun h12 => writesIn_ite (fun hpos => ?_) fun _ => ?_) fun _ => ?_
    · refine writesIn_bind (writesIn_readSector _) fun r => ?_
      cases r with
      | none => exact writesIn_pure _
      | some next =>
        have hnext := hin _ (hs1 h12 hpos)
        have hwrap : u32 (u32 (v.reservedSectors + i * v.fatSize + fatOffset v.type c / 512) + 1)
            = u32 (v.reservedSectors + i * v.fatSize + (fatOffset v.type c / 512 + 1)) := by
          rw [u32_of_lt (n := v.reservedSectors + i * v.fatSize + fatOffset v.type c / 512)
            (by omega)]
          rfl
        rw [← hwrap] at hnext
        refine writesIn_bind (writesIn_writeSector _ hnext) fun r => ?_
        exact writesIn_ite (fun _ => writesIn_writeSector _ hfirst) fun _ => writesIn_pure _
    · exact writesIn_writeSector _ hfirst
    · exact writesIn_ite (fun _ => writesIn_writeSector _ hfirst) fun _ =>
        writesIn_writeSector _ hfirst

theorem Laid.fatSetFrom_writesIn (hc : validDataCluster v c) (value : Nat) (n i)
    (hn : i + n = v.fatCount) : WritesIn (InCopiesFrom v i) (fatSetFrom v c value n i) := by
  induction n generalizing i with
  | zero => exact writesIn_pure _
  | succ n ih =>
    have hi : i < v.fatCount := by omega
    rw [fatSetFrom, hv.copy_base hi]
    refine writesIn_bind (hv.fatSetCopy_writesIn hc value hi) fun r => ?_
    refine writesIn_ite (fun _ => ?_) fun _ => writesIn_pure _
    refine (ih (i + 1) (by omega)).mono ?_
    rintro lba ⟨j, hj, h⟩
    exact ⟨j, by omega, h⟩

theorem Laid.fatSet_writesIn (hc : validDataCluster v c) (value : Nat) :
    WritesIn (InFatCopy v) (fatSet v c value) :=
  (hv.fatSetFrom_writesIn hc value v.fatCount 0 (Nat.zero_add _)).mono
    fun _ ⟨j, _, h⟩ => ⟨j, h⟩

/-- `fat_get` looks only at the first copy. -/
theorem Laid.fatVal_congr {ok : Nat → Bool} {d d' : Disk} (hc : validDataCluster v c)
    (h : ∀ a, v.reservedSectors ≤ a / sectorSize → a / sectorSize < v.reservedSectors + v.fatSize →
      d' a = d a) : fatVal ok v d' c = fatVal ok v d c := by
  have hbase : v.reservedSectors + 2 ^ 23 < 2 ^ 32 := by
    have := hv.geometry.reserved_lt
    omega
  obtain ⟨hlow, hhigh⟩ := hv.entry_inside hc v.reservedSectors
  by_cases hr : Readable ok v v.reservedSectors c
  · rw [fatVal_readable hbase d hr, fatVal_readable hbase d' hr]
    refine field_congr fun k hk => nib_congr (h _ ?_ ?_)
    · rw [sectorSize]
      omega
    · rw [sectorSize]
      omega
  · rw [fatVal_unreadable hbase d hr, fatVal_unreadable hbase d' hr]

/-- A program that writes nothing of the table leaves its entries alone. -/
theorem Laid.fatVal_frame {α : Type} {P : Nat → Prop} {p : BlockM α} (hp : WritesIn P p)
    (hP : ∀ lba, P lba → ¬ InFatCopy v lba) (ok : Nat → Bool) (d : Disk)
    (hc : validDataCluster v c) :
    fatVal ok v (run ok p d).2 c = fatVal ok v d c := by
  refine hv.fatVal_congr hc fun a hlow hhigh => hp.run_eq ok d fun hPa => hP _ hPa ?_
  exact ⟨0, hv.geometry.fatCount_pos, by omega, by omega⟩

/-- What a store to entry `c` does to the entries: they keep their value or take
    the new one, whatever fails. -/
theorem Laid.fatVal_fatSet (ok : Nat → Bool) (d : Disk) {k : Nat} (value : Nat)
    (hc : validDataCluster v c) (hk : validDataCluster v k) :
    fatVal ok v (run ok (fatSet v c value) d).2 k = fatVal ok v d k ∨
    fatVal ok v (run ok (fatSet v c value) d).2 k = value % 16 ^ width v.type := by
  have hbase : v.reservedSectors + 2 ^ 23 < 2 ^ 32 := by
    have := hv.geometry.reserved_lt
    omega
  have hcount := hv.geometry.fatCount_pos
  obtain ⟨n, hn⟩ := Nat.exists_eq_succ_of_ne_zero (Nat.ne_of_gt hcount)
  have hfirst : u32 (v.reservedSectors + 0 * v.fatSize) = v.reservedSectors := by
    rw [hv.copy_base hcount, Nat.zero_mul, Nat.add_zero]
  rw [fatSet, hn, fatSetFrom, run_bind, hfirst]
  by_cases hr : Readable ok v v.reservedSectors c
  · obtain ⟨d', hrun, hset⟩ := run_fatSetCopy hbase d value hr
    rw [hrun]
    -- the other copies lie behind the first
    have hrest : fatVal ok v (run ok (fatSetFrom v c value n 1) d').2 k = fatVal ok v d' k := by
      refine hv.fatVal_congr hk fun a _ hhigh =>
        (hv.fatSetFrom_writesIn hc value n 1 (by omega)).run_eq ok d' ?_
      rintro ⟨j, hj, _, hlow, _⟩
      have := Nat.mul_le_mul_right v.fatSize hj
      omega
    rw [show run ok (if true then fatSetFrom v c value n (0 + 1) else pure false) d' =
      run ok (fatSetFrom v c value n 1) d' from rfl, hrest]
    by_cases hrk : Readable ok v v.reservedSectors k
    · rw [fatVal_readable hbase d' hrk, fatVal_readable hbase d hrk]
      rcases hv.entry_same_or_disjoint hc hk v.reservedSectors with heq | hdisj
      · rw [heq]
        exact .inr hset.inside
      · exact .inl (hset.field_other hdisj)
    · rw [fatVal_unreadable hbase d' hrk, fatVal_unreadable hbase d hrk]
      exact .inl rfl
  · have := fatOffset_lt v.type c
    rw [run_fatSetCopy_unreadable (by omega) d value hr]
    exact .inl rfl

end Laid

end FatRegions
