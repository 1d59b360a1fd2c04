import AoOs.FatConfined

/-! # Disk usage — `fat_get_disk_info`

    The three figures are computed in 32 bits: the number of clusters, and that of
    the free ones, times the bytes of a cluster, and only then divided by 1024.  The
    products wrap from four gigabytes on; below that the figures are exact, whatever
    the table holds (`usage_exact_iff`). -/

namespace FatUsage

open BlockIO BlockM FatTypes FatDriver FatRead FatGeometry FatTable Nibbles

/-- Entry `c` of the table, as the first copy holds it. -/
def tableEntry (v : Vol) (d : Disk) (c : Nat) : Nat :=
  field d (width v.type) (entryNib v.type v.reservedSectors c)

/-- The number of data clusters whose entry is zero. -/
def freeClusters (v : Vol) (d : Disk) : Nat :=
  (List.range' 2 v.clusterCount).countP fun c => tableEntry v d c = 0

/-- Kilobytes in some clusters, rounded down. -/
def kilobytes (v : Vol) (clusters : Nat) : Nat := clusters * v.sectorsPerCluster * 512 / 1024

/-- The figures are those of exact arithmetic. -/
structure UsageExact (v : Vol) (d : Disk) (figures : Nat × Nat × Nat) : Prop where
  total : figures.1 = kilobytes v v.clusterCount
  free : figures.2.2 = kilobytes v (freeClusters v d)
  free_le : figures.2.2 ≤ figures.1
  used : figures.2.1 = figures.1 - figures.2.2

variable {v : Vol}

theorem exec_fatGet (hg : Geometry v) (d : Disk) (c : Nat) :
    exec (fatGet v c) d = (tableEntry v d c, d) := by
  refine Prod.ext ?_ ((fatGet_noWrites v c).readOnly _ d)
  have hread : Readable (fun _ => true) v v.reservedSectors c := ⟨rfl, fun _ _ => rfl⟩
  exact fatVal_readable (by have := hg.reserved_lt; omega) d hread

theorem exec_countFree (hg : Geometry v) (d : Disk) (n c : Nat) :
    exec (countFree v n c) d = ((List.range' c n).countP fun c => tableEntry v d c = 0, d) := by
  induction n generalizing c with
  | zero => rfl
  | succ n ih =>
    rw [countFree, exec_bind, exec_fatGet hg]
    dsimp only
    rw [exec_bind, ih, List.range'_succ, List.countP_cons, Nat.add_comm]
    by_cases hz : tableEntry v d c = 0
    · simp [hz]
    · simp [hz]

theorem freeClusters_le (v : Vol) (d : Disk) : freeClusters v d ≤ v.clusterCount := by
  have h := List.countP_le_length (p := fun c => decide (tableEntry v d c = 0))
    (l := List.range' 2 v.clusterCount)
  rwa [List.length_range'] at h

/-- What is reported, in the arithmetic of the source. -/
theorem exec_fatGetDiskInfo (hg : Geometry v) (hsize : v.totalSectors ≤ 2 ^ 28) (d : Disk) :
    (exec (fatGetDiskInfo v) d).1 =
      (u32 (v.clusterCount * (v.sectorsPerCluster * 512)) / 1024,
        u32 (u32 (v.clusterCount * (v.sectorsPerCluster * 512)) / 1024 +
          (2 ^ 32 - u32 (freeClusters v d * (v.sectorsPerCluster * 512)) / 1024)),
        u32 (freeClusters v d * (v.sectorsPerCluster * 512)) / 1024) := by
  have hcount : v.clusterCount ≤ 2 ^ 28 := by
    rw [hg.clusterCount_eq]
    exact Nat.le_trans (Nat.div_le_self _ _) (by omega)
  have hlimit : clusterLimit v - 2 = v.clusterCount := by
    rw [clusterLimit, u32_of_lt (by omega)]
    omega
  rw [fatGetDiskInfo, exec_bind, hlimit, exec_countFree hg]
  rfl

/-- A product that has wrapped is too small, by more than the division hides. -/
theorem wrapped_kilobytes {n : Nat} : u32 n / 1024 = n / 1024 ↔ n < 2 ^ 32 := by
  rw [u32]
  omega

/-- **Usage figures.**  For every volume that `mount_drive` accepts on a disk of at
    most `2 ^ 28` sectors and every contents of its table, the figures are exact
    exactly when the data area is smaller than four gigabytes. -/
theorem usage_exact_iff {v : Vol} (hm : Mounted v) (hsize : v.totalSectors ≤ 2 ^ 28) (d : Disk) :
    UsageExact v d (exec (fatGetDiskInfo v) d).1 ↔
      v.clusterCount * v.sectorsPerCluster * 512 < 2 ^ 32 := by
  have hassoc : ∀ n, kilobytes v n = n * (v.sectorsPerCluster * 512) / 1024 := fun n => by
    rw [kilobytes, Nat.mul_assoc]
  rw [exec_fatGetDiskInfo (Mounted.geometry hm) hsize, Nat.mul_assoc]
  constructor
  · intro h
    have htotal := h.total
    rw [hassoc] at htotal
    exact wrapped_kilobytes.mp htotal
  · intro hlt
    have hle : freeClusters v d * (v.sectorsPerCluster * 512) ≤
        v.clusterCount * (v.sectorsPerCluster * 512) :=
      Nat.mul_le_mul_right _ (freeClusters_le v d)
    rw [u32_of_lt hlt, u32_of_lt (Nat.lt_of_le_of_lt hle hlt)]
    have hkb := Nat.div_le_div_right (c := 1024) hle
    refine ⟨(hassoc _).symm, (hassoc _).symm, hkb, ?_⟩
    dsimp only [u32]
    omega

/-- A boot sector with eight sectors per cluster, one reserved sector, one table
    and no root directory of fixed size. -/
def largeSector (fatSize total : Nat) : Sector := fun i =>
  if i = 12 then 2 else if i = 13 then 8 else if i = 14 then 1 else if i = 16 then 1
  else if 32 ≤ i ∧ i < 36 then UInt8.ofNat (total / 256 ^ (i - 32))
  else if 36 ≤ i ∧ i < 40 then UInt8.ofNat (fatSize / 256 ^ (i - 36))
  else if i = 44 then 2
  else if i = 510 then 0x55 else if i = 511 then 0xAA else 0

def largeVol (fatSize total : Nat) : Vol := (readBpb (largeSector fatSize total)).toVol 0 fun _ => 0

/-- **Eight gigabytes with nothing on them**: four of them are not reported. -/
theorem usage_wraps :
    mountSector 0 (largeSector 0x4000 0x1000000) (fun _ => 0) = some (largeVol 0x4000 0x1000000) ∧
      (exec (fatGetDiskInfo (largeVol 0x4000 0x1000000)) fun _ => 0).1.1 = 4186108 ∧
      kilobytes (largeVol 0x4000 0x1000000) (largeVol 0x4000 0x1000000).clusterCount = 8380412 ∧
      ¬ UsageExact (largeVol 0x4000 0x1000000) (fun _ => 0)
        (exec (fatGetDiskInfo (largeVol 0x4000 0x1000000)) fun _ => 0).1 := by
  have hm : mountSector 0 (largeSector 0x4000 0x1000000) (fun _ => 0) =
      some (largeVol 0x4000 0x1000000) := if_pos (by decide)
  have htotal : (exec (fatGetDiskInfo (largeVol 0x4000 0x1000000)) fun _ => 0).1.1 = 4186108 := by
    rw [exec_fatGetDiskInfo (Mounted.geometry (Mounted.of_mountSector hm)) (by decide)]
    decide
  have hexact : kilobytes (largeVol 0x4000 0x1000000) (largeVol 0x4000 0x1000000).clusterCount =
      8380412 := by decide
  refine ⟨hm, htotal, hexact, fun h => ?_⟩
  have := h.total
  rw [htotal, hexact] at this
  exact absurd this (by decide)

/-- A volume of some 256 megabytes. -/
theorem usage_exact_large : UsageExact (largeVol 0x400 0x80000) (fun _ => 0)
      (exec (fatGetDiskInfo (largeVol 0x400 0x80000)) fun _ => 0).1 := by
  have hm : mountSector 0 (largeSector 0x400 0x80000) (fun _ => 0) =
      some (largeVol 0x400 0x80000) := if_pos (by decide)
  exact (usage_exact_iff (Mounted.of_mountSector hm) (by decide) _).mpr (by decide)

end FatUsage
