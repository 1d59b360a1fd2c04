import AoOs.FatGeometry

/-! # When a mounted geometry is consistent

    `mount_drive` computes the first data sector in 32 bits and compares it with the
    size of the volume.  It does not notice that the sum has wrapped around, it does
    not compare the size of the table with the number of clusters, and of the FAT32
    root cluster it asks only that it is at least 2.  What remains to be asked of a
    boot sector is stated here on its fields alone, with sums that do not wrap. -/

namespace FatConsistent

open BlockIO FatTypes FatDriver FatRead FatGeometry

/-! ## Consistency -/

/-- Bytes of a table entry, as `fat_get` reads it. -/
def entryBytes : FatType → Nat
  | .fat32 => 4
  | _ => 2

/-- The bytes of entry `c` lie in the first copy of the table. -/
def EntryInCopy (v : Vol) (c : Nat) : Prop :=
  fatOffset v.type c + entryBytes v.type ≤ 512 * v.fatSize

/-- A geometry the driver can rely on. -/
structure Consistent (v : Vol) : Prop where
  exact : v.firstData = v.reservedSectors + v.fatCount * v.fatSize + v.rootSectors
  below : v.firstData < v.totalSectors
  entries : ∀ c, 2 ≤ c → c < v.clusterCount + 2 → EntryInCopy v c
  sectors : ∀ c s, 2 ≤ c → c < v.clusterCount + 2 → s < v.sectorsPerCluster →
    u32 (clusterSector v c + s) < v.totalSectors
  root : v.type = .fat32 → 2 ≤ v.rootCluster ∧ v.rootCluster < v.clusterCount + 2

/-! ## The condition on the boot sector -/

/-- The sectors in front of the data area that the boot sector asks for. -/
def declaredMeta (b : Bpb) : Nat := b.reservedSectors + b.fatCount * b.fatSize + b.rootSectors

/-- The clusters that fit behind them. -/
def declaredClusters (b : Bpb) : Nat := (b.totalSectors - declaredMeta b) / b.sectorsPerCluster

/-- A table of `size` sectors has an entry for each of `n` clusters.  The offset of a
    FAT32 entry is a 32-bit number, so there are at most `2 ^ 30` of them. -/
def TableHolds (size n : Nat) : Prop :=
  if n < 4085 then 3 * (n + 2) ≤ 1024 * size
  else if n < 65525 then 2 * (n + 2) ≤ 512 * size
  else 4 * min (n + 2) (2 ^ 30) ≤ 512 * size

/-- What `mount_drive` leaves unchecked. -/
def Sound (b : Bpb) : Prop :=
  declaredMeta b < b.totalSectors ∧ TableHolds b.fatSize (declaredClusters b) ∧
  (65525 ≤ declaredClusters b → b.rootCluster32 < declaredClusters b + 2)

/-! ## Entries -/

section Entries

variable {v : Vol} (hg : Geometry v)

include hg

theorem entries_iff : (∀ c, 2 ≤ c → c < v.clusterCount + 2 → EntryInCopy v c) ↔
    TableHolds v.fatSize v.clusterCount := by
  have hpos := hg.fatSize_pos
  have htype := hg.type_eq
  rw [TableHolds]
  by_cases h12 : v.clusterCount < 4085
  · rw [if_pos h12] at htype
    rw [if_pos h12]
    have hoff : ∀ c, c < v.clusterCount + 2 →
        (EntryInCopy v c ↔ c + c / 2 + 2 ≤ 512 * v.fatSize) := by
      intro c hc
      rw [EntryInCopy, htype, show fatOffset .fat12 c = c + c / 2 from u32_of_lt (by omega)]
      rfl
    constructor
    · intro h
      -- the last cluster, if there is one
      by_cases h0 : v.clusterCount = 0
      · omega
      · have hlast := (hoff (v.clusterCount + 1) (by omega)).mp (h _ (by omega) (by omega))
        omega
    · intro h c _ hc
      exact (hoff c hc).mpr (by omega)
  rw [if_neg h12] at htype
  rw [if_neg h12]
  by_cases h16 : v.clusterCount < 65525
  · rw [if_pos h16] at htype
    rw [if_pos h16]
    have hoff : ∀ c, c < v.clusterCount + 2 → (EntryInCopy v c ↔ c * 2 + 2 ≤ 512 * v.fatSize) := by
      intro c hc
      rw [EntryInCopy, htype, show fatOffset .fat16 c = c * 2 from u32_of_lt (by omega)]
      rfl
    constructor
    · intro h
      have hlast := (hoff (v.clusterCount + 1) (by omega)).mp (h _ (by omega) (by omega))
      omega
    · intro h c _ hc
      exact (hoff c hc).mpr (by omega)
  rw [if_neg h16] at htype
  rw [if_neg h16]
  have hoff : ∀ c, EntryInCopy v c ↔ c * 4 % 2 ^ 32 + 4 ≤ 512 * v.fatSize := by
    intro c
    rw [EntryInCopy, htype]
    rfl
  constructor
  · intro h
    -- the last cluster before the offsets wrap around
    have hlast := (hoff _).mp (h (min (v.clusterCount + 2) (2 ^ 30) - 1) (by omega) (by omega))
    omega
  · intro h c _ hc
    exact (hoff c).mpr (by omega)

theorem sectors_below {c s : Nat} (h2 : 2 ≤ c) (hc : c < v.clusterCount + 2)
    (hs : s < v.sectorsPerCluster) : u32 (clusterSector v c + s) < v.totalSectors := by
  have hend := (hg.clusterSector_eq h2 hc).2
  have hle : u32 (clusterSector v c + s) ≤ clusterSector v c + s := Nat.mod_le _ _
  omega

theorem type_eq_fat32_iff : v.type = .fat32 ↔ 65525 ≤ v.clusterCount := by
  rw [hg.type_eq]
  by_cases h12 : v.clusterCount < 4085
  · rw [if_pos h12]
    exact ⟨(nomatch ·), fun h => by omega⟩
  rw [if_neg h12]
  by_cases h16 : v.clusterCount < 65525
  · rw [if_pos h16]
    exact ⟨(nomatch ·), fun h => by omega⟩
  · rw [if_neg h16]
    exact ⟨fun _ => by omega, fun _ => rfl⟩

end Entries

/-! ## The exact condition -/

/-- **Which boot sectors mount consistently**: of those that `mount_drive` accepts,
    the sound ones. -/
theorem mount_consistent_iff {drive : Nat} {sector : Sector} {cwd : Nat → UInt8} {v : Vol}
    (h : mountSector drive sector cwd = some v) : Consistent v ↔ Sound (readBpb sector) := by
  have hg : Geometry v := Mounted.geometry (Mounted.of_mountSector h)
  obtain ⟨_, rfl⟩ := mountSector_eq_some h
  generalize readBpb sector = b at *
  have htotal : b.totalSectors < 2 ^ 32 := hg.total_lt
  -- without wrap-around the cluster count is the declared one
  have hcount : b.firstData = declaredMeta b →
      (b.toVol drive cwd).clusterCount = declaredClusters b :=
    fun heq => congrArg (fun m => (b.totalSectors - m) / b.sectorsPerCluster) heq
  have hroot : (b.toVol drive cwd).type = .fat32 →
      (b.toVol drive cwd).rootCluster = b.rootCluster32 := fun ht => if_pos ht
  constructor
  · intro hc
    have heq : b.firstData = declaredMeta b := hc.exact
    refine ⟨?_, ?_, fun h32 => ?_⟩
    · rw [← heq]
      exact hc.below
    · rw [← hcount heq]
      exact (entries_iff hg).mp hc.entries
    · rw [← hcount heq] at h32 ⊢
      have ht := (type_eq_fat32_iff hg).mpr h32
      rw [← hroot ht]
      exact (hc.root ht).2
  · rintro ⟨hmeta, htable, hr⟩
    have heq : b.firstData = declaredMeta b := u32_of_lt (Nat.lt_trans hmeta htotal)
    rw [← hcount heq] at htable hr
    refine ⟨heq, hg.firstData_lt, (entries_iff hg).mpr htable,
      fun c s h2 hc hs => sectors_below hg h2 hc hs, fun ht => ⟨hg.root_ge ht, ?_⟩⟩
    rw [hroot ht]
    exact hr ((type_eq_fat32_iff hg).mp ht)

/-! ## Boot sectors that mount without being sound -/

/-- A boot sector with one reserved sector, one sector per cluster and 16 root
    entries. -/
def bootSector (fats fatSize total : Nat) (rootCluster : UInt8) : Sector := fun i =>
  if i = 12 then 2 else if i = 13 then 1 else if i = 14 then 1
  else if i = 16 then UInt8.ofNat fats else if i = 17 then 16
  else if 32 ≤ i ∧ i < 36 then UInt8.ofNat (total / 256 ^ (i - 32))
  else if 36 ≤ i ∧ i < 40 then UInt8.ofNat (fatSize / 256 ^ (i - 36))
  else if i = 44 ∨ i = 46 then rootCluster
  else if i = 510 then 0x55 else if i = 511 then 0xAA else 0

def mountOf (s : Sector) : Vol := (readBpb s).toVol 0 fun _ => 0

/-- A table of one sector for 397 clusters: entry 350 is in the root directory. -/
def shortTable : Sector := bootSector 1 1 400 0

/-- Two copies of `2 ^ 31` sectors on a disk of ten. -/
def wrappedTables : Sector := bootSector 2 (2 ^ 31) 10 0

/-- FAT32 with root cluster `0xFF00FF` of some 70000. -/
def farRoot : Sector := bootSector 1 600 70000 0xFF

/-- Each part of consistency fails on a boot sector that `mount_drive` accepts. -/
theorem inconsistent_mounts : (mountSector 0 shortTable (fun _ => 0) = some (mountOf shortTable) ∧
      350 < (mountOf shortTable).clusterCount + 2 ∧ ¬ EntryInCopy (mountOf shortTable) 350) ∧
    (mountSector 0 wrappedTables (fun _ => 0) = some (mountOf wrappedTables) ∧
      (mountOf wrappedTables).firstData = 2 ∧ metaSectors (mountOf wrappedTables) = 2 ^ 32 + 2) ∧
    (mountSector 0 farRoot (fun _ => 0) = some (mountOf farRoot) ∧ (mountOf farRoot).type = .fat32 ∧
      ¬ (mountOf farRoot).rootCluster < (mountOf farRoot).clusterCount + 2) := by
  refine ⟨⟨if_pos (by decide), by decide, ?_⟩, ⟨if_pos (by decide), by decide +kernel, by rfl⟩,
    ⟨if_pos (by decide), by decide +kernel, by decide +kernel⟩⟩
  rw [EntryInCopy]
  decide +kernel

/-- The boot sector of a sound volume: 337 clusters with a table of one sector. -/
theorem mount_consistent_small : Consistent (mountOf (bootSector 1 1 340 0)) := by
  have hm : mountSector 0 (bootSector 1 1 340 0) (fun _ => 0) =
      some (mountOf (bootSector 1 1 340 0)) := if_pos (by decide)
  refine (mount_consistent_iff hm).mpr ?_
  rw [Sound, TableHolds]
  decide

end FatConsistent
