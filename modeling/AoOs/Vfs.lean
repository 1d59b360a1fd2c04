import AoOs.FatGeometry
import AoOs.FatInit

/-! # The VFS — path resolution over a backend with a current directory

    `vfs.c` picks the mount with the longest matching prefix and hands the rest of
    the path to that backend.  For the root mount the rest is the path without its
    slash, and the FAT driver looks names up in its CURRENT directory: an absolute
    path and a relative one reach it as the same string.

    So an absolute path means the same in two current directories exactly when
    they are one directory. -/

namespace Vfs

open BlockIO BlockM FatTypes FatDriver FatRead FatInit FatGeometry

variable {c' s : Nat}

/-! ## Mounts and resolution -/

/-- The entries of a `vfs_ops_t` that take a path and data; a null pointer is
    `none`. -/
structure VfsOps where
  create : Option (CString → List UInt8 → BlockM Bool)
  read : Option (CString → Nat → BlockM ReadResult)
  delete : Option (CString → BlockM Bool)

/-- The operations of the FAT driver, with its static variables. -/
def fatOps (v : Vol) : VfsOps := ⟨some (fatCreate v), some (fatRead v), some (fatDelete v)⟩

/-- What a mount's `ops` points to: nothing, `fat_ops`, or another backend. -/
inductive Backend where
  | null
  | fat
  | other (ops : VfsOps)

def Backend.ops (v : Vol) : Backend → Option VfsOps
  | .null => none
  | .fat => some (fatOps v)
  | .other ops => some ops

/-- `mount_t` as `vfs_mount` fills it: an absolute path of at most 31 characters. -/
structure Mount where
  path : CString
  absolute : path.chars.head? = some 47
  fits : path.chars.length < 32
  ops : Backend

variable {mounts : List Mount} (boot : Sector)

/-- `is_sep`. -/
def isSep (c : UInt8) : Bool := c == 47 || c == 0

/-- The character at index `i`, the terminator behind the last one. -/
def charAt (s : CString) (i : Nat) : UInt8 := s.chars.getD i 0

/-- The string that starts `n` characters in. -/
def dropChars (s : CString) (n : Nat) : CString :=
  ⟨s.chars.drop n, fun h => s.noNul (List.mem_of_mem_drop h)⟩

def emptyString : CString := ⟨[], nofun⟩

/-- `best_len`, which starts at `-1`. -/
def bestLen : Option (Mount × Nat) → Int
  | none => -1
  | some (_, len) => len

/-- The loop of `resolve`. -/
def resolveFrom (path : CString) : List Mount → Option (Mount × Nat) → Option (Mount × Nat)
  | [], best => best
  | m :: ms, best =>
    if m.path.chars.length = 1 then
      resolveFrom path ms (if bestLen best < 1 then some (m, 1) else best)
    else if m.path.chars.isPrefixOf path.chars ∧ isSep (charAt path m.path.chars.length) ∧
        bestLen best < m.path.chars.length then
      resolveFrom path ms (some (m, m.path.chars.length))
    else resolveFrom path ms best

/-- `resolve`: the backend and the rest of the path. -/
def resolve (mounts : List Mount) (path : CString) : Option (Backend × CString) :=
  match mounts with
  | [] => none
  | first :: _ =>
    if charAt path 0 ≠ 47 then some (first.ops, path)
    else match resolveFrom path mounts none with
      | none => none
      | some (m, len) =>
        if len = 1 then some (m.ops, dropChars path 1)
        else some (m.ops, if charAt path len = 47 then dropChars path (len + 1) else emptyString)

/-- The operations behind a path, with the rest of it. -/
def lookup (mounts : List Mount) (v : Vol) (path : CString) : Option (VfsOps × CString) :=
  (resolve mounts path).bind fun (b, sub) => (b.ops v).map fun ops => (ops, sub)

/-- `vfs_create`. -/
def vfsCreate (mounts : List Mount) (v : Vol) (path : CString) (data : List UInt8) :
    BlockM Bool :=
  match lookup mounts v path with
  | some (⟨some op, _, _⟩, sub) => op sub data
  | _ => pure false

/-- `vfs_read`. -/
def vfsRead (mounts : List Mount) (v : Vol) (path : CString) (maxSize : Nat) :
    BlockM ReadResult :=
  match lookup mounts v path with
  | some (⟨_, some op, _⟩, sub) => op sub maxSize
  | _ => pure ⟨false, none, [], []⟩

/-- `vfs_delete`. -/
def vfsDelete (mounts : List Mount) (v : Vol) (path : CString) : BlockM Bool :=
  match lookup mounts v path with
  | some (⟨_, _, some op⟩, sub) => op sub
  | _ => pure false

/-! ## Paths that reach the root mount -/

/-- An absolute path that the table sends to its FAT root. -/
def ToFatRoot (mounts : List Mount) (path : CString) : Prop :=
  charAt path 0 = 47 ∧ ∃ m, m.ops = .fat ∧ resolveFrom path mounts none = some (m, 1)

/-- The root of the table is the FAT driver: there is a mount of one character,
    and the first such mount is FAT's. -/
def FatRoot (mounts : List Mount) : Prop :=
  ∃ m, mounts.find? (fun m => m.path.chars.length = 1) = some m ∧ m.ops = .fat

theorem lookup_fatRoot {path : CString} (h : ToFatRoot mounts path) (v : Vol) :
    lookup mounts v path = some (fatOps v, dropChars path 1) := by
  obtain ⟨hsep, m, hm, hbest⟩ := h
  cases mounts with
  | nil => cases hbest
  | cons first rest =>
    rw [lookup, resolve, if_neg (not_not_intro hsep), hbest]
    simp only [if_true, Option.bind_some, hm, Backend.ops, Option.map_some]

/-- Behind the VFS an absolute path to the root mount is a bare name. -/
theorem vfs_eq {path : CString} (h : ToFatRoot mounts path) (v : Vol) :
    (∀ data, vfsCreate mounts v path data = fatCreate v (dropChars path 1) data) ∧
    (∀ maxSize, vfsRead mounts v path maxSize = fatRead v (dropChars path 1) maxSize) ∧
    vfsDelete mounts v path = fatDelete v (dropChars path 1) := by
  refine ⟨fun data => ?_, fun maxSize => ?_, ?_⟩
  · rw [vfsCreate, lookup_fatRoot h]
    rfl
  · rw [vfsRead, lookup_fatRoot h]
    rfl
  · rw [vfsDelete, lookup_fatRoot h]
    rfl

/-- A name longer than every mount path. -/
def longName : CString := ⟨List.replicate 40 65, by decide⟩

/-- Its absolute path. -/
def longPath : CString := ⟨47 :: List.replicate 40 65, by decide⟩

theorem dropChars_longPath : dropChars longPath 1 = longName := rfl

theorem charAt_longPath {i : Nat} (h1 : 0 < i) (h2 : i < 32) : charAt longPath i = 65 := by
  obtain ⟨k, rfl⟩ := Nat.exists_eq_succ_of_ne_zero (Nat.ne_of_gt h1)
  rw [charAt, longPath, List.getD_cons_succ, List.getD_eq_getElem?_getD, List.getElem?_replicate,
    if_pos (by omega)]
  rfl

/-- No longer mount competes for such a path. -/
theorem resolveFrom_longPath (mounts : List Mount) (best : Option (Mount × Nat)) :
    resolveFrom longPath mounts best =
      if bestLen best < 1 then
        match mounts.find? (fun m => m.path.chars.length = 1) with
        | some m => some (m, 1)
        | none => best
      else best := by
  induction mounts generalizing best with
  | nil =>
    rw [resolveFrom]
    split <;> rfl
  | cons m ms ih =>
    rw [resolveFrom]
    by_cases hlen : m.path.chars.length = 1
    · rw [if_pos hlen, ih, List.find?_cons_of_pos (by simpa using hlen)]
      by_cases hbest : bestLen best < 1
      · simp only [if_pos hbest]
        exact if_neg (by simp [bestLen])
      · simp only [if_neg hbest]
    · have hpos : 0 < m.path.chars.length := by
        rcases hm : m.path.chars with _ | ⟨a, as⟩
        · have := m.absolute
          rw [hm] at this
          cases this
        · exact Nat.succ_pos _
      have hno : ¬ (m.path.chars.isPrefixOf longPath.chars ∧
          isSep (charAt longPath m.path.chars.length) ∧
          bestLen best < m.path.chars.length) := by
        rintro ⟨_, hsep, _⟩
        rw [charAt_longPath hpos m.fits] at hsep
        cases hsep
      rw [if_neg hlen, if_neg hno, ih, List.find?_cons_of_neg (by simpa using hlen)]

theorem toFatRoot_longPath (h : FatRoot mounts) : ToFatRoot mounts longPath := by
  obtain ⟨m, hfind, hfat⟩ := h
  refine ⟨rfl, m, hfat, ?_⟩
  rw [resolveFrom_longPath, hfind]
  rfl

/-! ## Two current directories -/

/-- The volume that `mount_drive` makes of a disk, in some current directory. -/
def VolumeOf (v : Vol) (d : Disk) : Prop :=
  ∃ drive cwd v₀, mountSector drive (d.sector 0) cwd = some v₀ ∧
    v = moved v₀ v.currentCluster v.cwd

/-- What a caller of `fat_read` sees, and the disk. -/
def seen (r : ReadResult × Disk) : Bool × Option Nat × List UInt8 × Disk :=
  (r.1.ret, r.1.size, r.1.buffer, r.2)

/-- Absolute paths to the root mount mean the same in both states of the driver,
    on every disk that the volume can be, whatever fails. -/
def SamePaths (mounts : List Mount) (v v' : Vol) : Prop :=
  ∀ d, VolumeOf v d → ∀ path, ToFatRoot mounts path → ∀ ok,
    (∀ maxSize, seen (run ok (vfsRead mounts v path maxSize) d) =
      seen (run ok (vfsRead mounts v' path maxSize) d)) ∧
    (∀ data, run ok (vfsCreate mounts v path data) d = run ok (vfsCreate mounts v' path data) d) ∧
    run ok (vfsDelete mounts v path) d = run ok (vfsDelete mounts v' path) d

/-- A directory that `chdir` can reach on a sound volume: the fixed root, or a
    data cluster. -/
def Proper (v : Vol) (c : Nat) : Prop :=
  (c = 0 ∧ v.type ≠ .fat32) ∨ validDataCluster v (dirHandle v c)

theorem samePaths_of_handle {v : Vol} {c : Nat} (h : dirHandle v c = dirHandle v c')
    (mounts : List Mount) (cwd cwd' : Nat → UInt8) :
    SamePaths mounts (moved v c cwd) (moved v c' cwd') := by
  intro d _ path hpath ok
  obtain ⟨hcreate, hread, hdelete⟩ := vfs_eq hpath (moved v c cwd)
  obtain ⟨hcreate', hread', hdelete'⟩ := vfs_eq hpath (moved v c' cwd')
  refine ⟨fun maxSize => ?_, fun data => ?_, ?_⟩
  · rw [hread, hread', fatRead_moved h cwd cwd']
  · rw [hcreate, hcreate', fatCreate_moved h cwd cwd']
  · rw [hdelete, hdelete', fatDelete_moved h cwd cwd']

/-- The directory entry of an empty file with the long name. -/
def longEntry : Entry := freshEntry (makeSfn longName) 0x20

theorem longEntry_spec : longEntry 0 ≠ 0 ∧ skipped longEntry = false ∧
    nameMatch longEntry longName ∧ longEntry.isDirectory = false ∧
    longEntry.size = 0 := by
  decide

/-- A disk with a boot sector and, at the start of sector `s`, that entry. -/
def markedDisk (boot : Sector) (s : Nat) : Disk :=
  Disk.store (Disk.store (fun _ => 0) 0 boot) s (putEntry (fun _ => 0) 0 longEntry)

theorem markedDisk_boot (hs : s ≠ 0) : SameBytes ((markedDisk boot s).sector 0) boot := by
  intro b hb
  have hother : (sectorSize * 0 + b) / sectorSize ≠ s := by
    unfold sectorSize at hb ⊢
    omega
  rw [Disk.sector, markedDisk, store_other _ _ hother, store_same _ _ _ hb]

theorem markedDisk_entry (s : Nat) : entryAt ((markedDisk boot s).sector s) 0 = longEntry := by
  funext i
  have hi : 0 + i.val < sectorSize := by
    unfold sectorSize
    omega
  rw [entryAt, Disk.sector, markedDisk, store_same _ _ _ hi, putEntry,
    if_pos ⟨Nat.zero_le _, by omega⟩]
  exact congrArg longEntry (by ext; simp [Fin.ofNat])

theorem markedDisk_blank {t : Nat} (ht : t ≠ 0) (hts : t ≠ s) :
    entryAt ((markedDisk boot s).sector t) 0 0 = 0 := by
  have h1 : (sectorSize * t + 0) / sectorSize ≠ s := by
    unfold sectorSize
    omega
  have h2 : (sectorSize * t + 0) / sectorSize ≠ 0 := by
    unfold sectorSize
    omega
  show markedDisk boot s (sectorSize * t + 0) = 0
  rw [markedDisk, store_other _ _ h1, store_other _ _ h2]

section Reads

variable {v : Vol} {d : Disk} {c : Nat} (cwd : Nat → UInt8)

/-- Entry 0 of a directory made of clusters. -/
theorem exec_dirLocation_cluster (h : ¬ (c = 0 ∧ v.type ≠ .fat32)) :
    exec (dirLocation v c 0) d = (some (u32 (clusterSector v (dirHandle v c)), 0), d) := by
  rw [dirLocation, if_neg h, dirHandle_eq h, Nat.zero_div]
  show (some (u32 (clusterSector v (dirHandle v c) + 0 % perCluster v / 16),
    0 % perCluster v % 16 * 32), d) = _
  rw [Nat.zero_mod, Nat.zero_div, Nat.add_zero]

theorem exec_dirRead_of_location {i off : Nat}
    (h : exec (dirLocation v c i) d = (some (s, off), d)) :
    exec (dirRead v c i) d = (some (entryAt (d.sector s) off), d) := by
  rw [dirRead, exec_bind, h]
  rfl

/-- The first entry is the one looked for, and it is an empty file. -/
theorem exec_fatRead_found (hav : v.type ≠ .none)
    (hread : exec (dirRead v c 0) d = (some longEntry, d)) :
    exec (fatRead (moved v c cwd) longName 0) d = (⟨true, some 0, [], []⟩, d) := by
  obtain ⟨h0, hs, hm, hdir, hsize⟩ := longEntry_spec
  -- the entry is only read through these facts
  generalize longEntry = e at *
  have hfind : exec (findEntry v c longName) d = (some (e, 0), d) := by
    rw [findEntry, maxDirEntries]
    exact exec_findFrom_hit hread h0 hs hm
  rw [fatRead, if_neg (show (moved v c cwd).type ≠ .none from hav), findEntry_moved, exec_bind,
    currentCluster_moved, hfind]
  simp only [hdir, hsize]
  rfl

/-- There is no entry to find. -/
theorem exec_fatRead_missing (hav : v.type ≠ .none) {o : Option Entry}
    (hread : exec (dirRead v c 0) d = (o, d)) (h0 : ∀ e ∈ o, e 0 = 0) :
    exec (fatRead (moved v c cwd) longName 0) d = (⟨false, none, [], []⟩, d) := by
  have hfind : exec (findEntry v c longName) d = (none, d) := by
    rw [findEntry, maxDirEntries]
    exact exec_findFrom_end hread h0
  rw [fatRead, if_neg (show (moved v c cwd).type ≠ .none from hav), findEntry_moved, exec_bind,
    currentCluster_moved, hfind]
  rfl

end Reads

variable {v : Vol}

/-- On the disk marked at the sector of one directory, every other directory is
    without the entry. -/
theorem marked_reads (hg : Geometry v) (hfit : metaSectors v < 2 ^ 32) {c : Nat}
    (hc : validDataCluster v (dirHandle v c)) (hcl : ¬ (c = 0 ∧ v.type ≠ .fat32))
    (hc' : Proper v c') (hne : dirHandle v c ≠ dirHandle v c') (boot : Sector)
    (cwd cwd' : Nat → UInt8) : clusterSector v (dirHandle v c) ≠ 0 ∧
      (exec (fatRead (moved v c cwd) longName 0)
        (markedDisk boot (clusterSector v (dirHandle v c)))).1.ret ∧
      (exec (fatRead (moved v c' cwd') longName 0)
        (markedDisk boot (clusterSector v (dirHandle v c)))).1.ret = false := by
  have hfirst : v.firstData = metaSectors v := by
    rw [hg.firstData_eq]
    exact u32_of_lt hfit
  have hreserved := hg.reserved_pos
  have hmeta : metaSectors v = v.reservedSectors + v.fatCount * v.fatSize + v.rootSectors := rfl
  -- a data cluster starts behind the areas in front, and its sector number is exact
  have hsector : ∀ k, validDataCluster v k →
      v.firstData ≤ clusterSector v k ∧ u32 (clusterSector v k) = clusterSector v k := by
    intro k hk
    obtain ⟨h2, hlt⟩ := valid_bounds hk
    obtain ⟨heq, hend⟩ := hg.clusterSector_eq h2 hlt
    have := hg.total_lt
    have := hg.perCluster_pos
    exact ⟨by omega, u32_of_lt (by omega)⟩
  obtain ⟨hlow, hu⟩ := hsector _ hc
  generalize hs : clusterSector v (dirHandle v c) = s at *
  refine ⟨by omega, ?_, ?_⟩
  · have hloc := exec_dirLocation_cluster (d := markedDisk boot s) hcl
    rw [hs, hu] at hloc
    have hread := exec_dirRead_of_location hloc
    rw [markedDisk_entry] at hread
    rw [exec_fatRead_found cwd hg.available hread]
  · by_cases hfixed : c' = 0 ∧ v.type ≠ .fat32
    · by_cases hempty : v.rootEntries ≤ 0
      · have hread : exec (dirRead v c' 0) (markedDisk boot s) = (none, markedDisk boot s) := by
          rw [dirRead, exec_bind, dirLocation, if_pos hfixed, if_pos hempty]
          rfl
        rw [exec_fatRead_missing cwd' hg.available hread (by simp)]
      · have hroot : 0 < v.rootSectors := by
          rw [hg.rootSectors_eq]
          omega
        have hsum : u32 (v.reservedSectors + v.fatCount * v.fatSize + 0 / 16) =
            v.reservedSectors + v.fatCount * v.fatSize := u32_of_lt (by omega)
        have hloc : exec (dirLocation v c' 0) (markedDisk boot s) =
            (some (v.reservedSectors + v.fatCount * v.fatSize, 0), markedDisk boot s) := by
          rw [dirLocation, if_pos hfixed, if_neg hempty, hsum]
          rfl
        rw [exec_fatRead_missing cwd' hg.available (exec_dirRead_of_location hloc)]
        rintro e ⟨⟩
        exact markedDisk_blank boot (by omega) (by omega)
    · have hvalid := hc'.resolve_left hfixed
      obtain ⟨hlow', hu'⟩ := hsector _ hvalid
      have hloc := exec_dirLocation_cluster (d := markedDisk boot s) hfixed
      rw [hu'] at hloc
      rw [exec_fatRead_missing cwd' hg.available (exec_dirRead_of_location hloc)]
      rintro e ⟨⟩
      refine markedDisk_blank boot (by omega) fun heq => hne ?_
      exact hg.clusterSector_inj hc hvalid (hs.trans heq.symm)

theorem VolumeOf.of_mountSector {drive : Nat} {d : Disk} {cwd : Nat → UInt8}
    (h : mountSector drive (d.sector 0) cwd = some v) : VolumeOf v d := by
  refine ⟨drive, cwd, v, h, ?_⟩
  cases v
  rfl

theorem VolumeOf.markedDisk (hm : Mounted v) :
    ∃ boot, ∀ s, s ≠ 0 → ∀ c cwd, VolumeOf (moved v c cwd) (markedDisk boot s) := by
  obtain ⟨drive, boot, cwd₀, v₀, hmount, hv⟩ := hm
  refine ⟨boot, fun s hs c cwd => ⟨drive, cwd₀, v₀, ?_, ?_⟩⟩
  · rw [mountSector_congr (markedDisk_boot boot hs), hmount]
  · rw [hv]
    rfl

/-- Two directories that are not the same one are told apart by an absolute path. -/
theorem not_samePaths (hroot : FatRoot mounts) (hm : Mounted v) (hfit : metaSectors v < 2 ^ 32)
    {c : Nat} (hc : validDataCluster v (dirHandle v c)) (hcl : ¬ (c = 0 ∧ v.type ≠ .fat32))
    (hc' : Proper v c') (hne : dirHandle v c ≠ dirHandle v c') (cwd cwd' : Nat → UInt8) :
    ¬ SamePaths mounts (moved v c cwd) (moved v c' cwd') ∧
      ¬ SamePaths mounts (moved v c' cwd') (moved v c cwd) := by
  obtain ⟨boot, hvol⟩ := VolumeOf.markedDisk hm
  obtain ⟨hs, hhit, hmiss⟩ := marked_reads (Mounted.geometry hm) hfit hc hcl hc' hne boot cwd cwd'
  have hpath := toFatRoot_longPath hroot
  have hread := fun u => (vfs_eq hpath u).2.1 0
  rw [dropChars_longPath] at hread
  constructor
  · intro hsame
    have h := ((hsame _ (hvol _ hs c cwd) longPath hpath (fun _ => true)).1 0)
    rw [hread, hread] at h
    cases hhit.symm.trans ((congrArg Prod.fst h).trans hmiss)
  · intro hsame
    have h := ((hsame _ (hvol _ hs c' cwd') longPath hpath (fun _ => true)).1 0)
    rw [hread, hread] at h
    cases hmiss.symm.trans ((congrArg Prod.fst h).trans hhit)

/-- **Absolute paths to the root mount** mean the same in two states of the driver
    exactly when the current directory is the same one in both. -/
theorem samePaths_iff (mounts : List Mount) (hroot : FatRoot mounts) (v : Vol) (hm : Mounted v)
    (hfit : metaSectors v < 2 ^ 32) (c c' : Nat) (hc : Proper v c) (hc' : Proper v c')
    (cwd cwd' : Nat → UInt8) :
    SamePaths mounts (moved v c cwd) (moved v c' cwd') ↔ dirHandle v c = dirHandle v c' := by
  refine ⟨fun hsame => ?_, fun h => samePaths_of_handle h mounts cwd cwd'⟩
  by_contra hne
  by_cases hfixed : c = 0 ∧ v.type ≠ .fat32
  · -- the other one is then a directory of clusters
    have hcl' : ¬ (c' = 0 ∧ v.type ≠ .fat32) := fun h => hne (by rw [hfixed.1, h.1])
    exact (not_samePaths hroot hm hfit (hc'.resolve_left hcl') hcl' hc (Ne.symm hne)
      cwd' cwd).2 hsame
  · exact (not_samePaths hroot hm hfit (hc.resolve_left hfixed) hfixed hc' hne cwd cwd').1 hsame

/-! ## The same path before and after a `chdir`

    A FAT12 volume whose root holds only the directory `D`, and `D` the file `A`. -/

/-- Sector 1 is the FAT, sector 2 the root directory, `D` is cluster 2. -/
def subDisk : Disk := fun a =>
  if a = 12 then 2 else if a = 13 then 1 else if a = 14 then 1 else if a = 16 then 1
  else if a = 17 then 16 else if a = 19 then 13 else if a = 22 then 1
  else if a = 510 then 0x55 else if a = 511 then 0xAA
  -- clusters 2 and 3 end their chains
  else if 515 ≤ a ∧ a < 518 then 0xFF
  -- the root directory
  else if a = 1024 then 68 else if 1024 < a ∧ a < 1035 then 32 else if a = 1035 then 0x10
  else if a = 1050 then 2
  -- the entries `.`, `..` and `A` of the directory
  else if a = 1536 then 46 else if 1536 < a ∧ a < 1547 then 32 else if a = 1547 then 0x10
  else if a = 1562 then 2
  else if a = 1568 ∨ a = 1569 then 46 else if 1569 < a ∧ a < 1579 then 32
  else if a = 1579 then 0x10
  else if a = 1600 then 65 else if 1600 < a ∧ a < 1611 then 32 else if a = 1611 then 0x20
  else if a = 1626 then 3 else if a = 1628 then 1
  -- the contents of `A`
  else if a = 2048 then 33
  else 0

def subVol : Vol := (readBpb (subDisk.sector 0)).toVol 0 (fun _ => 0)

theorem subVol_mounted : mountSector 0 (subDisk.sector 0) (fun _ => 0) = some subVol :=
  if_pos (by decide)

/-- The table with one mount, the FAT root. -/
def rootMounts : List Mount := [⟨⟨[47], by decide⟩, rfl, by decide, .fat⟩]

def pathA : CString := ⟨[47, 65], by decide⟩

theorem nameD_noNul : (0 : UInt8) ∉ [68] := by decide

def nameD : CString := ⟨[68], nameD_noNul⟩

/-- `/A` is no file while the root is the current directory; after `cd D` it is. -/
theorem absolute_path_moves :
    FatRoot rootMounts ∧ ToFatRoot rootMounts pathA ∧ VolumeOf subVol subDisk ∧
    (run (fun _ => true) (fatChdir subVol nameD) subDisk).1.map Vol.currentCluster = some 2 ∧
    (run (fun _ => true) (vfsRead rootMounts (moved subVol 0 subVol.cwd) pathA 512) subDisk).1.ret
      = false ∧
    (run (fun _ => true) (vfsRead rootMounts (moved subVol 2 subVol.cwd) pathA 512) subDisk).1.ret
      = true ∧
    (run (fun _ => true)
      (vfsRead rootMounts (moved subVol 2 subVol.cwd) pathA 512) subDisk).1.buffer = [33] := by
  refine ⟨⟨_, rfl, rfl⟩, ⟨rfl, _, rfl, rfl⟩, VolumeOf.of_mountSector subVol_mounted,
    ?_, ?_, ?_, ?_⟩ <;> decide

/-- In `D` of that volume the text of the path makes no difference; the root and `D` do. -/
theorem samePaths_iff_subVol :
    SamePaths rootMounts (moved subVol 2 fun _ => 0) (moved subVol 2 fun _ => 47) ∧
    ¬ SamePaths rootMounts (moved subVol 0 fun _ => 0) (moved subVol 2 fun _ => 0) := by
  have hiff := samePaths_iff rootMounts ⟨_, rfl, rfl⟩ subVol (Mounted.of_mountSector subVol_mounted)
    (by decide)
  exact ⟨(hiff 2 2 (.inr (by decide)) (.inr (by decide)) _ _).mpr rfl,
    (hiff 0 2 (.inl ⟨rfl, by decide⟩) (.inr (by decide)) _ _).not.mpr (by decide)⟩

end Vfs
