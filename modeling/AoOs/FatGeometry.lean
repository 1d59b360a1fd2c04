import AoOs.FatRead

/-! # The current directory is a parameter

    `current_cluster` and `cwd` are static variables next to the geometry, but the
    functions below `fat_read`, `fat_create` and `fat_delete` never look at them:
    they take the directory as an argument.  `moved` puts a volume into
    another directory; everything that takes a directory is blind to it.

    A directory has one handle, except the root of a FAT32 volume, which is both
    `0` and `root_cluster`.

    `Geometry` is what the checks of `mount_drive` guarantee about the areas of a
    volume, provided that the reserved sectors, the FATs and the root directory
    together do not exceed 32 bits. -/

namespace FatGeometry

open FatTypes FatDriver FatRead

/-- The volume with another current directory. -/
def moved (v : Vol) (c : Nat) (cwd : Nat → UInt8) : Vol :=
  { v with currentCluster := c, cwd := cwd }

section Moved

variable (v : Vol) (dir : Nat) (cwd : Nat → UInt8)

theorem currentCluster_moved : (moved v dir cwd).currentCluster = dir := rfl

theorem type_moved : (moved v dir cwd).type = v.type := rfl

theorem entryCluster_moved (e : Entry) : entryCluster (moved v dir cwd) e = entryCluster v e := rfl

theorem setEntryCluster_moved (e : Entry) (c : Nat) :
    setEntryCluster (moved v dir cwd) e c = setEntryCluster v e c := rfl

theorem fatGet_moved (c : Nat) : fatGet (moved v dir cwd) c = fatGet v c := rfl

theorem validDataCluster_moved (c : Nat) :
    validDataCluster (moved v dir cwd) c = validDataCluster v c := rfl

theorem isEoc_moved (c : Nat) : isEoc (moved v dir cwd) c = isEoc v c := rfl

theorem fatSetFrom_moved : fatSetFrom (moved v dir cwd) = fatSetFrom v := by
  delta fatSetFrom
  rfl

theorem fatSet_moved (c value : Nat) : fatSet (moved v dir cwd) c value = fatSet v c value := by
  rw [fatSet, fatSetFrom_moved]
  rfl

theorem fsinfoAdjust_moved (delta next : Nat) :
    fsinfoAdjust (moved v dir cwd) delta next = fsinfoAdjust v delta next := rfl

theorem zeroFrom_moved : zeroFrom (moved v dir cwd) = zeroFrom v := by
  delta zeroFrom
  rfl

theorem allocFrom_moved (n c) : allocFrom (moved v dir cwd) n c = allocFrom v n c := by
  induction n generalizing c with
  | zero => rfl
  | succ n ih =>
    simp only [allocFrom, ih, fatGet_moved, fatSet_moved, zeroFrom_moved, fsinfoAdjust_moved]
    rfl

theorem allocCluster_moved : allocCluster (moved v dir cwd) = allocCluster v :=
  allocFrom_moved v dir cwd _ 2

theorem freeChainFrom_moved (n c) : freeChainFrom (moved v dir cwd) n c = freeChainFrom v n c := by
  induction n generalizing c with
  | zero => rfl
  | succ n ih =>
    simp only [freeChainFrom, ih, fatGet_moved, fatSet_moved, fsinfoAdjust_moved,
      validDataCluster_moved, isEoc_moved]

theorem freeChain_moved (c : Nat) : freeChain (moved v dir cwd) c = freeChain v c :=
  freeChainFrom_moved v dir cwd _ c

theorem skipClusters_moved : skipClusters (moved v dir cwd) = skipClusters v := by
  delta skipClusters
  rfl

theorem dirLocation_moved (c i : Nat) : dirLocation (moved v dir cwd) c i = dirLocation v c i := by
  simp only [dirLocation, skipClusters_moved]
  rfl

theorem dirRead_moved (c i : Nat) : dirRead (moved v dir cwd) c i = dirRead v c i := by
  simp only [dirRead, dirLocation_moved]

theorem dirWrite_moved (c i : Nat) (e : Entry) :
    dirWrite (moved v dir cwd) c i e = dirWrite v c i e := by
  simp only [dirWrite, dirLocation_moved]

theorem findFrom_moved (c : Nat) (name : CString) (n i) :
    findFrom (moved v dir cwd) c name n i = findFrom v c name n i := by
  induction n generalizing i with
  | zero => rfl
  | succ n ih =>
    simp only [findFrom, ih, dirRead_moved]

theorem findEntry_moved (c : Nat) (name : CString) :
    findEntry (moved v dir cwd) c name = findEntry v c name :=
  findFrom_moved v dir cwd c name _ 0

theorem lastCluster_moved : lastCluster (moved v dir cwd) = lastCluster v := by
  delta lastCluster
  rfl

theorem growDirectory_moved (c : Nat) : growDirectory (moved v dir cwd) c = growDirectory v c := by
  simp only [growDirectory, lastCluster_moved, allocCluster_moved, fatSet_moved]
  rfl

theorem freeIndexFrom_moved (c : Nat) (n i) :
    freeIndexFrom (moved v dir cwd) c n i = freeIndexFrom v c n i := by
  induction n generalizing i with
  | zero => rfl
  | succ n ih =>
    simp only [freeIndexFrom, ih, dirRead_moved, growDirectory_moved]
    rfl

theorem freeEntryIndex_moved (c : Nat) : freeEntryIndex (moved v dir cwd) c = freeEntryIndex v c :=
  freeIndexFrom_moved v dir cwd c _ 0

theorem readCluster_moved : readCluster (moved v dir cwd) = readCluster v := by
  delta readCluster
  rfl

theorem readLoop_moved (size : Nat) : ∀ n c done buf anchor power length seen,
      readLoop (moved v dir cwd) size n c done buf anchor power length seen =
        readLoop v size n c done buf anchor power length seen := by
  intro n
  induction n with
  | zero => intro c done buf anchor power length seen; rfl
  | succ n ih =>
    intro c done buf anchor power length seen
    simp only [readLoop, ih, readCluster_moved, validDataCluster_moved]
    rfl

theorem writeCluster_moved : writeCluster (moved v dir cwd) = writeCluster v := by
  delta writeCluster
  rfl

theorem createLoop_moved (data : List UInt8) (n first prev written) :
    createLoop (moved v dir cwd) data n first prev written =
      createLoop v data n first prev written := by
  induction n generalizing first prev written with
  | zero => rfl
  | succ n ih =>
    simp only [createLoop, ih, allocCluster_moved, freeChain_moved, fatSet_moved,
      writeCluster_moved]
    rfl

end Moved

/-! ## Directory handles -/

/-- The cluster a directory handle stands for; the fixed root is `0`. -/
def dirHandle (v : Vol) (c : Nat) : Nat :=
  if c = 0 ∧ v.type = .fat32 then v.rootCluster else c

section Handle

variable {v : Vol}

/-- On FAT32 the handle `0` is the root cluster's. -/
theorem dirLocation_root (h : v.type = .fat32) (i : Nat) :
    dirLocation v 0 i = dirLocation v v.rootCluster i := by
  have hno : ∀ c, ¬ (c = 0 ∧ v.type ≠ .fat32) := fun c hc => hc.2 h
  rw [dirLocation, dirLocation, if_neg (hno 0), if_neg (hno _), if_pos rfl]
  by_cases h0 : v.rootCluster = 0
  · rw [if_pos h0]
  · rw [if_neg h0]

theorem growDirectory_root : growDirectory v 0 = growDirectory v v.rootCluster := by
  rw [growDirectory, growDirectory, if_pos rfl]
  by_cases h0 : v.rootCluster = 0
  · rw [if_pos h0]
  · rw [if_neg h0]

theorem dirRead_root (h : v.type = .fat32) (i : Nat) :
    dirRead v 0 i = dirRead v v.rootCluster i := by
  rw [dirRead, dirRead, dirLocation_root h]

theorem findFrom_root (h : v.type = .fat32) (name : CString) (n i) :
    findFrom v 0 name n i = findFrom v v.rootCluster name n i := by
  induction n generalizing i with
  | zero => rfl
  | succ n ih =>
    simp only [findFrom, ih, dirRead_root h]

theorem freeIndexFrom_root (h : v.type = .fat32) (n i) :
    freeIndexFrom v 0 n i = freeIndexFrom v v.rootCluster n i := by
  induction n generalizing i with
  | zero => rfl
  | succ n ih =>
    simp only [freeIndexFrom, ih, dirRead_root h, h, ne_eq, not_true_eq_false, and_false,
      if_false, growDirectory_root]

/-- Two handles of one directory. -/
theorem dirHandle_cases {c c' : Nat} (h : dirHandle v c = dirHandle v c') :
    c = c' ∨ v.type = .fat32 ∧ (c = 0 ∧ c' = v.rootCluster ∨ c' = 0 ∧ c = v.rootCluster) := by
  rw [dirHandle, dirHandle] at h
  by_cases h1 : c = 0 ∧ v.type = .fat32
  · rw [if_pos h1] at h
    by_cases h2 : c' = 0 ∧ v.type = .fat32
    · exact .inl (h1.1.trans h2.1.symm)
    · rw [if_neg h2] at h
      exact .inr ⟨h1.2, .inl ⟨h1.1, h.symm⟩⟩
  · rw [if_neg h1] at h
    by_cases h2 : c' = 0 ∧ v.type = .fat32
    · rw [if_pos h2] at h
      exact .inr ⟨h2.2, .inr ⟨h2.1, h⟩⟩
    · rw [if_neg h2] at h
      exact .inl h

/-- What the driver does in a directory depends on the handle's cluster only. -/
theorem dir_congr {c c' : Nat} (h : dirHandle v c = dirHandle v c') :
    (∀ name, findEntry v c name = findEntry v c' name) ∧
    freeEntryIndex v c = freeEntryIndex v c' ∧
    (∀ i e, dirWrite v c i e = dirWrite v c' i e) := by
  rcases dirHandle_cases h with rfl | ⟨h32, ⟨rfl, rfl⟩ | ⟨rfl, rfl⟩⟩
  · exact ⟨fun _ => rfl, rfl, fun _ _ => rfl⟩
  · refine ⟨fun name => findFrom_root h32 name _ 0, freeIndexFrom_root h32 _ 0, fun i e => ?_⟩
    rw [dirWrite, dirWrite, dirLocation_root h32]
  · refine ⟨fun name => (findFrom_root h32 name _ 0).symm, (freeIndexFrom_root h32 _ 0).symm,
      fun i e => ?_⟩
    rw [dirWrite, dirWrite, dirLocation_root h32]

variable {c c' : Nat} (h : dirHandle v c = dirHandle v c') (cwd cwd' : Nat → UInt8)

include h

theorem fatRead_moved (name : CString) (maxSize : Nat) :
    fatRead (moved v c cwd) name maxSize = fatRead (moved v c' cwd') name maxSize := by
  obtain ⟨hfind, _, _⟩ := dir_congr h
  simp only [fatRead, findEntry_moved, readLoop_moved, currentCluster_moved, type_moved,
    entryCluster_moved, hfind]

theorem createAt_moved (e : Entry) (index : Nat) (data : List UInt8) :
    createAt (moved v c cwd) e index data = createAt (moved v c' cwd') e index data := by
  obtain ⟨_, _, hwrite⟩ := dir_congr h
  simp only [createAt, createLoop_moved, dirWrite_moved, currentCluster_moved,
    setEntryCluster_moved, hwrite]

theorem fatCreate_moved (name : CString) (data : List UInt8) :
    fatCreate (moved v c cwd) name data = fatCreate (moved v c' cwd') name data := by
  obtain ⟨hfind, hfree, _⟩ := dir_congr h
  simp only [fatCreate, findEntry_moved, freeEntryIndex_moved, freeChain_moved,
    currentCluster_moved, type_moved, entryCluster_moved, hfind, hfree,
    createAt_moved h cwd cwd']

theorem fatDelete_moved (name : CString) :
    fatDelete (moved v c cwd) name = fatDelete (moved v c' cwd') name := by
  obtain ⟨hfind, _, hwrite⟩ := dir_congr h
  simp only [fatDelete, findEntry_moved, freeChain_moved, dirWrite_moved, currentCluster_moved,
    entryCluster_moved, hfind, hwrite]

end Handle

/-- Outside the fixed root, the chain of a directory starts at its handle. -/
theorem dirHandle_eq {v : Vol} {c : Nat} (h : ¬ (c = 0 ∧ v.type ≠ .fat32)) :
    (if c = 0 then v.rootCluster else c) = dirHandle v c := by
  rw [dirHandle]
  by_cases hc : c = 0
  · have ht : v.type = .fat32 := by
      by_contra ht
      exact h ⟨hc, ht⟩
    rw [if_pos hc, if_pos ⟨hc, ht⟩]
  · rw [if_neg hc, if_neg (fun hcc => hc hcc.1)]

/-! ## Where the areas of a volume are -/

/-- The sectors in front of the data area, as a sum without wrap-around. -/
def metaSectors (v : Vol) : Nat := v.reservedSectors + v.fatCount * v.fatSize + v.rootSectors

/-- What `mount_drive` has checked and computed. -/
structure Geometry (v : Vol) : Prop where
  available : v.type ≠ .none
  perCluster_pos : 0 < v.sectorsPerCluster
  perCluster_lt : v.sectorsPerCluster < 256
  reserved_pos : 0 < v.reservedSectors
  fatCount_pos : 0 < v.fatCount
  fatSize_pos : 0 < v.fatSize
  rootSectors_eq : v.rootSectors = (v.rootEntries * 32 + 511) / 512
  firstData_eq : v.firstData = u32 (metaSectors v)
  firstData_lt : v.firstData < v.totalSectors
  total_lt : v.totalSectors < 2 ^ 32
  clusterCount_eq : v.clusterCount = (v.totalSectors - v.firstData) / v.sectorsPerCluster
  type_eq : v.type = if v.clusterCount < 4085 then .fat12
    else if v.clusterCount < 65525 then .fat16 else .fat32
  root_eq : v.type ≠ .fat32 → v.rootCluster = 0
  root_ge : v.type = .fat32 → 2 ≤ v.rootCluster
  reserved_lt : v.reservedSectors < 2 ^ 16
  fatCount_lt : v.fatCount < 2 ^ 8
  rootEntries_lt : v.rootEntries < 2 ^ 16
  root_lt : v.rootCluster < 2 ^ 28

theorem le16_lt (a b : UInt8) : le16 a b < 2 ^ 16 := by
  have ha := a.toNat_lt
  have hb := b.toNat_lt
  rw [le16]
  omega

theorem accepted_iff (b : Bpb) : b.accepted ↔
    b.bytesPerSector = 512 ∧ b.sectorsPerCluster ≠ 0 ∧ b.fatCount ≠ 0 ∧ b.reservedSectors ≠ 0 ∧
    b.fatSize ≠ 0 ∧ b.firstData < b.totalSectors ∧ ¬ (b.type = .fat32 ∧ b.rootCluster < 2) := by
  simp only [Bpb.accepted, Bool.and_eq_true, bne_iff_ne, beq_iff_eq, decide_eq_true_eq,
    Bool.not_eq_true', Bool.and_eq_false_iff, beq_eq_false_iff_ne, decide_eq_false_iff_not,
    not_and_or, and_assoc, ne_eq]

theorem Mounted.geometry {v : Vol} (h : Mounted v) : Geometry v := by
  obtain ⟨drive, sector, cwd, v₀, hm, hv⟩ := h
  obtain ⟨hacc, rfl⟩ := mountSector_eq_some hm
  obtain ⟨_, hspc, hfc, hres, hfs, hfd, hroot⟩ := (accepted_iff _).mp hacc
  rw [hv]
  refine ⟨type_ne_none _, Nat.pos_of_ne_zero hspc, UInt8.toNat_lt _, Nat.pos_of_ne_zero hres,
    Nat.pos_of_ne_zero hfc, Nat.pos_of_ne_zero hfs, rfl, rfl, hfd, ?_, rfl, rfl, fun h => ?_,
    fun h => ?_, le16_lt _ _, UInt8.toNat_lt _, le16_lt _ _, ?_⟩
  · show (readBpb sector).totalSectors < 2 ^ 32
    rw [Bpb.totalSectors]
    split
    · exact Nat.lt_trans (le16_lt _ _) (by decide)
    · exact le32_lt _ _ _ _
  · exact if_neg h
  · rw [not_and_or, Nat.not_lt] at hroot
    exact hroot.resolve_left (not_not_intro h)
  · show (readBpb sector).rootCluster < 2 ^ 28
    rw [Bpb.rootCluster]
    split
    · exact Nat.mod_lt _ (by decide)
    · decide

theorem valid_bounds {v : Vol} {c : Nat} (h : validDataCluster v c) :
    2 ≤ c ∧ c < v.clusterCount + 2 := by
  rw [validDataCluster, Bool.and_eq_true, decide_eq_true_eq, decide_eq_true_eq] at h
  have hle : clusterLimit v ≤ v.clusterCount + 2 := Nat.mod_le _ _
  exact ⟨h.1, by omega⟩

section Areas

variable {v : Vol} (hg : Geometry v)

include hg

theorem Geometry.clusters_fit : v.firstData + v.clusterCount * v.sectorsPerCluster ≤
    v.totalSectors := by
  have h := Nat.div_mul_le_self (v.totalSectors - v.firstData) v.sectorsPerCluster
  rw [← hg.clusterCount_eq] at h
  have := hg.firstData_lt
  omega

/-- A data cluster starts inside the volume, where its number says. -/
theorem Geometry.clusterSector_eq {c : Nat} (h2 : 2 ≤ c) (hc : c < v.clusterCount + 2) :
    clusterSector v c = v.firstData + (c - 2) * v.sectorsPerCluster ∧
    clusterSector v c + v.sectorsPerCluster ≤ v.totalSectors := by
  have hfit := hg.clusters_fit
  have htotal := hg.total_lt
  have hle : (c - 2 + 1) * v.sectorsPerCluster ≤ v.clusterCount * v.sectorsPerCluster :=
    Nat.mul_le_mul_right _ (by omega)
  rw [Nat.succ_mul] at hle
  have hsplit : (c + (2 ^ 32 - 2)) * v.sectorsPerCluster =
      (c - 2) * v.sectorsPerCluster + 2 ^ 32 * v.sectorsPerCluster := by
    rw [← Nat.add_mul]
    congr 1
    omega
  have heq : clusterSector v c = v.firstData + (c - 2) * v.sectorsPerCluster := by
    rw [clusterSector, hsplit, ← Nat.add_assoc, u32, Nat.add_mul_mod_self_left]
    exact Nat.mod_eq_of_lt (by have := hg.perCluster_pos; omega)
  exact ⟨heq, by omega⟩

/-- Different data clusters start at different sectors. -/
theorem Geometry.clusterSector_inj {c c' : Nat} (h : validDataCluster v c)
    (h' : validDataCluster v c') (heq : clusterSector v c = clusterSector v c') : c = c' := by
  obtain ⟨h2, hlt⟩ := valid_bounds h
  obtain ⟨h2', hlt'⟩ := valid_bounds h'
  rw [(hg.clusterSector_eq h2 hlt).1, (hg.clusterSector_eq h2' hlt').1] at heq
  have hmul : (c - 2) * v.sectorsPerCluster = (c' - 2) * v.sectorsPerCluster := by omega
  have := Nat.eq_of_mul_eq_mul_right hg.perCluster_pos hmul
  omega

end Areas

end FatGeometry
