import AoOs.FatFill

/-! # Directories as rows of slots

    A directory is the fixed root area or the clusters of a chain, and either way a row
    of 32-byte slots.  `dir_read` reads a slot, `dir_write` replaces one, `find_entry`
    and `free_entry_index` scan them in order; growing a directory appends one cluster
    of empty slots. -/

namespace FatDirs

open BlockIO FatTypes FatDriver FatRead FatGeometry FatImage FatAlloc
open BlockIO.BlockM (run exec)

variable {h i : Nat}

/-- Where a directory keeps its slots. -/
inductive Area where
  | fixed
  | chain (l : List Nat)

variable {A : Area}

/-- Byte `o` of a row of slots, seen from the slot that starts at byte `base`. -/
def slotByte (e : Entry) (base : Nat) (row : Nat → UInt8) (o : Nat) : UInt8 :=
  if base ≤ o ∧ o < base + 32 then e (Fin.ofNat 32 (o - base)) else row o

namespace Area

variable (v : Vol) (I : Image)

/-- Slot `i`; `none` behind the last one. -/
def slot : Area → Nat → Option Entry
  | .fixed, i => if i < v.rootEntries then some fun j => I.root (32 * i + j.val) else none
  | .chain l, i => (l[i / perCluster v]?).map fun c j => I.data c (32 * (i % perCluster v) + j.val)

/-- The image with `e` in slot `i`. -/
def put (e : Entry) : Area → Nat → Image
  | .fixed, i => { I with root := slotByte e (32 * i) I.root }
  | .chain l, i =>
    { I with data := fun k => if l[i / perCluster v]? = some k then
        slotByte e (32 * (i % perCluster v)) (I.data k) else I.data k }

end Area

/-- The directory with handle `h` has its slots in `A`. -/
def Locates (v : Vol) (I : Image) (h : Nat) : Area → Prop
  | .fixed => h = 0 ∧ v.type ≠ .fat32
  | .chain l => ¬ (h = 0 ∧ v.type ≠ .fat32) ∧ I.Chain v (if h = 0 then v.rootCluster else h) l

section Slots

variable {v : Vol} {I : Image}

theorem Locates.unique {B : Area} (hA : Locates v I h A) (hB : Locates v I h B) : A = B := by
  cases A with
  | fixed =>
    cases B with
    | fixed => rfl
    | chain l => exact absurd hA hB.1
  | chain l =>
    cases B with
    | fixed => exact absurd hB hA.1
    | chain l' => rw [SuccessorChain.Chain.unique hA.2 hB.2]

theorem slotByte_inside (e : Entry) (base : Nat) (row : Nat → UInt8) (j : Fin 32) :
    slotByte e base row (base + j.val) = e j := by
  have hj := j.isLt
  rw [slotByte, if_pos ⟨by omega, by omega⟩, Nat.add_sub_cancel_left]
  congr 1
  exact Fin.ext (Nat.mod_eq_of_lt hj)

theorem slotByte_outside (e : Entry) {base o : Nat} (row : Nat → UInt8)
    (h : o < base ∨ base + 32 ≤ o) : slotByte e base row o = row o :=
  if_neg (by omega)

/-- The new entry is read back. -/
theorem slot_put_same {e₀ : Entry} (h : A.slot v I i = some e₀) (e : Entry) :
    A.slot v (A.put v I e i) i = some e := by
  cases A with
  | fixed =>
    rw [Area.slot] at h ⊢
    by_cases hi : i < v.rootEntries
    · rw [if_pos hi]
      exact congrArg some (funext fun j => slotByte_inside e (32 * i) I.root j)
    · cases (if_neg hi).symm.trans h
  | chain l =>
    rw [Area.slot] at h ⊢
    cases hl : l[i / perCluster v]? with
    | none =>
      rw [hl] at h
      cases h
    | some c =>
      refine congrArg some (funext fun j => ?_)
      simp only [Area.put, hl, if_true]
      exact slotByte_inside e _ _ j

/-- The other slots of the directory stay. -/
theorem slot_put_other {j : Nat} (h : j ≠ i) (hnodup : ∀ l, A = .chain l → l.Nodup) (e : Entry) :
    A.slot v (A.put v I e i) j = A.slot v I j := by
  cases A with
  | fixed =>
    rw [Area.slot, Area.slot]
    by_cases hj : j < v.rootEntries
    · rw [if_pos hj, if_pos hj]
      refine congrArg some (funext fun b => slotByte_outside e _ ?_)
      have := b.isLt
      omega
    · rw [if_neg hj, if_neg hj]
  | chain l =>
    rw [Area.slot, Area.slot]
    cases hl : l[j / perCluster v]? with
    | none => rfl
    | some k =>
      refine congrArg some (funext fun b => ?_)
      have hb := b.isLt
      simp only [Area.put]
      by_cases hk : l[i / perCluster v]? = some k
      · -- the same cluster, so another place in it
        have hsame : i / perCluster v = j / perCluster v :=
          (List.getElem?_inj (List.getElem?_eq_some_iff.mp hk).1 (hnodup l rfl)).mp
            (hk.trans hl.symm)
        have hmod : i % perCluster v ≠ j % perCluster v := by
          intro hmod
          have hi := Nat.div_add_mod i (perCluster v)
          have hj := Nat.div_add_mod j (perCluster v)
          rw [hsame, hmod] at hi
          omega
        rw [if_pos hk]
        exact slotByte_outside e _ (by omega)
      · rw [if_neg hk]

/-- What the slots of a directory are made of. -/
theorem slot_congr {I' : Image} (hroot : A = .fixed → I'.root = I.root)
    (hdata : ∀ l, A = .chain l → ∀ c ∈ l, I'.data c = I.data c) (j : Nat) :
    A.slot v I' j = A.slot v I j := by
  cases A with
  | fixed => rw [Area.slot, Area.slot, hroot rfl]
  | chain l =>
    rw [Area.slot, Area.slot]
    refine Option.map_congr fun c hc => ?_
    rw [hdata l rfl c (List.mem_of_getElem? hc)]

/-- Two areas without a byte in common. -/
def Area.Apart : Area → Area → Prop
  | .fixed, .fixed => False
  | .chain l, .chain l' => List.Disjoint l l'
  | _, _ => True

/-- The slots of other directories stay. -/
theorem slot_put_apart {B : Area} (h : A.Apart B) (e : Entry) (i j : Nat) :
    B.slot v (A.put v I e i) j = B.slot v I j := by
  cases A with
  | fixed =>
    cases B with
    | fixed => exact absurd h id
    | chain l => rfl
  | chain l =>
    cases B with
    | fixed => rfl
    | chain l' =>
      apply slot_congr
      · intro hB
        cases hB
      · intro m hm c hc
        obtain rfl : l' = m := Area.chain.inj hm
        exact if_neg fun hl => h (List.mem_of_getElem? hl) hc

/-- There are slots in front of a slot. -/
theorem slot_of_lt {j : Nat} {e : Entry} (h : A.slot v I i = some e) (hj : j ≤ i) :
    ∃ x, A.slot v I j = some x := by
  cases A with
  | fixed =>
    rw [Area.slot] at h ⊢
    by_cases hi : i < v.rootEntries
    · exact ⟨_, if_pos (by omega)⟩
    · cases (if_neg hi).symm.trans h
  | chain l =>
    rw [Area.slot] at h ⊢
    obtain ⟨c, hc, _⟩ := Option.map_eq_some_iff.mp h
    have hlen := (List.getElem?_eq_some_iff.mp hc).1
    have hle : j / perCluster v ≤ i / perCluster v := Nat.div_le_div_right hj
    rw [List.getElem?_eq_getElem (by omega)]
    exact ⟨_, rfl⟩

end Slots

/-! ## Reading and writing a slot -/

section Access

variable {v : Vol} (hv : Numbered v)

include hv

/-- The walk of `dir_location` goes along the chain. -/
theorem exec_skipClusters (n l c d) (h : (image v d).Chain v c l) :
    exec (skipClusters v n c) d = (l[n]?, d) := by
  induction n generalizing l c d with
  | zero =>
    obtain ⟨t, rfl⟩ := h.head
    rfl
  | succ n ih =>
    rw [skipClusters, exec_bind, hv.exec_fatGet d (h.good_of_mem h.mem_head)]
    dsimp only
    cases h with
    | last _ hs =>
      rw [if_pos (.inl hs)]
      rfl
    | link _ hs h =>
      have hnext := (valid_bounds (h.good_of_mem h.mem_head)).1
      rw [if_neg (by rintro (he | hlt); exacts [hs he, by omega]), ih _ _ d h]
      rfl

omit hv in
theorem perCluster_pos (hspc : 0 < v.sectorsPerCluster) : 0 < perCluster v := by
  rw [perCluster]
  omega

/-- A slot of the fixed root directory lies in its sectors. -/
theorem root_slot (hi : i < v.rootEntries) : i / 16 < v.rootSectors ∧
    u32 (v.reservedSectors + v.fatCount * v.fatSize + i / 16) = tableEnd v + i / 16 := by
  have hroot := hv.geometry.rootSectors_eq
  have hfits := hv.fits
  have hmeta : metaSectors v = tableEnd v + v.rootSectors := rfl
  have hlt : i / 16 < v.rootSectors := by omega
  exact ⟨hlt, u32_of_lt (show tableEnd v + i / 16 < _ by omega)⟩

/-- A slot of a cluster lies in its sectors. -/
theorem cluster_slot {c : Nat} (hc : validDataCluster v c) (i : Nat) :
    i % perCluster v / 16 < v.sectorsPerCluster ∧
    u32 (clusterSector v c + i % perCluster v / 16) =
      clusterSector v c + i % perCluster v / 16 := by
  have hmod := Nat.mod_lt i (perCluster_pos hv.geometry.perCluster_pos)
  have hper : perCluster v = v.sectorsPerCluster * 16 := rfl
  have hlt : i % perCluster v / 16 < v.sectorsPerCluster := by omega
  exact ⟨hlt, (hv.cluster_sectors hc hlt).1⟩

/-- **`dir_read` reads a slot.** -/
theorem exec_dirRead {d : Disk} (hA : Locates v (image v d) h A) (i : Nat) :
    exec (dirRead v h i) d = (A.slot v (image v d) i, d) := by
  rw [dirRead, dirLocation]
  cases A with
  | fixed =>
    rw [if_pos (show h = 0 ∧ v.type ≠ .fat32 from hA), Area.slot]
    by_cases hi : i < v.rootEntries
    · obtain ⟨hlt, hu⟩ := root_slot hv hi
      rw [if_neg (Nat.not_le.mpr hi), if_pos hi, hu]
      refine Prod.ext (congrArg some (funext fun j => ?_)) rfl
      have hj := j.isLt
      show d (sectorSize * (tableEnd v + i / 16) + (i % 16 * 32 + j.val)) = _
      refine Eq.trans ?_ (if_pos (show (32 * i + j.val) / 512 < v.rootSectors by omega)).symm
      rw [sectorSize, show 512 * (tableEnd v + i / 16) + (i % 16 * 32 + j.val) =
        512 * tableEnd v + (32 * i + j.val) by omega]
    · rw [if_pos (Nat.not_lt.mp hi), if_neg hi]
      rfl
  | chain l =>
    rw [if_neg hA.1, exec_bind, exec_bind, exec_skipClusters hv _ l _ d hA.2, Area.slot]
    cases hl : l[i / perCluster v]? with
    | none => rfl
    | some c =>
      have hc := hA.2.good_of_mem (List.mem_of_getElem? hl)
      obtain ⟨hlt, hu⟩ := cluster_slot hv hc i
      have hcb : clusterBytes v = 512 * v.sectorsPerCluster := rfl
      have hmod := Nat.mod_lt i (perCluster_pos hv.geometry.perCluster_pos)
      have hper : perCluster v = v.sectorsPerCluster * 16 := rfl
      dsimp only
      rw [hu]
      refine Prod.ext (congrArg some (funext fun j => ?_)) rfl
      have hj := j.isLt
      show d (sectorSize * (clusterSector v c + i % perCluster v / 16) +
        (i % perCluster v % 16 * 32 + j.val)) = _
      refine Eq.trans ?_ (if_pos (show validDataCluster v c ∧
        32 * (i % perCluster v) + j.val < clusterBytes v from ⟨hc, by omega⟩)).symm
      rw [sectorSize, show 512 * (clusterSector v c + i % perCluster v / 16) +
        (i % perCluster v % 16 * 32 + j.val) =
        512 * clusterSector v c + (32 * (i % perCluster v) + j.val) by omega]

omit hv in
/-- Byte `o` of a row of slots after the sector with one of its entries replaced has
    been written. -/
theorem slotByte_sector (e : Entry) {base t off : Nat} (hbase : base = 512 * t + off)
    (hoff : off + 32 ≤ 512) (row : Nat → UInt8) (sec : Sector)
    (hsec : ∀ b, b < 512 → sec b = row (512 * t + b)) (o : Nat) :
    (if o / 512 = t then putEntry sec off e (o % 512) else row o) = slotByte e base row o := by
  rw [slotByte, putEntry]
  by_cases ht : o / 512 = t
  · rw [if_pos ht]
    by_cases hin : off ≤ o % 512 ∧ o % 512 < off + 32
    · rw [if_pos hin, if_pos (by omega), show o % 512 - off = o - base by omega]
    · rw [if_neg hin, if_neg (by omega), hsec _ (Nat.mod_lt _ (by decide)),
        show 512 * t + o % 512 = o by omega]
  · rw [if_neg ht, if_neg (by omega)]

/-- **`dir_write` replaces a slot.** -/
theorem exec_dirWrite {d : Disk} (hA : Locates v (image v d) h A) {e₀ : Entry}
    (hslot : A.slot v (image v d) i = some e₀) (e : Entry) :
    ∃ d', exec (dirWrite v h i e) d = (true, d') ∧ image v d' = A.put v (image v d) e i ∧
      Updates v (image v d) (image v d') := by
  rw [dirWrite, dirLocation]
  cases A with
  | fixed =>
    rw [Area.slot] at hslot
    by_cases hi : i < v.rootEntries
    · obtain ⟨hlt, hu⟩ := root_slot hv hi
      rw [if_pos (show h = 0 ∧ v.type ≠ .fat32 from hA), if_neg (Nat.not_le.mpr hi), hu]
      have himg := hv.image_store_root d hlt
        (putEntry (d.sector (tableEnd v + i / 16)) (i % 16 * 32) e)
      refine ⟨_, rfl, ?_, by rw [himg]; exact .single (.root ..)⟩
      rw [himg]
      refine Image.ext rfl rfl rfl (funext fun o => ?_) rfl
      refine slotByte_sector e (by omega) (by omega) _ _ (fun b hb => ?_) o
      refine Eq.trans ?_ (if_pos (show (512 * (i / 16) + b) / 512 < v.rootSectors by omega)).symm
      rw [Disk.sector, sectorSize, show 512 * (tableEnd v + i / 16) + b =
        512 * tableEnd v + (512 * (i / 16) + b) by omega]
    · cases (if_neg hi).symm.trans hslot
  | chain l =>
    rw [Area.slot] at hslot
    rw [if_neg hA.1, exec_bind, exec_bind, exec_skipClusters hv _ l _ d hA.2]
    cases hl : l[i / perCluster v]? with
    | none =>
      rw [hl] at hslot
      cases hslot
    | some c =>
      have hc := hA.2.good_of_mem (List.mem_of_getElem? hl)
      obtain ⟨hlt, hu⟩ := cluster_slot hv hc i
      have hcb : clusterBytes v = 512 * v.sectorsPerCluster := rfl
      dsimp only
      rw [hu]
      have himg := hv.image_store_data d hc hlt (putEntry
        (d.sector (clusterSector v c + i % perCluster v / 16)) (i % perCluster v % 16 * 32) e)
      refine ⟨d.store (clusterSector v c + i % perCluster v / 16) (putEntry
        (d.sector (clusterSector v c + i % perCluster v / 16)) (i % perCluster v % 16 * 32) e),
        rfl, ?_, by rw [himg]; exact .single (.data ..)⟩
      rw [himg]
      refine Image.ext rfl rfl rfl rfl (funext fun k => ?_)
      simp only [Image.putData, Area.put, hl]
      by_cases hk : k = c
      · rw [hk, if_pos rfl]
        funext o
        rw [← slotByte_sector e (show 32 * (i % perCluster v) =
          512 * (i % perCluster v / 16) + i % perCluster v % 16 * 32 by omega) (by omega)
          ((image v d).data c) (d.sector (clusterSector v c + i % perCluster v / 16))]
        · simp only [true_and]
        · intro b hb
          refine Eq.trans ?_ (if_pos (show validDataCluster v c ∧
            512 * (i % perCluster v / 16) + b < clusterBytes v from ⟨hc, by omega⟩)).symm
          rw [Disk.sector, sectorSize, show 512 * (clusterSector v c +
            i % perCluster v / 16) + b = 512 * clusterSector v c +
            (512 * (i % perCluster v / 16) + b) by omega]
      · rw [if_neg fun heq => hk (Option.some.inj heq).symm]
        funext o
        exact if_neg fun hh => hk hh.1

end Access

end FatDirs
