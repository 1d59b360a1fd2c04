import AoOs.FatRegions
import AoOs.SuccessorChain

/-! # The volume behind the bytes

    A laid-out volume is five things, and every byte of its sectors belongs to one of
    them: the reserved sectors, the entries of the table in each of its copies, what
    the copies hold besides entries, the fixed root directory, and the clusters.
    `image` takes a disk apart this way.  The driver's primitives are then updates of
    one part: `fat_set` stores one entry in every copy, a sector written to a cluster
    changes that sector of that cluster, and nothing else moves. -/

namespace FatImage

open BlockIO FatTypes FatDriver FatRead FatGeometry FatTable FatRegions Nibbles
open BlockIO.BlockM (run exec)

variable {s t : Sector} {c k i : Nat} {d d' : Disk}

/-- A laid-out volume within the format's own limit: no cluster number is an end mark
    or the bad mark. -/
structure Numbered (v : Vol) : Prop extends Laid v where
  small : v.clusterCount + 2 < eocMin v

/-- The first sector of copy `i` of the table. -/
def copyBase (v : Vol) (i : Nat) : Nat := v.reservedSectors + i * v.fatSize

/-- The first sector behind the copies. -/
def tableEnd (v : Vol) : Nat := v.reservedSectors + v.fatCount * v.fatSize

/-- Entry `c` of copy `i`. -/
def entry (v : Vol) (d : Disk) (i c : Nat) : Nat :=
  field d (width v.type) (entryNib v.type (copyBase v i) c)

/-- Nibble `k` belongs to entry `c` of copy `i`. -/
def InWindow (v : Vol) (i c k : Nat) : Prop :=
  entryNib v.type (copyBase v i) c ≤ k ∧ k < entryNib v.type (copyBase v i) c + width v.type

/-- Nibble `k` belongs to an entry of a data cluster. -/
def InEntry (v : Vol) (k : Nat) : Prop :=
  ∃ i < v.fatCount, ∃ c, validDataCluster v c ∧ InWindow v i c k

/-- The parts of a volume. -/
@[ext]
structure Image where
  resv : Nat → UInt8
  tab : Nat → Nat → Nat
  slack : Nat → Nat
  root : Nat → UInt8
  data : Nat → Nat → UInt8

open Classical in
/-- A disk taken apart. -/
noncomputable def image (v : Vol) (d : Disk) : Image where
  resv a := if a / 512 < v.reservedSectors then d a else 0
  tab i c := if i < v.fatCount ∧ validDataCluster v c then entry v d i c else 0
  slack k := if 1024 * v.reservedSectors ≤ k ∧ k < 1024 * tableEnd v ∧ ¬ InEntry v k then nib d k
    else 0
  root o := if o / 512 < v.rootSectors then d (512 * tableEnd v + o) else 0
  data c o := if validDataCluster v c ∧ o < clusterBytes v then
      d (512 * clusterSector v c + o) else 0

/-! ## The FSInfo sectors -/

/-- `fsinfo_adjust_sector` on the bytes it has read. -/
def adjustedSector (v : Vol) (delta nextFree : Nat) (data : Sector) : Sector :=
  if get32 data 0 ≠ 0x41615252 ∨ get32 data 484 ≠ 0x61417272 ∨ get32 data 508 ≠ 0xAA550000 then
    data
  else
    put32 (if get32 data 488 ≠ 0xFFFFFFFF then put32 data 488 (u32 (get32 data 488 + delta))
      else data) 492 (if nextFree < clusterLimit v then nextFree else 2)

section SameBytes

variable (h : SameBytes s t)

include h

theorem SameBytes.get32 (pos : Nat) (hpos : pos + 3 < 512) : get32 s pos = get32 t pos := by
  rw [FatDriver.get32, FatDriver.get32, h _ (show pos < 512 by omega),
    h _ (show pos + 1 < 512 by omega), h _ (show pos + 2 < 512 by omega), h _ hpos]

theorem SameBytes.setByte (pos : Nat) (b : UInt8) :
    SameBytes (setByte s pos b) (setByte t pos b) := by
  intro i hi
  rw [FatDriver.setByte, FatDriver.setByte, h i hi]

theorem SameBytes.put32 (pos n : Nat) : SameBytes (put32 s pos n) (put32 t pos n) :=
  SameBytes.setByte (SameBytes.setByte (SameBytes.setByte (SameBytes.setByte h _ _) _ _) _ _) _ _

theorem SameBytes.adjusted (v : Vol) (delta nextFree : Nat) :
    SameBytes (adjustedSector v delta nextFree s) (adjustedSector v delta nextFree t) := by
  rw [adjustedSector, adjustedSector, SameBytes.get32 h 0 (by decide),
    SameBytes.get32 h 484 (by decide), SameBytes.get32 h 508 (by decide),
    SameBytes.get32 h 488 (by decide)]
  split
  · exact h
  · refine SameBytes.put32 ?_ _ _
    split
    · exact SameBytes.put32 h _ _
    · exact h

theorem store_congr (d : Disk) (lba : Nat) : d.store lba s = d.store lba t := by
  funext a
  rw [Disk.store, Disk.store, h _ (Nat.mod_lt _ (by decide))]

end SameBytes

/-! ## Updates of an image -/

namespace Image

section Updates

variable (v : Vol) (I : Image)

/-- The table value of a cluster, as `fat_get` reads it. -/
def val (c : Nat) : Nat := I.tab 0 c

/-- An entry stored in every copy. -/
def set (c x : Nat) : Image :=
  { I with tab := fun i k => if i < v.fatCount ∧ k = c then x else I.tab i k }

/-- Sector `s` of cluster `c` written. -/
def putData (c s : Nat) (sec : Sector) : Image :=
  { I with data := fun k o => if k = c ∧ o / 512 = s then sec (o % 512) else I.data k o }

/-- Sector `t` of the fixed root directory written. -/
def putRoot (t : Nat) (sec : Sector) : Image :=
  { I with root := fun o => if o / 512 = t then sec (o % 512) else I.root o }

/-- A reserved sector written. -/
def putResv (lba : Nat) (sec : Sector) : Image :=
  { I with resv := Disk.store I.resv lba sec }

/-- `fsinfo_adjust_sector` on an image. -/
def adjustSector (sector delta nextFree : Nat) : Image :=
  if v.type ≠ .fat32 ∨ v.reservedSectors ≤ sector then I
  else I.putResv sector (adjustedSector v delta nextFree (Disk.sector I.resv sector))

/-- `fsinfo_adjust` on an image. -/
def adjust (delta nextFree : Nat) : Image :=
  if v.type ≠ .fat32 ∨ v.fsinfoSector = 0 ∨ v.fsinfoSector = 0xFFFF then I
  else if v.backupBootSector ≠ 0 ∧ v.backupBootSector ≠ 0xFFFF then
    (I.adjustSector v v.fsinfoSector delta nextFree).adjustSector v (v.backupBootSector + 1)
      delta nextFree
  else I.adjustSector v v.fsinfoSector delta nextFree

/-- The sectors `s, s + 1, …` of cluster `c` filled with zeros, `n` of them. -/
def clear (c s n : Nat) : Image :=
  { I with data := fun k o => if k = c ∧ s ≤ o / 512 ∧ o / 512 < s + n then 0 else I.data k o }

/-- Cluster `c` filled with zeros. -/
def wipe (c : Nat) : Image := { I with data := fun k o => if k = c then 0 else I.data k o }

/-- Cluster `c` taken: marked as the end of a chain and cleared. -/
def allocated (c : Nat) : Image :=
  ((I.set v c (eocValue v)).wipe c).adjust v (2 ^ 32 - 1) (c + 1)

/-- Cluster `c` given back. -/
def released (c : Nat) : Image := (I.set v c 0).adjust v 1 c

/-- The clusters of a list given back, one after the other. -/
def releasedAll : List Nat → Image → Image
  | [], I => I
  | c :: l, I => releasedAll l (I.released v c)

/-- A chain of the table that starts at `c` and runs through `l`. -/
def Chain (c : Nat) (l : List Nat) : Prop :=
  SuccessorChain.Chain I.val (fun c => validDataCluster v c) (fun c => isEoc v c) c l

/-- The first free one of the clusters `c, c + 1, …`, `n` of them. -/
def freeFrom : Nat → Nat → Option Nat
  | 0, _ => none
  | n + 1, c => if I.val c = 0 then some c else freeFrom n (c + 1)

/-- The first free data cluster. -/
def firstFree : Option Nat := I.freeFrom (clusterLimit v - 2) 2

end Updates

variable {v : Vol} {I : Image} (delta nextFree : Nat)

/-! What an adjustment of the FSInfo sectors leaves alone. -/

theorem adjustSector_resv (sector delta nextFree : Nat) :
    ∃ r, I.adjustSector v sector delta nextFree = { I with resv := r } := by
  rw [adjustSector]
  split
  · exact ⟨I.resv, rfl⟩
  · exact ⟨_, rfl⟩

theorem adjust_resv : ∃ r, I.adjust v delta nextFree = { I with resv := r } := by
  rw [adjust]
  split
  · exact ⟨I.resv, rfl⟩
  · obtain ⟨r, h⟩ := adjustSector_resv (v := v) (I := I) v.fsinfoSector delta nextFree
    rw [h]
    split
    · exact adjustSector_resv _ delta nextFree
    · exact ⟨r, rfl⟩

theorem adjust_parts :
    (I.adjust v delta nextFree).tab = I.tab ∧ (I.adjust v delta nextFree).slack = I.slack ∧
    (I.adjust v delta nextFree).root = I.root ∧ (I.adjust v delta nextFree).data = I.data := by
  obtain ⟨r, h⟩ := adjust_resv (v := v) (I := I) delta nextFree
  rw [h]
  exact ⟨rfl, rfl, rfl, rfl⟩

@[simp] theorem adjust_tab : (I.adjust v delta nextFree).tab = I.tab :=
  (adjust_parts delta nextFree).1

@[simp] theorem adjust_slack : (I.adjust v delta nextFree).slack = I.slack :=
  (adjust_parts delta nextFree).2.1

@[simp] theorem adjust_root : (I.adjust v delta nextFree).root = I.root :=
  (adjust_parts delta nextFree).2.2.1

@[simp] theorem adjust_data : (I.adjust v delta nextFree).data = I.data :=
  (adjust_parts delta nextFree).2.2.2

@[simp] theorem adjust_val : (I.adjust v delta nextFree).val = I.val := by
  funext c
  rw [val, adjust_tab, val]

theorem val_set_self (h : 0 < v.fatCount) (c x : Nat) : (I.set v c x).val c = x := if_pos ⟨h, rfl⟩

theorem val_set_other (h : k ≠ c) (x : Nat) : (I.set v c x).val k = I.val k :=
  if_neg fun hk => h hk.2

theorem tab_allocated (c i k : Nat) : (I.allocated v c).tab i k =
    if i < v.fatCount ∧ k = c then eocValue v else I.tab i k := by
  rw [allocated, adjust_tab]
  rfl

theorem data_allocated (c k o : Nat) : (I.allocated v c).data k o =
    if k = c then 0 else I.data k o := by
  rw [allocated, adjust_data]
  rfl

theorem tab_releasedAll (l : List Nat) (I : Image) (i k : Nat) :
    (releasedAll v l I).tab i k = if i < v.fatCount ∧ k ∈ l then 0 else I.tab i k := by
  induction l generalizing I with
  | nil => simp [releasedAll]
  | cons c l ih =>
    rw [releasedAll, ih, released, adjust_tab, set]
    dsimp only
    simp only [List.mem_cons]
    split_ifs <;> first | rfl | tauto

theorem releasedAll_parts (l : List Nat) (I : Image) : (releasedAll v l I).slack = I.slack ∧
    (releasedAll v l I).root = I.root ∧ (releasedAll v l I).data = I.data := by
  induction l generalizing I with
  | nil => exact ⟨rfl, rfl, rfl⟩
  | cons c l ih =>
    obtain ⟨h1, h2, h3⟩ := ih (I.released v c)
    rw [released] at h1 h2 h3
    exact ⟨h1.trans (adjust_slack ..), h2.trans (adjust_root ..), h3.trans (adjust_data ..)⟩

/-! The search for a free cluster. -/

theorem freeFrom_some {n x : Nat} (h : I.freeFrom n c = some x) :
    c ≤ x ∧ x < c + n ∧ I.val x = 0 ∧ ∀ k, c ≤ k → k < x → I.val k ≠ 0 := by
  induction n generalizing c with
  | zero => cases h
  | succ n ih =>
    rw [freeFrom] at h
    by_cases hc : I.val c = 0
    · rw [if_pos hc] at h
      obtain rfl := Option.some.inj h
      exact ⟨Nat.le_refl c, by omega, hc, fun k h1 h2 => by omega⟩
    · rw [if_neg hc] at h
      obtain ⟨h1, h2, h3, h4⟩ := ih h
      refine ⟨by omega, by omega, h3, fun k hk hkx => ?_⟩
      rcases Nat.lt_or_eq_of_le hk with hlt | rfl
      · exact h4 k hlt hkx
      · exact hc

theorem freeFrom_none {n : Nat} (h : I.freeFrom n c = none) (h1 : c ≤ k) (h2 : k < c + n) :
    I.val k ≠ 0 := by
  induction n generalizing c with
  | zero => omega
  | succ n ih =>
    rw [freeFrom] at h
    by_cases hc : I.val c = 0
    · cases (if_pos hc).symm.trans h
    · rw [if_neg hc] at h
      rcases Nat.lt_or_eq_of_le h1 with hlt | rfl
      · exact ih h hlt (by omega)
      · exact hc

end Image

/-! ## Where the parts are -/

theorem eocMin_le (v : Vol) : eocMin v ≤ 0x0FFFFFF8 := by
  rw [eocMin]
  split <;> decide

section Numbered

variable {v : Vol}

theorem copy_le (hi : i < v.fatCount) :
    v.reservedSectors ≤ copyBase v i ∧ copyBase v i + v.fatSize ≤ tableEnd v := by
  have h := copy_end hi
  rw [Nat.succ_mul] at h
  rw [copyBase, tableEnd]
  omega

/-- Copies do not overlap. -/
theorem copy_apart {j : Nat} (h : i < j) : copyBase v i + v.fatSize ≤ copyBase v j := by
  have h := Nat.mul_le_mul_right v.fatSize (show i + 1 ≤ j from h)
  rw [Nat.succ_mul] at h
  rw [copyBase, copyBase]
  omega

variable (hv : Numbered v)

include hv

theorem Numbered.firstData_eq : v.firstData = tableEnd v + v.rootSectors :=
  hv.toLaid.firstData_eq

/-- The windows of different clusters do not overlap. -/
theorem Numbered.window_apart (hc : validDataCluster v c) (hk : validDataCluster v k) (hne : k ≠ c)
    (base : Nat) : entryNib v.type base k + width v.type ≤ entryNib v.type base c ∨
    entryNib v.type base c + width v.type ≤ entryNib v.type base k := by
  refine (hv.entry_same_or_disjoint hc hk base).resolve_left fun heq => hne ?_
  obtain ⟨_, hclt⟩ := (hv.valid_iff c).mp hc
  obtain ⟨_, hklt⟩ := (hv.valid_iff k).mp hk
  have hsmall := hv.small
  have hmin := eocMin_le v
  cases ht : v.type with
  | none => exact absurd ht hv.geometry.available
  | fat12 =>
    rw [ht, entryNib12 base (by omega), entryNib12 base (by omega)] at heq
    omega
  | fat16 =>
    have hoff : ∀ x, x < 2 ^ 28 → fatOffset .fat16 x = x * 2 := fun x hx => u32_of_lt (by omega)
    rw [ht, entryNib, entryNib, if_neg (by simp), if_neg (by simp), hoff c (by omega),
      hoff k (by omega)] at heq
    omega
  | fat32 =>
    have hoff : ∀ x, x < 2 ^ 28 → fatOffset .fat32 x = x * 4 := fun x hx => u32_of_lt (by omega)
    rw [ht, entryNib, entryNib, if_neg (by simp), if_neg (by simp), hoff c (by omega),
      hoff k (by omega)] at heq
    omega

/-- A window lies inside its copy. -/
theorem Numbered.window_inside (hc : validDataCluster v c) (h : InWindow v i c k) :
    1024 * copyBase v i ≤ k ∧ k < 1024 * (copyBase v i + v.fatSize) := by
  have hin := hv.entry_inside hc (copyBase v i)
  obtain ⟨hlow, hhigh⟩ := h
  omega

/-- A nibble belongs to at most one entry. -/
theorem Numbered.window_unique {j x : Nat} (hc : validDataCluster v c) (hk : validDataCluster v k)
    (h : InWindow v i c x) (h' : InWindow v j k x) : i = j ∧ c = k := by
  have hin := hv.window_inside hc h
  have hin' := hv.window_inside hk h'
  have hij : i = j := by
    rcases Nat.lt_trichotomy i j with hlt | heq | hgt
    · have := copy_apart (v := v) hlt
      omega
    · exact heq
    · have := copy_apart (v := v) hgt
      omega
  subst hij
  refine ⟨rfl, by_contra fun hne => ?_⟩
  obtain ⟨hlow, hhigh⟩ := h
  obtain ⟨hlow', hhigh'⟩ := h'
  rcases hv.window_apart hc hk (fun heq => hne heq.symm) (copyBase v i) with h | h
  · omega
  · omega

theorem Numbered.cluster_sectors {s : Nat} (hc : validDataCluster v c)
    (hs : s < v.sectorsPerCluster) : u32 (clusterSector v c + s) = clusterSector v c + s ∧
      tableEnd v + v.rootSectors ≤ clusterSector v c := by
  obtain ⟨h2, hlt⟩ := (hv.valid_iff c).mp hc
  obtain ⟨heq, _⟩ := hv.geometry.clusterSector_eq h2 hlt
  have := hv.firstData_eq
  exact ⟨(hv.cluster_sector hc hs).1, by omega⟩

/-- Sectors of clusters are told apart by the cluster and the sector inside it. -/
theorem Numbered.cluster_sector_inj {s t : Nat} (hc : validDataCluster v c)
    (hk : validDataCluster v k) (hs : s < v.sectorsPerCluster) (ht : t < v.sectorsPerCluster)
    (h : clusterSector v c + s = clusterSector v k + t) : c = k ∧ s = t := by
  obtain ⟨h2, hlt⟩ := (hv.valid_iff c).mp hc
  obtain ⟨h2', hlt'⟩ := (hv.valid_iff k).mp hk
  have heq := (hv.geometry.clusterSector_eq h2 hlt).1
  have heq' := (hv.geometry.clusterSector_eq h2' hlt').1
  -- a cluster ends where the next one starts
  have hstep : ∀ a b, a < b → a * v.sectorsPerCluster + v.sectorsPerCluster ≤
      b * v.sectorsPerCluster := by
    intro a b hab
    have := Nat.mul_le_mul_right v.sectorsPerCluster (show a + 1 ≤ b from hab)
    rwa [Nat.succ_mul] at this
  rcases Nat.lt_trichotomy (c - 2) (k - 2) with hlt | hck | hgt
  · have := hstep _ _ hlt
    omega
  · have hck' : c = k := by omega
    rw [hck'] at h
    exact ⟨hck', by omega⟩
  · have := hstep _ _ hgt
    omega

/-! ## Disks that differ in one part -/

omit hv in
theorem image_resv_congr (h : ∀ a, a / 512 < v.reservedSectors → d' a = d a) :
    (image v d').resv = (image v d).resv :=
  funext fun a => ite_congr rfl (h a) fun _ => rfl

/-- The table is nibbles between the reserved sectors and the root directory. -/
theorem Numbered.image_table_congr
    (h : ∀ a, v.reservedSectors ≤ a / 512 → a / 512 < tableEnd v → d' a = d a) :
    (image v d').tab = (image v d).tab ∧ (image v d').slack = (image v d).slack := by
  have hnib : ∀ k, 1024 * v.reservedSectors ≤ k → k < 1024 * tableEnd v → nib d' k = nib d k :=
    fun k hlow hhigh => nib_congr (h _ (by omega) (by omega))
  constructor
  · funext i c
    refine ite_congr rfl (fun hic => ?_) fun _ => rfl
    have hcopy := copy_le hic.1
    have hin := hv.entry_inside hic.2 (copyBase v i)
    exact field_congr fun k hk => hnib _ (by omega) (by omega)
  · classical
    funext k
    exact ite_congr rfl (fun hk => hnib k hk.1 hk.2.1) fun _ => rfl

omit hv in
theorem image_root_congr
    (h : ∀ a, tableEnd v ≤ a / 512 → a / 512 < tableEnd v + v.rootSectors → d' a = d a) :
    (image v d').root = (image v d).root :=
  funext fun o => ite_congr rfl (fun ho => h _ (by omega) (by omega)) fun _ => rfl

theorem Numbered.image_data_congr (h : ∀ a, tableEnd v + v.rootSectors ≤ a / 512 → d' a = d a) :
    (image v d').data = (image v d).data := by
  funext c o
  refine ite_congr rfl (fun hco => h _ ?_) fun _ => rfl
  have := (hv.cluster_sectors hco.1 hv.geometry.perCluster_pos).2
  omega

/-! ## Sectors written -/

variable (d : Disk)

omit hv in
/-- Byte `o` behind the start of a sector, with one sector of the disk written. -/
theorem store_at (lba base o : Nat) (sec : Sector) : d.store lba sec (512 * base + o) =
    if base + o / 512 = lba then sec (o % 512) else d (512 * base + o) := by
  rw [Disk.store, sectorSize, Nat.mul_add_div (by decide), Nat.mul_add_mod]

/-- A sector written to a cluster. -/
theorem Numbered.image_store_data {s : Nat} (hc : validDataCluster v c)
    (hs : s < v.sectorsPerCluster) (sec : Sector) :
    image v (d.store (clusterSector v c + s) sec) = (image v d).putData c s sec := by
  obtain ⟨_, hge⟩ := hv.cluster_sectors hc hs
  have hother : ∀ a, a / 512 < tableEnd v + v.rootSectors →
      d.store (clusterSector v c + s) sec a = d a :=
    fun a ha => store_other d sec (show a / 512 ≠ _ by omega)
  obtain ⟨htab, hslack⟩ := hv.image_table_congr fun a _ ha => hother a (by omega)
  have hres : v.reservedSectors ≤ tableEnd v := Nat.le_add_right _ _
  apply Image.ext
  · exact image_resv_congr fun a ha => hother a (by omega)
  · exact htab
  · exact hslack
  · exact image_root_congr fun a _ ha => hother a (by omega)
  · funext k o
    show (if _ then _ else _) = if _ then _ else (if _ then _ else _)
    have hcb : clusterBytes v = 512 * v.sectorsPerCluster := rfl
    by_cases hko : validDataCluster v k ∧ o < clusterBytes v
    · rw [if_pos hko, if_pos hko, store_at]
      refine ite_congr (propext ⟨hv.cluster_sector_inj hko.1 hc (by omega) hs, ?_⟩)
        (fun _ => rfl) fun _ => rfl
      rintro ⟨rfl, rfl⟩
      rfl
    · rw [if_neg hko, if_neg hko, if_neg]
      rintro ⟨rfl, rfl⟩
      exact hko ⟨hc, by omega⟩

/-- A sector of the fixed root directory written. -/
theorem Numbered.image_store_root {t : Nat} (ht : t < v.rootSectors) (sec : Sector) :
    image v (d.store (tableEnd v + t) sec) = (image v d).putRoot t sec := by
  have hother : ∀ a, a / 512 ≠ tableEnd v + t → d.store (tableEnd v + t) sec a = d a :=
    fun a ha => store_other d sec ha
  obtain ⟨htab, hslack⟩ := hv.image_table_congr fun a _ ha => hother a (by omega)
  have hres : v.reservedSectors ≤ tableEnd v := Nat.le_add_right _ _
  apply Image.ext
  · exact image_resv_congr fun a ha => hother a (by omega)
  · exact htab
  · exact hslack
  · funext o
    show (if _ then _ else _) = if _ then _ else (if _ then _ else _)
    by_cases ho : o / 512 < v.rootSectors
    · rw [if_pos ho, if_pos ho, store_at]
      exact ite_congr (propext Nat.add_left_cancel_iff) (fun _ => rfl) fun _ => rfl
    · rw [if_neg ho, if_neg ho, if_neg (by omega)]
  · exact hv.image_data_congr fun a ha => hother a (by omega)

/-- A reserved sector written. -/
theorem Numbered.image_store_resv {lba : Nat} (h : lba < v.reservedSectors) (sec : Sector) :
    image v (d.store lba sec) = (image v d).putResv lba sec := by
  have hother : ∀ a, a / 512 ≠ lba → d.store lba sec a = d a := fun a ha => store_other d sec ha
  obtain ⟨htab, hslack⟩ := hv.image_table_congr fun a ha _ => hother a (by omega)
  have hres : v.reservedSectors ≤ tableEnd v := Nat.le_add_right _ _
  apply Image.ext
  · funext a
    show (if _ then (if _ then _ else _) else _) = if _ then _ else (if _ then _ else _)
    by_cases ha : a / sectorSize = lba
    · rw [if_pos ha, if_pos ha]
      exact if_pos (lt_of_eq_of_lt ha h)
    · rw [if_neg ha, if_neg ha]
  · exact htab
  · exact hslack
  · exact image_root_congr fun a ha _ => hother a (by omega)
  · exact hv.image_data_congr fun a ha => hother a (by omega)

/-! ## Table entries -/

theorem Numbered.base_lt : v.reservedSectors + 2 ^ 23 < 2 ^ 32 := by
  have := hv.geometry.reserved_lt
  omega

/-- **`fat_get` reads the first copy.** -/
theorem Numbered.exec_fatGet (hc : validDataCluster v c) :
    exec (fatGet v c) d = ((image v d).val c, d) := by
  have hval : fatVal (fun _ => true) v d c = (image v d).val c := by
    rw [fatVal_readable hv.base_lt d ⟨rfl, fun _ _ => rfl⟩]
    have hbase : copyBase v 0 = v.reservedSectors := by
      rw [copyBase, Nat.zero_mul, Nat.add_zero]
    have hpos : 0 < v.fatCount ∧ validDataCluster v c :=
      ⟨hv.geometry.fatCount_pos, hc⟩
    refine Eq.trans ?_ (if_pos hpos).symm
    rw [entry, hbase]
  rw [← hval]
  exact run_fatGet _ v d c

/-- The copies `i, i + 1, …` of the table after `fat_set`. -/
theorem Numbered.run_fatSetFrom (ok : Nat → Bool) (hc : validDataCluster v c) (x : Nat)
    (hok : ∀ j < v.fatCount, Readable ok v (copyBase v j) c) :
    ∀ n i d, i + n = v.fatCount → ∃ d', run ok (fatSetFrom v c x n i) d = (true, d') ∧
      (∀ j, i ≤ j → j < v.fatCount → entry v d' j c = x % 16 ^ width v.type) ∧
      ∀ k, (∀ j, i ≤ j → j < v.fatCount → ¬ InWindow v j c k) → nib d' k = nib d k := by
  intro n
  induction n with
  | zero =>
    intro i d hi
    exact ⟨d, rfl, fun j h1 h2 => absurd h2 (by omega), fun _ _ => rfl⟩
  | succ n ih =>
    intro i d hi
    have hilt : i < v.fatCount := by omega
    have hcopy := copy_le hilt
    have hfits := hv.fits
    have hoff := (hv.entry_sectors hc).1
    have hmeta : tableEnd v ≤ metaSectors v := Nat.le_add_right _ _
    obtain ⟨d₁, hrun, hset⟩ := run_fatSetCopy_fits (by omega) d x (hok i hilt)
    obtain ⟨d', hrun', hin, hout⟩ := ih (i + 1) d₁ (by omega)
    refine ⟨d', ?_, fun j h1 h2 => ?_, fun k hk => ?_⟩
    · rw [fatSetFrom, hv.copy_base hilt, run_bind,
        show run ok (fatSetCopy v (v.reservedSectors + i * v.fatSize) c x) d = (true, d₁) from hrun]
      exact hrun'
    · rcases Nat.lt_or_eq_of_le h1 with hlt | rfl
      · exact hin j hlt h2
      · -- the later copies do not reach this window
        rw [entry, ← hset.inside]
        refine field_congr fun k hk => hout _ fun j hj _ hwin => ?_
        have hlow := (hv.window_inside hc hwin).1
        have hinside := (hv.entry_inside hc (copyBase v i)).2
        have := copy_apart (v := v) (show i < j from hj)
        omega
    · rw [hout k fun j hj hj' => hk j (by omega) hj']
      refine hset.outside k ?_
      have := hk i (Nat.le_refl i) hilt
      rw [InWindow] at this
      omega

/-- **`fat_set` stores one entry, in every copy.** -/
theorem Numbered.exec_fatSet (hc : validDataCluster v c) (x : Nat) :
    ∃ d', exec (fatSet v c x) d = (true, d') ∧
      image v d' = (image v d).set v c (x % 16 ^ width v.type) := by
  obtain ⟨d', hrun, hin, hout⟩ := hv.run_fatSetFrom (fun _ => true) hc x
    (fun _ _ => ⟨rfl, fun _ _ => rfl⟩) v.fatCount 0 d (Nat.zero_add _)
  refine ⟨d', hrun, ?_⟩
  -- no byte outside the table changes
  have hbyte : ∀ a, a / 512 < v.reservedSectors ∨ tableEnd v ≤ a / 512 → d' a = d a := by
    intro a ha
    have hno : ∀ k, k / 2 = a → nib d' k = nib d k := by
      intro k hk
      refine hout k fun j _ hj hwin => ?_
      have := hv.window_inside hc hwin
      have := copy_le hj
      omega
    exact byte_ext (hno _ (by omega)) (hno _ (by omega))
  have hres : v.reservedSectors ≤ tableEnd v := Nat.le_add_right _ _
  apply Image.ext
  · exact image_resv_congr fun a ha => hbyte a (.inl ha)
  · funext i k
    show (if _ then _ else _) = if _ then _ else (if _ then _ else _)
    by_cases hik : i < v.fatCount ∧ validDataCluster v k
    · rw [if_pos hik, if_pos hik]
      by_cases hkc : i < v.fatCount ∧ k = c
      · rw [if_pos hkc, hkc.2]
        exact hin i (Nat.zero_le i) hik.1
      · rw [if_neg hkc]
        refine field_congr fun q hq => hout _ fun j _ hj hwin => hkc ⟨hik.1, ?_⟩
        exact (hv.window_unique hik.2 hc ⟨Nat.le_add_right _ _, by omega⟩ hwin).2
    · have hkc : ¬ (i < v.fatCount ∧ k = c) := fun h => hik ⟨h.1, by rw [h.2]; exact hc⟩
      rw [if_neg hik, if_neg hkc, if_neg hik]
  · classical
    funext k
    refine ite_congr rfl (fun hk => hout k fun j _ hj hwin => ?_) fun _ => rfl
    exact hk.2.2 ⟨j, hj, c, hc, hwin⟩
  · exact image_root_congr fun a ha _ => hbyte a (.inr ha)
  · exact hv.image_data_congr fun a ha => hbyte a (.inr (by omega))

end Numbered

end FatImage
