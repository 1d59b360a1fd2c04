import AoOs.FatTypes
import AoOs.SlowIteration

/-! # The installer's layout — `calculate_layout` of `installer.c`

    The size of the FAT depends on the number of clusters, which depends on what
    the two FAT copies leave over.  `calculate_layout` iterates from one sector
    and stops after 16 rounds at the latest.

    The map it iterates falls slowly, so the iteration either settles on the one
    size that fits or alternates between two neighbours, and after 16 rounds it
    then stands on the SMALLER one: the FAT is a sector short.  Which capacities
    these are is a matter of residues.  For FAT32 the 32-bit byte count wraps on
    top of that from `2 ^ 30 + 385` sectors on. -/

namespace Installer

open FatTypes SlowIteration

/-- `installer_fs_t`. -/
inductive InstallerFs where
  | fat12
  | fat16
  | fat32
  deriving DecidableEq, Repr

/-- `BOOT_RESERVED_SECTORS`. -/
def bootReservedSectors : Nat := 512

/-- 32-bit subtraction. -/
def sub32 (a b : Nat) : Nat := u32 (a + (2 ^ 32 - b))

def rootEntries : InstallerFs → Nat
  | .fat12 => 224
  | .fat16 => 512
  | .fat32 => 0

def rootSectors (fs : InstallerFs) : Nat := (rootEntries fs * 32 + 511) / 512

def sectorsPerCluster : InstallerFs → Nat
  | .fat12 => 32
  | .fat16 => 2
  | .fat32 => 1

/-- `fat_bytes_for`. -/
def fatBytesFor (fs : InstallerFs) (clusters : Nat) : Nat :=
  match fs with
  | .fat12 => u32 ((clusters + 2) * 3 + 1) / 2
  | .fat16 => u32 ((clusters + 2) * 2)
  | .fat32 => u32 ((clusters + 2) * 4)

/-- `data` in the loop of `calculate_layout`. -/
def loopData (fs : InstallerFs) (volume fat : Nat) : Nat :=
  sub32 (sub32 (sub32 volume bootReservedSectors) (rootSectors fs)) (u32 (2 * fat))

/-- `next` in the loop of `calculate_layout`. -/
def loopNext (fs : InstallerFs) (volume fat : Nat) : Nat :=
  u32 (fatBytesFor fs (loopData fs volume fat / sectorsPerCluster fs) + 511) / 512

/-- The loop of `calculate_layout`, with the rounds left; `none` is the return of
    `INSTALLER_UNSUPPORTED` inside it. -/
def layoutLoop (fs : InstallerFs) (volume : Nat) : Nat → Nat → Option Nat
  | 0, fat => some fat
  | n + 1, fat =>
    if volume ≤ u32 (bootReservedSectors + rootSectors fs + 2 * fat) then none
    else if loopNext fs volume fat = fat then some fat
    else layoutLoop fs volume n (loopNext fs volume fat)

/-- The values of `fat_sectors` at which the loop evaluates its subtraction. -/
def loopRounds (fs : InstallerFs) (volume : Nat) : Nat → Nat → List Nat
  | 0, _ => []
  | n + 1, fat =>
    if volume ≤ u32 (bootReservedSectors + rootSectors fs + 2 * fat) then []
    else fat :: if loopNext fs volume fat = fat then []
      else loopRounds fs volume n (loopNext fs volume fat)

/-- The static variables that `calculate_layout` sets. -/
structure Layout where
  volumeSectors : Nat
  reservedSectors : Nat
  fatSectors : Nat
  rootSectors : Nat
  firstDataSector : Nat
  rootCluster : Nat
  sectorsPerCluster : Nat
  rootEntries : Nat
  deriving DecidableEq, Repr

/-- The cluster counts that a FAT type does not allow. -/
def wrongRange (fs : InstallerFs) (clusters : Nat) : Bool :=
  match fs with
  | .fat12 => decide (4085 ≤ clusters)
  | .fat16 => decide (clusters < 4085) || decide (65525 ≤ clusters)
  | .fat32 => decide (clusters < 65525)

/-- `calculate_layout` for a disk of `volume` sectors; `none` is
    `INSTALLER_UNSUPPORTED`. -/
def calculateLayout (fs : InstallerFs) (volume : Nat) : Option Layout :=
  if volume ≤ bootReservedSectors + rootSectors fs + 100 then none
  else match layoutLoop fs volume 16 1 with
    | none => none
    | some fat =>
      let first := u32 (bootReservedSectors + 2 * fat + rootSectors fs)
      if volume ≤ first then none
      else if wrongRange fs (sub32 volume first / sectorsPerCluster fs) then none
      else some {
        volumeSectors := volume
        reservedSectors := bootReservedSectors
        fatSectors := fat
        rootSectors := rootSectors fs
        firstDataSector := first
        rootCluster := if fs = .fat32 then 2 else 0
        sectorsPerCluster := sectorsPerCluster fs
        rootEntries := rootEntries fs }

/-! ## The map that the loop iterates -/

/-- `2 ^ 30` four-byte entries are `2 ^ 32` bytes: the part of a FAT32 volume that
    the wrapped byte count still sees, 127 for rounding up included.  (A rest below
    two belongs to the period before it, because the first round subtracts two.) -/
def visible (volume : Nat) : Nat :=
  if 2 ^ 30 ≤ volume - 383 ∧ (volume - 383) % 2 ^ 30 < 2 then
    (volume - 383) % 2 ^ 30 + 2 ^ 30
  else (volume - 383) % 2 ^ 30

/-- `next` as a function on all of `Nat`. -/
def settling (fs : InstallerFs) (volume fat : Nat) : Nat :=
  match fs with
  | .fat12 => ((((volume - 526 - 2 * fat) / 32 + 2) * 3 + 1) / 2 + 511) / 512
  | .fat16 => ((volume - 544 - 2 * fat) / 2 + 2 + 255) / 256
  | .fat32 => (visible volume - 2 * fat) / 128

theorem settling_slow (fs : InstallerFs) (volume : Nat) : Slow (settling fs volume) := by
  refine ⟨fun a b hab => ?_, fun a b hab => ?_⟩ <;> cases fs <;> simp only [settling] <;> omega

/-- Where the iterates stay: a FAT below `2 ^ 24` sectors, and for FAT32 inside the
    part of the volume the wrapped count sees. -/
def Inside (fs : InstallerFs) (volume fat : Nat) : Prop :=
  fat < 2 ^ 24 ∧ (fs = .fat32 → 2 * fat ≤ visible volume ∧
    fat ≤ visible volume / 128 + 1 ∧ (2 ^ 30 ≤ visible volume → 1 ≤ fat))

theorem visible_lt (volume : Nat) : visible volume < 2 ^ 30 + 2 := by
  rw [visible]
  split <;> omega

variable {volume : Nat}

/-- A FAT32 volume is its visible part and whole periods. -/
theorem visible_spec (hV : volume < 2 ^ 32) (hlarge : 383 ≤ volume) :
    ∃ k, k ≤ 3 ∧ volume = 383 + k * 2 ^ 30 + visible volume := by
  rw [visible]
  split
  · exact ⟨(volume - 383) / 2 ^ 30 - 1, by omega, by omega⟩
  · exact ⟨(volume - 383) / 2 ^ 30, by omega, by omega⟩

variable {fs : InstallerFs} {volume fat : Nat}

/-- The guard keeps the subtractions of a round from wrapping. -/
theorem loopData_eq (hV : volume < 2 ^ 32) (hfat : fat < 2 ^ 24)
    (hguard : ¬ volume ≤ u32 (bootReservedSectors + rootSectors fs + 2 * fat)) :
    bootReservedSectors + rootSectors fs + 2 * fat < volume ∧
    loopData fs volume fat = volume - (bootReservedSectors + rootSectors fs) - 2 * fat := by
  have hroot : rootSectors fs ≤ 32 := by cases fs <;> decide
  have hres : bootReservedSectors = 512 := rfl
  have hsum : u32 (bootReservedSectors + rootSectors fs + 2 * fat) =
      bootReservedSectors + rootSectors fs + 2 * fat := u32_of_lt (by omega)
  rw [hsum] at hguard
  refine ⟨by omega, ?_⟩
  simp only [loopData, sub32, u32]
  omega

/-- A round of the loop is a step of `settling`. -/
theorem loopNext_eq (hV : volume < 2 ^ 32) (hin : Inside fs volume fat)
    (hguard : ¬ volume ≤ u32 (bootReservedSectors + rootSectors fs + 2 * fat)) :
    loopNext fs volume fat = settling fs volume fat := by
  obtain ⟨hlt, hdata⟩ := loopData_eq hV hin.1 hguard
  rw [loopNext, hdata]
  have hres : bootReservedSectors = 512 := rfl
  cases fs with
  | fat12 =>
    have hroot : bootReservedSectors + rootSectors .fat12 = 526 := rfl
    have hc : (volume - 526 - 2 * fat) / 32 < 2 ^ 28 := by omega
    simp only [hroot, fatBytesFor, sectorsPerCluster, settling, u32]
    generalize (volume - 526 - 2 * fat) / 32 = c at hc ⊢
    rw [Nat.mod_eq_of_lt (show (c + 2) * 3 + 1 < 2 ^ 32 by omega),
      Nat.mod_eq_of_lt (show ((c + 2) * 3 + 1) / 2 + 511 < 2 ^ 32 by omega)]
  | fat16 =>
    have hroot : rootSectors .fat16 = 32 := rfl
    simp only [hroot, hres, fatBytesFor, sectorsPerCluster, settling, u32] at hlt ⊢
    omega
  | fat32 =>
    have hroot : rootSectors .fat32 = 0 := rfl
    simp only [hroot, hres, fatBytesFor, sectorsPerCluster, settling, u32] at hlt ⊢
    obtain ⟨h1, h2, h3⟩ := hin.2 rfl
    obtain ⟨k, hk, hvol⟩ := visible_spec hV (by omega)
    have hlow := visible_lt volume
    interval_cases k <;> omega

/-- The iterates stay inside. -/
theorem inside_settling (hV : volume < 2 ^ 32) (hin : Inside fs volume fat) :
    Inside fs volume (settling fs volume fat) := by
  cases fs with
  | fat12 =>
    refine ⟨?_, nofun⟩
    simp only [settling]
    omega
  | fat16 =>
    refine ⟨?_, nofun⟩
    simp only [settling]
    omega
  | fat32 =>
    obtain ⟨h1, h2, h3⟩ := hin.2 rfl
    have hlow := visible_lt volume
    simp only [Inside, settling]
    refine ⟨by omega, fun _ => ⟨by omega, by omega, fun hbig => by omega⟩⟩

theorem inside_one (hV : volume < 2 ^ 32) (hlarge : 612 < volume) : Inside fs volume 1 := by
  refine ⟨by decide, fun _ => ?_⟩
  have hvis : 2 ≤ visible volume := by
    rw [visible]
    split <;> omega
  exact ⟨by omega, by omega, fun _ => Nat.le_refl 1⟩

/-- The loop ends on the iterate of its last round, settled or not, and none of
    its subtractions wraps. -/
theorem layoutLoop_eq (hV : volume < 2 ^ 32) (n : Nat) :
    ∀ {fat r : Nat}, Inside fs volume fat → layoutLoop fs volume n fat = some r →
      r = (settling fs volume)^[n] fat ∧ Inside fs volume r ∧
      ∀ f ∈ loopRounds fs volume n fat, bootReservedSectors + rootSectors fs + 2 * f < volume := by
  induction n with
  | zero =>
    intro fat r hin h
    cases h
    exact ⟨rfl, hin, fun f hf => nomatch hf⟩
  | succ n ih =>
    intro fat r hin h
    rw [layoutLoop] at h
    by_cases hguard : volume ≤ u32 (bootReservedSectors + rootSectors fs + 2 * fat)
    · cases (if_pos hguard).symm.trans h
    rw [if_neg hguard] at h
    have hnext := loopNext_eq hV hin hguard
    obtain ⟨hfit, _⟩ := loopData_eq hV hin.1 hguard
    rw [loopRounds, if_neg hguard]
    by_cases heq : loopNext fs volume fat = fat
    · rw [if_pos heq] at h ⊢
      cases h
      have hfix : settling fs volume fat = fat := hnext.symm.trans heq
      refine ⟨(Function.iterate_fixed hfix _).symm, hin, fun f hf => ?_⟩
      obtain rfl := List.mem_singleton.mp hf
      exact hfit
    · rw [if_neg heq, hnext] at h
      obtain ⟨hr, hrin, hrounds⟩ := ih (inside_settling hV hin) h
      rw [if_neg heq, hnext]
      refine ⟨by rw [Function.iterate_succ_apply]; exact hr, hrin, fun f hf => ?_⟩
      rcases List.mem_cons.mp hf with rfl | hf
      · exact hfit
      · exact hrounds f hf

/-! ## What a layout must provide -/

/-- The byte of a FAT copy just behind the entry of cluster `n`. -/
def entryEnd (fs : InstallerFs) (n : Nat) : Nat :=
  match fs with
  | .fat12 => (3 * (n + 1) + 1) / 2
  | .fat16 => 2 * (n + 1)
  | .fat32 => 4 * (n + 1)

/-- The number of data clusters of a layout. -/
def Layout.clusters (l : Layout) : Nat :=
  (l.volumeSectors - l.firstDataSector) / l.sectorsPerCluster

/-- Each FAT copy has an entry for every cluster number in use. -/
def Layout.FatCovers (fs : InstallerFs) (l : Layout) : Prop :=
  (∀ n, n < l.clusters + 2 → entryEnd fs n ≤ l.fatSectors * 512) ∧
    fatBytesFor fs l.clusters ≤ l.fatSectors * 512

/-- A layout as it should come out of `calculate_layout`. -/
structure Sound (fs : InstallerFs) (l : Layout) : Prop where
  fat_covers : l.FatCovers fs
  areas : l.reservedSectors + 2 * l.fatSectors + l.rootSectors = l.firstDataSector
  inside : l.firstDataSector + l.clusters * l.sectorsPerCluster ≤ l.volumeSectors
  rounds_fit : ∀ f ∈ loopRounds fs l.volumeSectors 16 1,
    l.reservedSectors + l.rootSectors + 2 * f ≤ l.volumeSectors
  data_fits : l.firstDataSector ≤ l.volumeSectors

/-- What is known about every layout that is returned. -/
structure Computed (fs : InstallerFs) (volume : Nat) (l : Layout) : Prop where
  volume_eq : l.volumeSectors = volume
  reserved_eq : l.reservedSectors = bootReservedSectors
  root_eq : l.rootSectors = rootSectors fs
  perCluster_eq : l.sectorsPerCluster = sectorsPerCluster fs
  entries_eq : l.rootEntries = rootEntries fs
  rootCluster_eq : l.rootCluster = if fs = .fat32 then 2 else 0
  fat_eq : l.fatSectors = (settling fs volume)^[16] 1
  fat_inside : Inside fs volume l.fatSectors
  first_eq : l.firstDataSector = bootReservedSectors + 2 * l.fatSectors + rootSectors fs
  first_lt : l.firstDataSector < volume
  range : wrongRange fs l.clusters = false
  large : bootReservedSectors + rootSectors fs + 100 < volume
  rounds : ∀ f ∈ loopRounds fs volume 16 1, bootReservedSectors + rootSectors fs + 2 * f < volume

theorem calculateLayout_computed {l : Layout} (hV : volume < 2 ^ 32)
    (h : calculateLayout fs volume = some l) : Computed fs volume l := by
  rw [calculateLayout] at h
  by_cases hsmall : volume ≤ bootReservedSectors + rootSectors fs + 100
  · cases (if_pos hsmall).symm.trans h
  rw [if_neg hsmall] at h
  cases hloop : layoutLoop fs volume 16 1 with
  | none =>
    rw [hloop] at h
    cases h
  | some fat =>
    rw [hloop] at h
    have hone : Inside fs volume 1 := inside_one hV (by
      have : bootReservedSectors = 512 := rfl
      omega)
    obtain ⟨hfat, hin, hrounds⟩ := layoutLoop_eq hV 16 hone hloop
    have hroot : rootSectors fs ≤ 32 := by cases fs <;> decide
    have hres : bootReservedSectors = 512 := rfl
    have hfirst : u32 (bootReservedSectors + 2 * fat + rootSectors fs) =
        bootReservedSectors + 2 * fat + rootSectors fs := u32_of_lt (by have := hin.1; omega)
    simp only [hfirst] at h
    by_cases hfit : volume ≤ bootReservedSectors + 2 * fat + rootSectors fs
    · cases (if_pos hfit).symm.trans h
    rw [if_neg hfit] at h
    have hsub : sub32 volume (bootReservedSectors + 2 * fat + rootSectors fs) =
        volume - (bootReservedSectors + 2 * fat + rootSectors fs) := by
      simp only [sub32, u32]
      omega
    rw [hsub] at h
    by_cases hrange : wrongRange fs
        ((volume - (bootReservedSectors + 2 * fat + rootSectors fs)) / sectorsPerCluster fs)
    · cases (if_pos hrange).symm.trans h
    cases (if_neg hrange).symm.trans h
    exact ⟨rfl, rfl, rfl, rfl, rfl, rfl, hfat, hin, rfl, Nat.lt_of_not_le hfit,
      Bool.eq_false_iff.mpr hrange, Nat.lt_of_not_le hsmall, hrounds⟩

/-! ## Which capacities fit -/

/-- The capacities whose FAT comes out large enough.  FAT12 fails on the eleven
    pairs of capacities where one FAT sector more costs the cluster that needed it;
    FAT16 and FAT32 fail on a residue class; FAT32 also fails for good from where
    the byte count wraps. -/
def FatFits (fs : InstallerFs) (volume : Nat) : Prop :=
  match fs with
  | .fat12 => ∀ a, a < 12 → ¬ ((volume - 526 - 2 * a) % 32 < 2 ∧
      1024 * a < 3 * ((volume - 526 - 2 * a) / 32 + 2) ∧
      3 * ((volume - 526 - 2 * a) / 32 + 2) ≤ 1024 * a + 3)
  | .fat16 => volume / 2 % 257 ≠ 14
  | .fat32 => volume ≤ 2 ^ 30 + 384 ∧ volume % 130 ≠ 121 ∧ volume % 130 ≠ 122

/-- Below the wrap the whole of a FAT32 volume is visible. -/
theorem visible_small (h : volume ≤ 2 ^ 30 + 384) : visible volume = volume - 383 := by
  rw [visible]
  split <;> omega

section Fits

variable {fs : InstallerFs} {volume : Nat} {l : Layout}

section Computed

variable (hc : Computed fs volume l)

include hc

theorem Computed.clusters_eq : l.clusters = (volume - (bootReservedSectors + 2 * l.fatSectors +
    rootSectors fs)) / sectorsPerCluster fs := by
  rw [Layout.clusters, hc.volume_eq, hc.first_eq, hc.perCluster_eq]

omit hc in
/-- Covering every cluster is covering the last one. -/
theorem fatCovers_iff : l.FatCovers fs ↔ entryEnd fs (l.clusters + 1) ≤ l.fatSectors * 512 := by
  constructor
  · exact fun h => h.1 _ (by omega)
  · intro h
    constructor
    · intro n hn
      refine Nat.le_trans ?_ h
      cases fs <;> simp only [entryEnd] <;> omega
    · refine Nat.le_trans ?_ h
      cases fs <;> simp only [fatBytesFor, entryEnd, u32] <;> omega

/-- The FAT covers the clusters iff `settling` asks for no more sectors. -/
theorem Computed.fatCovers_iff_settling (hsmall : fs = .fat32 → volume ≤ 2 ^ 30 + 384) :
    l.FatCovers fs ↔ settling fs volume l.fatSectors ≤ l.fatSectors := by
  have hlt := hc.first_lt
  rw [fatCovers_iff, hc.clusters_eq]
  rw [hc.first_eq] at hlt
  cases fs with
  | fat12 =>
    have hroot : bootReservedSectors + 2 * l.fatSectors + rootSectors .fat12 =
      526 + 2 * l.fatSectors := by rw [show rootSectors .fat12 = 14 from rfl,
        show bootReservedSectors = 512 from rfl]; omega
    rw [hroot] at hlt ⊢
    simp only [entryEnd, sectorsPerCluster, settling]
    rw [Nat.sub_add_eq]
    omega
  | fat16 =>
    have hroot : bootReservedSectors + 2 * l.fatSectors + rootSectors .fat16 =
      544 + 2 * l.fatSectors := by rw [show rootSectors .fat16 = 32 from rfl,
        show bootReservedSectors = 512 from rfl]; omega
    rw [hroot] at hlt ⊢
    simp only [entryEnd, sectorsPerCluster, settling]
    omega
  | fat32 =>
    have hroot : bootReservedSectors + 2 * l.fatSectors + rootSectors .fat32 =
      512 + 2 * l.fatSectors := by rw [show rootSectors .fat32 = 0 from rfl,
        show bootReservedSectors = 512 from rfl]; omega
    rw [hroot] at hlt ⊢
    simp only [entryEnd, sectorsPerCluster, settling, visible_small (hsmall rfl)]
    omega

/-- Every computed FAT size is the image of another. -/
theorem Computed.fat_le : l.fatSectors ≤ settling fs volume 0 := by
  rw [hc.fat_eq, show (16 : Nat) = 15 + 1 from rfl, Function.iterate_succ_apply']
  exact (settling_slow fs volume).antitone (Nat.zero_le _)

/-- Alternating is a matter of residues. -/
theorem Computed.alternates_iff (hsmall : fs = .fat32 → volume ≤ 2 ^ 30 + 384) :
    (∀ a, ¬ Alternates (settling fs volume) a) ↔ FatFits fs volume := by
  have hlarge := hc.large
  have hlt := hc.first_lt
  have hrange := hc.range
  have hle := hc.fat_le
  rw [hc.clusters_eq] at hrange
  rw [hc.first_eq] at hlt
  have hres : bootReservedSectors = 512 := rfl
  cases fs with
  | fat12 =>
    have hroot : rootSectors .fat12 = 14 := rfl
    simp only [hroot, hres, wrongRange, sectorsPerCluster, decide_eq_false_iff_not] at hrange hlt
    simp only [settling] at hle
    constructor
    · intro h a _ hstall
      refine h a ⟨?_, ?_⟩ <;> simp only [settling] <;> omega
    · intro h a halt
      obtain ⟨h1, h2⟩ := halt
      simp only [settling] at h1 h2
      exact h a (by omega) ⟨by omega, by omega, by omega⟩
  | fat16 =>
    have hroot : rootSectors .fat16 = 32 := rfl
    rw [hroot, hres] at hlarge
    constructor
    · intro h hres
      refine h ((volume / 2 - 271) / 257) ⟨?_, ?_⟩ <;> simp only [settling] <;> omega
    · intro h a halt
      obtain ⟨h1, h2⟩ := halt
      simp only [settling] at h1 h2
      exact h (by omega)
  | fat32 =>
    have hroot : rootSectors .fat32 = 0 := rfl
    rw [hroot, hres] at hlarge
    constructor
    · intro h
      refine ⟨hsmall rfl, fun hres => ?_, fun hres => ?_⟩
      · refine h ((volume - 511) / 130) ⟨?_, ?_⟩ <;>
          simp only [settling, visible_small (hsmall rfl)] <;> omega
      · refine h ((volume - 511) / 130) ⟨?_, ?_⟩ <;>
          simp only [settling, visible_small (hsmall rfl)] <;> omega
    · intro h a halt
      obtain ⟨h1, h2⟩ := halt
      simp only [settling, visible_small (hsmall rfl)] at h1 h2
      obtain ⟨_, h121, h122⟩ := h
      omega

end Computed

/-- Behind the wrap a FAT32 volume has more clusters than the FAT has entries. -/
theorem Computed.not_covers_of_wrap (hV : volume < 2 ^ 32) (hc : Computed .fat32 volume l)
    (hbig : 2 ^ 30 + 384 < volume) : ¬ l.FatCovers .fat32 := by
  rw [fatCovers_iff, hc.clusters_eq]
  have hle := hc.fat_le
  have hvis := visible_lt volume
  obtain ⟨k, hk, hvol⟩ := visible_spec hV (by omega)
  have hk1 : 1 ≤ k := by
    rcases Nat.eq_zero_or_pos k with rfl | hpos
    · have hsame : visible volume = volume - 383 := by omega
      rw [visible] at hsame
      split at hsame <;> omega
    · exact hpos
  have hroot : rootSectors .fat32 = 0 := rfl
  have hres : bootReservedSectors = 512 := rfl
  simp only [settling] at hle
  simp only [entryEnd, sectorsPerCluster, hroot, hres]
  omega

/-- **When the FAT is large enough**, and everything else about a layout that the
    installer accepts. -/
theorem calculateLayout_sound_iff (fs : InstallerFs) (volume : Nat) (l : Layout)
    (hV : volume < 2 ^ 32) (h : calculateLayout fs volume = some l) :
    Sound fs l ↔ FatFits fs volume := by
  have hc := calculateLayout_computed hV h
  have hrest : l.FatCovers fs → Sound fs l := by
    intro hcov
    have hareas : l.reservedSectors + 2 * l.fatSectors + l.rootSectors = l.firstDataSector := by
      rw [hc.reserved_eq, hc.root_eq, hc.first_eq]
    have hfit : l.firstDataSector ≤ l.volumeSectors := by
      rw [hc.volume_eq]
      exact Nat.le_of_lt hc.first_lt
    refine ⟨hcov, hareas, ?_, fun f hf => ?_, hfit⟩
    · have hmul := Nat.div_mul_le_self (l.volumeSectors - l.firstDataSector) l.sectorsPerCluster
      rw [← Layout.clusters] at hmul
      omega
    · rw [hc.volume_eq] at hf ⊢
      rw [hc.reserved_eq, hc.root_eq]
      exact Nat.le_of_lt (hc.rounds f hf)
  by_cases hsmall : fs = .fat32 → volume ≤ 2 ^ 30 + 384
  · have hone : 1 ≤ settling fs volume 1 := by
      have hlarge := hc.large
      have hres : bootReservedSectors = 512 := rfl
      cases fs with
      | fat12 => simp only [settling]; omega
      | fat16 => simp only [settling]; omega
      | fat32 => simp only [settling, visible_small (hsmall rfl)]; omega
    have hslow := settling_slow fs volume
    rw [← hc.alternates_iff hsmall, ← hslow.fixed_iff]
    constructor
    · intro hs
      -- the 16th iterate is below its image, and a FAT that covers is not below its image
      refine ⟨l.fatSectors, Nat.le_antisymm ?_ ?_⟩
      · exact (hc.fatCovers_iff_settling hsmall).mp hs.fat_covers
      · rw [hc.fat_eq]
        exact iterate_even_le hslow.antitone hone 8
    · rintro ⟨F, hF⟩
      have hF32 : F ≤ 2 ^ 32 := by
        have hb := hslow.antitone (Nat.zero_le F)
        rw [hF] at hb
        refine Nat.le_trans hb ?_
        cases fs with
        | fat12 => simp only [settling]; omega
        | fat16 => simp only [settling]; omega
        | fat32 => simp only [settling, visible_small (hsmall rfl)]; omega
      have hfat : l.fatSectors = F := by
        rw [hc.fat_eq]
        exact hslow.iterate_eq hF (by decide) hF32 (by decide)
      refine hrest ((hc.fatCovers_iff_settling hsmall).mpr ?_)
      rw [hfat, hF]
  · rw [Classical.not_imp] at hsmall
    obtain ⟨rfl, hbig⟩ := hsmall
    constructor
    · exact fun hs => absurd hs.fat_covers (hc.not_covers_of_wrap hV (by omega))
    · exact fun hf => absurd hf.1 hbig

end Fits

/-- A 10 MB disk formatted as FAT16: the 39 sectors hold the entries. -/
theorem calculateLayout_sound_20480 :
    calculateLayout .fat16 20480 = some ⟨20480, 512, 39, 32, 622, 0, 2, 512⟩ ∧
    Sound .fat16 ⟨20480, 512, 39, 32, 622, 0, 2, 512⟩ := by
  have h : calculateLayout .fat16 20480 = some ⟨20480, 512, 39, 32, 622, 0, 2, 512⟩ := by
    decide
  exact ⟨h, (calculateLayout_sound_iff _ _ _ (by decide) h).mpr (by rw [FatFits]; decide)⟩

/-- 11408 sectors as FAT12: with one FAT sector there are 340 clusters, which need
    513 bytes; with two there are 339, which need 512. -/
theorem calculateLayout_fat_short :
    calculateLayout .fat12 11408 = some ⟨11408, 512, 1, 14, 528, 0, 32, 224⟩ ∧
    ¬ Sound .fat12 ⟨11408, 512, 1, 14, 528, 0, 32, 224⟩ := by
  refine ⟨by decide, fun h => ?_⟩
  exact absurd (h.fat_covers.1 341 (by decide)) (by decide)

end Installer
