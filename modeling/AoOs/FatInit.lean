import AoOs.BlockCache
import AoOs.FatDriver

/-! # Mounting — `fat_init` over two drives and one cache

    `fat_init` tries the master, then the slave.  Both boot sectors are LBA 0, and
    the cache in between knows LBAs and not drives: what the second attempt reads
    is what the first one left in the cache.

    The volume in use is right exactly when the slave is not needed: the master
    mounts, or the slave would not have mounted either. -/

namespace FatInit

open BlockIO StepSystem BlockCache FatTypes FatDriver

variable {s : Sector} {drive : Bool}

/-- What `mount_drive` asks of a boot sector. -/
def passes (s : Sector) : Bool :=
  decide (s 510 = 0x55 ∧ s 511 = 0xAA) && (readBpb s).accepted

/-- `mount_drive`: select the drive, read LBA 0 through the cache, decode it.
    Every request to a drive `readable` allows succeeds. -/
def mountDrive (readable : Bool → Bool) (cwd : Nat → UInt8) (st : Storage) (drive : Bool) :
    Option Vol × Storage :=
  match blockCacheReadSector (st.ataSelectDrive drive) 0 (readable drive) with
  | (none, st') => (none, st')
  | (some s, st') => (mountSector (if drive then 1 else 0) s cwd, st')

/-- `fat_init`; the volume is `none` while `type` is `FAT_TYPE_NONE`. -/
def fatInit (available : Bool) (readable : Bool → Bool) (cwd : Nat → UInt8) (st : Storage) :
    Option Vol × Storage :=
  if available then
    match mountDrive readable cwd st false with
    | (some v, st₁) => (some v, st₁)
    | (none, st₁) =>
      match mountDrive readable cwd st₁ true with
      | (some v, st₂) => (some v, st₂)
      | (none, st₂) => (none, st₂.ataSelectDrive false)
  else (none, st)

/-- The storage part of `fs_init`: an empty cache, then `fat_init`. -/
def fsInit (available : Bool) (readable : Bool → Bool) (cwd : Nat → UInt8) (st : Storage) :
    Option Vol × Storage :=
  fatInit available readable cwd (blockCacheInvalidate st)

theorem mountSector_eq (drive : Nat) (s : Sector) (cwd : Nat → UInt8) :
    mountSector drive s cwd = if passes s then some ((readBpb s).toVol drive cwd) else none := by
  by_cases h : s 510 = 0x55 ∧ s 511 = 0xAA ∧ (readBpb s).accepted
  · have hp : passes s := by
      rw [passes, decide_eq_true ⟨h.1, h.2.1⟩, h.2.2]
      rfl
    rw [mountSector, if_pos h, if_pos hp]
  · have hp : ¬ passes s := by
      intro hp
      obtain ⟨hsig, hacc⟩ := Bool.and_eq_true_iff.mp hp
      exact h ⟨(of_decide_eq_true hsig).1, (of_decide_eq_true hsig).2, hacc⟩
    rw [mountSector, if_neg h, if_neg hp]

/-- Mounting looks at the 512 bytes of the boot sector only. -/
theorem readBpb_congr {t : Sector} (h : SameBytes s t) : readBpb s = readBpb t := by
  have hb : ∀ i, i < 512 → s i = t i := h
  simp only [readBpb, get32, hb 11 (by decide), hb 12 (by decide), hb 13 (by decide),
    hb 14 (by decide), hb 15 (by decide), hb 16 (by decide), hb 17 (by decide), hb 18 (by decide),
    hb 19 (by decide), hb 20 (by decide), hb 22 (by decide), hb 23 (by decide), hb 32 (by decide),
    hb 33 (by decide), hb 34 (by decide), hb 35 (by decide), hb 36 (by decide), hb 37 (by decide),
    hb 38 (by decide), hb 39 (by decide), hb 44 (by decide), hb 45 (by decide), hb 46 (by decide),
    hb 47 (by decide), hb 48 (by decide), hb 49 (by decide), hb 50 (by decide), hb 51 (by decide),
    Nat.reduceAdd]

theorem mountSector_congr {t : Sector} (h : SameBytes s t) (drive : Nat) (cwd : Nat → UInt8) :
    mountSector drive s cwd = mountSector drive t cwd := by
  rw [mountSector, mountSector, readBpb_congr h, h 510 (by decide), h 511 (by decide)]

/-! ## The sectors read after the mount -/

/-- The storage after the mount, every image the drive in use has had since, and
    the sectors read with success. -/
structure Watched where
  st : Storage
  seen : List Disk
  reads : List (UInt32 × Sector)

variable {w : Watched}

/-- One access after the mount. -/
def watch (drive : Bool) (w : Watched) (op : Op) : Watched :=
  let t := access ⟨w.st, w.st.contents, []⟩ op
  ⟨t.st, t.st.drive drive :: w.seen, match op, t.reads with
    | .read lba _, (s, _) :: _ => (lba, s) :: w.reads
    | _, _ => w.reads⟩

/-- A sector that one of the images holds at an LBA. -/
def HeldBy (seen : List Disk) (lba : UInt32) (s : Sector) : Prop :=
  ∃ d ∈ seen, SameBytes s (d.sector (ataSector lba))

/-- The drive in use: it is the selected one, every sector read from here on, by
    whatever accesses, is a sector of that drive, and while the LBAs fit 28 bits it
    is the sector as last written. -/
structure InUse (st : Storage) (drive : Bool) : Prop where
  selected : st.selected = drive
  reads_own : ∀ ops : List Op,
    ∀ r ∈ (ops.foldl (watch drive) ⟨st, [st.drive drive], []⟩).reads,
      HeldBy (ops.foldl (watch drive) ⟨st, [st.drive drive], []⟩).seen r.1 r.2
  reads_current : ∀ ops t,
    Steps step InRange ⟨st, fun lba => (st.drive drive).sector (ataSector lba), []⟩ ops t →
      Transparent t

/-- The invariant behind `reads_own`. -/
structure Own (drive : Bool) (w : Watched) : Prop where
  selected : w.st.selected = drive
  here : w.st.drive drive ∈ w.seen
  entries : ∀ i, i < cacheSize → (w.st.cache i).valid →
    HeldBy w.seen (w.st.cache i).lba (w.st.cache i).data
  reads : ∀ r ∈ w.reads, HeldBy w.seen r.1 r.2

theorem HeldBy.cons {seen : List Disk} {lba : UInt32} (h : HeldBy seen lba s) (d : Disk) :
    HeldBy (d :: seen) lba s := by
  obtain ⟨d', hmem, hs⟩ := h
  exact ⟨d', List.mem_cons_of_mem _ hmem, hs⟩

/-- A read leaves the drives alone, and every entry it leaves behind was there
    before or holds the drive's bytes. -/
theorem read_entries (st : Storage) (lba : UInt32) (ok : Bool) (i : Nat)
    (hi : ((blockCacheReadSector st lba ok).2.cache i).valid) : ((st.cache i).valid ∧
      ((blockCacheReadSector st lba ok).2.cache i).lba = (st.cache i).lba ∧
      ((blockCacheReadSector st lba ok).2.cache i).data = (st.cache i).data) ∨
    (((blockCacheReadSector st lba ok).2.cache i).lba = lba ∧
      ((blockCacheReadSector st lba ok).2.cache i).data = st.contents lba) := by
  rcases read_cases st lba ok with ⟨idx, h⟩ | ⟨_, h⟩ | h <;> rw [h] at hi ⊢
  · obtain ⟨hv, hrest⟩ := cache_touch st idx i
    exact .inl ⟨hv ▸ hi, hrest⟩
  · by_cases he : i = chooseVictim st
    · rw [he, cache_fill_same]
      exact .inr ⟨rfl, rfl⟩
    · rw [cache_fill_other st _ _ he] at hi ⊢
      exact .inl ⟨hi, rfl, rfl⟩
  · exact .inl ⟨hi, rfl, rfl⟩

theorem read_drive (st : Storage) (lba : UInt32) (ok : Bool) :
    (blockCacheReadSector st lba ok).2.drive = st.drive ∧
    (blockCacheReadSector st lba ok).2.selected = st.selected := by
  rcases read_cases st lba ok with ⟨idx, h⟩ | ⟨_, h⟩ | h <;> rw [h] <;> exact ⟨rfl, rfl⟩

/-- What a read returns came from an entry or from the selected drive. -/
theorem read_held {st st' : Storage} {seen : List Disk} {lba : UInt32} {ok : Bool}
    (hent : ∀ i, i < cacheSize → (st.cache i).valid →
      HeldBy seen (st.cache i).lba (st.cache i).data) (hdrive : st.drive st.selected ∈ seen)
    (hr : blockCacheReadSector st lba ok = (some s, st')) : HeldBy seen lba s := by
  rw [blockCacheReadSector] at hr
  cases hf : BlockCache.findEntry st lba with
  | some idx =>
    obtain ⟨hlt, hvalid, hlba⟩ := findEntry_some hf
    rw [hf] at hr
    cases congrArg Prod.fst hr
    rw [← hlba]
    exact hent idx hlt hvalid
  | none =>
    rw [hf] at hr
    cases ok with
    | true =>
      cases congrArg Prod.fst hr
      exact ⟨_, hdrive, fun _ _ => rfl⟩
    | false => cases congrArg Prod.fst hr

theorem Own.read (h : Own drive w) (lba : UInt32) (ok : Bool) :
    Own drive (watch drive w (.read lba ok)) := by
  obtain ⟨hdr, hsel⟩ := read_drive w.st lba ok
  have hdrive : w.st.drive w.st.selected ∈ w.seen := by
    rw [h.selected]
    exact h.here
  have hent : ∀ i, i < cacheSize → ((blockCacheReadSector w.st lba ok).2.cache i).valid →
      HeldBy w.seen ((blockCacheReadSector w.st lba ok).2.cache i).lba
        ((blockCacheReadSector w.st lba ok).2.cache i).data := by
    intro i hi hv
    rcases read_entries w.st lba ok i hv with ⟨hv', hlba, hdata⟩ | ⟨hlba, hdata⟩
    · rw [hlba, hdata]
      exact h.entries i hi hv'
    · rw [hlba, hdata]
      exact ⟨_, hdrive, fun _ _ => rfl⟩
  rcases hr : blockCacheReadSector w.st lba ok with ⟨_ | s, st'⟩ <;>
    rw [hr] at hdr hsel hent <;> simp only [watch, access, hr]
  · exact ⟨hsel.trans h.selected, List.mem_cons_self ..,
      fun i hi hv => (hent i hi hv).cons _, fun r hmem => (h.reads r hmem).cons _⟩
  · refine ⟨hsel.trans h.selected, List.mem_cons_self ..,
      fun i hi hv => (hent i hi hv).cons _, fun r hmem => ?_⟩
    rcases List.mem_cons.mp hmem with rfl | hmem
    · exact (read_held h.entries hdrive hr).cons _
    · exact (h.reads r hmem).cons _

theorem Own.write (h : Own drive w) (lba : UInt32) (buf : Sector) (ok : Bool) :
    Own drive (watch drive w (.write lba buf ok)) := by
  cases ok with
  | false =>
    exact ⟨h.selected, List.mem_cons_self .., fun i hi hv => (h.entries i hi hv).cons _,
      fun r hmem => (h.reads r hmem).cons _⟩
  | true =>
    refine ⟨h.selected, List.mem_cons_self .., fun i hi hv => ?_,
      fun r hmem => (h.reads r hmem).cons _⟩
    -- the entry written is what the drive now holds, the others are as before
    have hst : (watch drive w (.write lba buf true)).st = (w.st.ataStore lba buf).fill
        ((BlockCache.findEntry w.st lba).getD (chooseVictim w.st)) lba buf := rfl
    rw [hst] at hv ⊢
    by_cases he : i = (BlockCache.findEntry w.st lba).getD (chooseVictim w.st)
    · rw [he, cache_fill_same]
      refine ⟨_, List.mem_cons_self .., fun b hb => ?_⟩
      have hsame : (w.st.ataStore lba buf).contents lba b = buf b :=
        contents_ataStore_same w.st buf rfl b hb
      rw [← h.selected]
      exact hsame.symm
    · rw [cache_fill_other _ _ _ he] at hv ⊢
      exact (h.entries i hi hv).cons _

theorem Own.watch (h : Own drive w) (op : Op) : Own drive (watch drive w op) := by
  cases op with
  | read lba ok => exact h.read lba ok
  | write lba buf ok => exact h.write lba buf ok
  | invalidate =>
    exact ⟨h.selected, List.mem_cons_self .., (fun _ _ hv => nomatch hv),
      fun r hmem => (h.reads r hmem).cons _⟩

theorem Own.run (ops : List Op) :
    ∀ {w : Watched}, Own drive w → Own drive (ops.foldl (FatInit.watch drive) w) := by
  induction ops with
  | nil => exact fun h => h
  | cons op ops ih => exact fun h => ih (h.watch op)

/-- A coherent cache over the selected drive makes that drive the one in use. -/
theorem inUse_of_coherent {st : Storage} (hsel : st.selected = drive) (hc : Coherent st)
    (hd : Distinct st) (ha : Addressable st) : InUse st drive := by
  subst hsel
  refine ⟨rfl, fun ops => (Own.run ops ?_).reads, fun ops t hrun => ?_⟩
  · exact ⟨rfl, List.mem_cons_self .., fun i hi hv => ⟨_, List.mem_cons_self .., hc i hi hv⟩,
      fun r hmem => nomatch hmem⟩
  · have hinv : Inv ⟨st, st.contents, []⟩ :=
      ⟨⟨hc, hd, fun r hmem => nomatch hmem⟩, ha, fun _ _ _ _ => rfl⟩
    exact (hrun.invariant (fun _ _ _ h hop hs => h.step hop hs) hinv).toTransparent

/-! ## Which drive is mounted -/

/-- The first mount finds the cache empty: it decides on the master's own boot
    sector, and leaves that in entry 0. -/
theorem mountDrive_empty (cwd : Nat → UInt8) (st : Storage) :
    mountDrive (fun _ => true) cwd (blockCacheInvalidate st) false =
      (mountSector 0 ((st.drive false).sector 0) cwd,
        ((blockCacheInvalidate st).ataSelectDrive false).fill 0 0 ((st.drive false).sector 0)) :=
  rfl

/-- The second mount finds LBA 0 in the cache: it decides on the MASTER's boot
    sector again, whatever the slave holds. -/
theorem mountDrive_cached (cwd : Nat → UInt8) (st : Storage) : (mountDrive (fun _ => true) cwd
      (((blockCacheInvalidate st).ataSelectDrive false).fill 0 0 ((st.drive false).sector 0))
      true).1 = mountSector 1 ((st.drive false).sector 0) cwd :=
  rfl

/-- `fat_init` comes out of the master's boot sector alone. -/
theorem fsInit_cases (cwd : Nat → UInt8) (st : Storage) : (passes ((st.drive false).sector 0) ∧
      fsInit true (fun _ => true) cwd st =
        (some ((readBpb ((st.drive false).sector 0)).toVol 0 cwd),
          ((blockCacheInvalidate st).ataSelectDrive false).fill 0 0
            ((st.drive false).sector 0))) ∨
    (passes ((st.drive false).sector 0) = false ∧
      (fsInit true (fun _ => true) cwd st).1 = none) := by
  rw [fsInit, fatInit, if_pos rfl, mountDrive_empty, mountSector_eq]
  cases hp : passes ((st.drive false).sector 0) with
  | true => exact .inl ⟨rfl, rfl⟩
  | false =>
    have h2 := mountDrive_cached cwd st
    rw [mountSector_eq, hp] at h2
    refine .inr ⟨rfl, ?_⟩
    rcases hm : mountDrive (fun _ => true) cwd (((blockCacheInvalidate st).ataSelectDrive
      false).fill 0 0 ((st.drive false).sector 0)) true with ⟨v, st₂⟩
    rw [hm] at h2
    obtain rfl : v = none := h2
    simp only [Bool.false_eq_true, if_false, hm]

/-- The volume in use is the one the drives call for. -/
structure MountsRight (cwd : Nat → UInt8) (st : Storage) (r : Option Vol × Storage) : Prop where
  master : passes ((st.drive false).sector 0) →
    r.1 = some ((readBpb ((st.drive false).sector 0)).toVol 0 cwd) ∧ InUse r.2 false
  slave : passes ((st.drive false).sector 0) = false → passes ((st.drive true).sector 0) →
    r.1 = some ((readBpb ((st.drive true).sector 0)).toVol 1 cwd) ∧ InUse r.2 true
  neither : passes ((st.drive false).sector 0) = false →
    passes ((st.drive true).sector 0) = false → r.1 = none

/-- One entry that holds the drive's boot sector, in an otherwise empty cache. -/
theorem inUse_master (st : Storage) :
    InUse (((blockCacheInvalidate st).ataSelectDrive false).fill 0 0
      ((st.drive false).sector 0)) false := by
  refine inUse_of_coherent rfl (coherent_fill (fun _ _ _ hv => nomatch hv) fun _ _ => rfl)
    (distinct_fill ?_ _ fun _ _ _ hv => nomatch hv) (addressable_fill ?_ _ (by decide))
  · exact fun _ _ _ _ hv => nomatch hv
  · exact fun _ _ hv => nomatch hv

/-- **The fallback works exactly when it is not needed.** -/
theorem fsInit_mountsRight_iff (cwd : Nat → UInt8) (st : Storage) :
    MountsRight cwd st (fsInit true (fun _ => true) cwd st) ↔
      passes ((st.drive false).sector 0) ∨ passes ((st.drive true).sector 0) = false := by
  rcases fsInit_cases cwd st with ⟨hp, hr⟩ | ⟨hp, hr⟩
  · refine ⟨fun _ => .inl hp, fun _ => ⟨fun _ => ?_, fun h => ?_, fun h => ?_⟩⟩
    · rw [hr]
      exact ⟨rfl, inUse_master st⟩
    · cases hp.symm.trans h
    · cases hp.symm.trans h
  · constructor
    · intro h
      right
      cases hs : passes ((st.drive true).sector 0) with
      | false => rfl
      | true =>
        obtain ⟨hv, _⟩ := h.slave hp hs
        cases hr.symm.trans hv
    · intro h
      refine ⟨fun hm => ?_, fun _ hs => ?_, fun _ _ => hr⟩
      · cases hp.symm.trans hm
      · rcases h with hm | hs'
        · cases hp.symm.trans hm
        · cases hs'.symm.trans hs

/-- A FAT12 boot sector: 100 sectors, one FAT of one sector, 16 root entries. -/
def tinyBoot : Disk := fun i =>
  if i = 12 then 2 else if i = 13 then 1 else if i = 14 then 1 else if i = 16 then 1
  else if i = 17 then 16 else if i = 19 then 100 else if i = 22 then 1
  else if i = 510 then 0x55 else if i = 511 then 0xAA else 0

/-- A blank master and a formatted slave. -/
def slaveOnly : Storage :=
  ⟨fun s => if s then tinyBoot else fun _ => 0, false, fun _ => ⟨false, 0, 0, fun _ => 0⟩, 0⟩

/-- The slave's volume is there and is not found. -/
theorem fatInit_misses_slave : passes ((slaveOnly.drive true).sector 0) ∧
    (fsInit true (fun _ => true) (fun _ => 0) slaveOnly).1 = none ∧
    ¬ MountsRight (fun _ => 0) slaveOnly (fsInit true (fun _ => true) (fun _ => 0) slaveOnly) := by
  have hp : passes ((slaveOnly.drive true).sector 0) := by decide
  have hn : (fsInit true (fun _ => true) (fun _ => 0) slaveOnly).1 = none := by decide
  refine ⟨hp, hn, fun h => ?_⟩
  obtain ⟨hv, _⟩ := h.slave (by decide) hp
  cases hn.symm.trans hv

end FatInit
