import AoOs.InstallerFormat
import AoOs.FatInit
import AoOs.FatRead

/-! # What the installer formats, the driver mounts

    Two modules that share no code agree on the BPB: `write_boot_sector` encodes
    the layout that `mount_drive` decodes, at every switch between the 16- and
    32-bit fields and at every threshold between the FAT types, and the two texts
    that `installer_create_welcome_files` writes come back through `fat_read`.

    The one exception is a FAT of no sectors.  The wrapped byte count of
    `fat_bytes_for` brings one about for FAT32 capacities 385 to 510 sectors above
    a multiple of `2 ^ 30`, and `mount_drive` refuses it. -/

namespace Installer

open BlockIO BlockM FatTypes FatDriver FatRead FatInit BlockCache

variable {n : Nat} {d d' : Disk} {v : Vol}

/-- The driver's name for a type. -/
def driverType : InstallerFs → FatType
  | .fat12 => .fat12
  | .fat16 => .fat16
  | .fat32 => .fat32

def welcomeName : CString := ⟨ascii "WELCOME.TXT", by decide⟩

def readmeName : CString := ⟨ascii "README.TXT", by decide⟩

/-- `fat_read` returns exactly `text`, into any buffer it fits. -/
def Reads (v : Vol) (d : Disk) (name : CString) (text : List UInt8) : Prop :=
  ∀ maxSize, text.length ≤ maxSize → ∃ r, exec (fatRead v name maxSize) d = (r, d) ∧
    r.ret ∧ r.size = some text.length ∧ r.buffer = text

/-- The disk mounts as the volume that the layout describes, and both welcome
    files can be read in its root directory. -/
def MountsBack (fs : InstallerFs) (l : Layout) (d : Disk) : Prop :=
  ∀ (st : Storage) (cwd : Nat → UInt8), st.drive false = d →
    ∃ v st', mountDrive (fun _ => true) cwd (blockCacheInvalidate st) false = (some v, st') ∧
      v.type = driverType fs ∧ v.reservedSectors = l.reservedSectors ∧
      v.fatSize = l.fatSectors ∧ v.rootSectors = l.rootSectors ∧
      v.firstData = l.firstDataSector ∧ v.clusterCount = l.clusters ∧
      Reads v d welcomeName welcomeText ∧ Reads v d readmeName readmeText

/-- The capacities for which FAT32 gets a FAT of no sectors. -/
def EmptyFat (fs : InstallerFs) (volume : Nat) : Prop :=
  fs = .fat32 ∧ 2 ^ 30 ≤ volume ∧ 385 ≤ volume % 2 ^ 30 ∧ volume % 2 ^ 30 ≤ 510

/-! ## The size of the FAT -/

section Fat

variable {fs : InstallerFs} {volume : Nat} {l : Layout}

variable (hV : volume < 2 ^ 32)

include hV

/-- The loop ends on no sectors exactly where the visible part of a FAT32 volume
    is less than one sector of entries. -/
theorem iterate_settling_eq_zero_iff (hlarge : 612 < volume) :
    (settling fs volume)^[16] 1 = 0 ↔ fs = .fat32 ∧ visible volume < 128 := by
  have hlast : (settling fs volume)^[16] 1 =
      settling fs volume ((settling fs volume)^[15] 1) := Function.iterate_succ_apply' _ 15 1
  have hprev : (settling fs volume)^[15] 1 ≤ settling fs volume 0 := by
    rw [show (15 : Nat) = 14 + 1 from rfl, Function.iterate_succ_apply']
    exact (settling_slow fs volume).antitone (Nat.zero_le _)
  cases fs with
  | fat12 | fat16 =>
    rw [hlast]
    simp only [settling, reduceCtorEq, false_and, iff_false]
    omega
  | fat32 =>
    have hone : Inside .fat32 volume 1 := inside_one hV hlarge
    have hvis := hone.2 rfl
    by_cases hsmall : visible volume < 128
    · refine ⟨fun _ => ⟨rfl, hsmall⟩, fun _ => ?_⟩
      rw [hlast]
      simp only [settling]
      omega
    · refine ⟨fun h => ?_, fun h => absurd h.2 hsmall⟩
      by_cases hmid : visible volume < 130
      · -- one sector asks for none and none asks for one
        have htwo : (settling .fat32 volume)^[2] 1 = 1 := by
          simp only [Function.iterate_succ, Function.iterate_zero, Function.comp_apply, id_eq,
            settling]
          omega
        rw [show (16 : Nat) = 2 * 8 from rfl, Function.iterate_mul,
          Function.iterate_fixed htwo] at h
        cases h
      · rw [hlast] at h
        simp only [settling] at h hprev
        omega

theorem visible_lt_iff (hlarge : 612 < volume) :
    visible volume < 128 ↔ 2 ^ 30 ≤ volume ∧ 385 ≤ volume % 2 ^ 30 ∧ volume % 2 ^ 30 ≤ 510 := by
  rw [visible]
  split <;> omega

omit hV in
theorem Computed.volume_gt (hc : Computed fs volume l) : 612 < volume := by
  have h := hc.large
  have : bootReservedSectors = 512 := rfl
  omega

/-- The FAT is empty for the capacities named. -/
theorem Computed.fat_eq_zero_iff (hc : Computed fs volume l) :
    l.fatSectors = 0 ↔ EmptyFat fs volume := by
  have hlarge := hc.volume_gt
  rw [hc.fat_eq, iterate_settling_eq_zero_iff hV hlarge, visible_lt_iff hV hlarge, EmptyFat]

end Fat

/-! ## The boot sector -/

/-- A number through a 16-bit field and back. -/
def word16 (n : Nat) : Nat := le16 (byteOf n 0) (byteOf n 1)

/-- A number through a 32-bit field and back. -/
def word32 (n : Nat) : Nat := le32 (byteOf n 0) (byteOf n 1) (byteOf n 2) (byteOf n 3)

theorem word16_of_lt (h : n < 65536) : word16 n = n := by
  simp only [word16, le16, byteOf, UInt8.toNat_ofNat']
  omega

theorem word32_of_lt (h : n < 2 ^ 32) : word32 n = n := by
  simp only [word32, le32, byteOf, UInt8.toNat_ofNat']
  omega

theorem byteOf_toNat (h : n < 256) : (byteOf n 0).toNat = n := by
  simp only [byteOf, UInt8.toNat_ofNat']
  omega

/-- The fields that `mount_drive` reads back, through their bytes. -/
theorem readBpb_bootImage (fs : InstallerFs) (l : Layout) (s : Sector) :
    let b := readBpb (bootImage fs l s)
    b.bytesPerSector = word16 512 ∧ b.sectorsPerCluster = (byteOf l.sectorsPerCluster 0).toNat ∧
    b.reservedSectors = word16 l.reservedSectors ∧ b.fatCount = 2 ∧
    b.rootEntries = word16 l.rootEntries ∧
    b.total16 = word16 (if l.volumeSectors < 65536 then l.volumeSectors else 0) ∧
    b.fat16Size = word16 (if fs = .fat32 then 0 else l.fatSectors) ∧
    b.total32 = word32 (if 65536 ≤ l.volumeSectors then l.volumeSectors else 0) := by
  cases fs <;> exact ⟨rfl, rfl, rfl, rfl, rfl, rfl, rfl, rfl⟩

/-- The 32-bit fields that only FAT32 has. -/
theorem readBpb_fat32 (l : Layout) (s : Sector) :
    (readBpb (bootImage .fat32 l s)).fat32Size = word32 l.fatSectors ∧
    (readBpb (bootImage .fat32 l s)).rootCluster32 = word32 l.rootCluster % 2 ^ 28 :=
  ⟨rfl, rfl⟩

section Bpb

variable {fs : InstallerFs} {volume : Nat} {l : Layout}

/-- The types with a 16-bit field have FATs that fit it. -/
theorem Computed.fat_lt (hc : Computed fs volume l) (hfs : fs ≠ .fat32) : l.fatSectors < 65536 := by
  have hrange := hc.range
  have hle := hc.fat_le
  have hlt := hc.first_lt
  rw [hc.clusters_eq] at hrange
  rw [hc.first_eq] at hlt
  have hres : bootReservedSectors = 512 := rfl
  cases fs with
  | fat12 =>
    have hroot : rootSectors .fat12 = 14 := rfl
    simp only [hroot, hres, wrongRange, sectorsPerCluster, decide_eq_false_iff_not] at hrange hlt
    simp only [settling] at hle
    omega
  | fat16 =>
    have hroot : rootSectors .fat16 = 32 := rfl
    simp only [hroot, hres, wrongRange, sectorsPerCluster, Bool.or_eq_false_iff,
      decide_eq_false_iff_not] at hrange hlt
    simp only [settling] at hle
    omega
  | fat32 => exact absurd rfl hfs

/-- What `mount_drive` computes from the boot sector is the layout. -/
structure Decodes (fs : InstallerFs) (l : Layout) (b : Bpb) : Prop where
  bytesPerSector : b.bytesPerSector = 512
  sectorsPerCluster : b.sectorsPerCluster = l.sectorsPerCluster
  reservedSectors : b.reservedSectors = l.reservedSectors
  fatCount : b.fatCount = 2
  rootEntries : b.rootEntries = l.rootEntries
  totalSectors : b.totalSectors = l.volumeSectors
  fatSize : b.fatSize = l.fatSectors
  rootSectors : b.rootSectors = l.rootSectors
  firstData : b.firstData = l.firstDataSector
  clusterCount : b.clusterCount = l.clusters
  type : b.type = driverType fs
  rootCluster : b.rootCluster = l.rootCluster

theorem Computed.decodes (hV : volume < 2 ^ 32) (hc : Computed fs volume l) (s : Sector) :
    Decodes fs l (readBpb (bootImage fs l s)) := by
  obtain ⟨hbps, hspc, hres, hcount, hent, h16, hf16, h32⟩ := readBpb_bootImage fs l s
  obtain ⟨ares, aroot, aper, afat, afirst⟩ := hc.areas
  have hlarge := hc.volume_gt
  rw [word16_of_lt (by decide)] at hbps
  rw [byteOf_toNat (by omega)] at hspc
  rw [word16_of_lt (by omega)] at hres
  have hentries : l.rootEntries < 65536 := by
    rw [hc.entries_eq]
    cases fs <;> decide
  rw [word16_of_lt hentries] at hent
  have htotal : (readBpb (bootImage fs l s)).totalSectors = l.volumeSectors := by
    rw [Bpb.totalSectors, h16, h32, hc.volume_eq]
    by_cases hsmall : volume < 65536
    · rw [if_pos hsmall, word16_of_lt hsmall, if_pos (by omega)]
    · rw [if_neg hsmall, if_pos (show 65536 ≤ volume by omega), word32_of_lt hV,
        word16_of_lt (by decide), if_neg (by decide)]
  have hfat : (readBpb (bootImage fs l s)).fatSize = l.fatSectors := by
    by_cases hfs : fs = .fat32
    · subst hfs
      rw [if_pos rfl, word16_of_lt (by decide)] at hf16
      rw [Bpb.fatSize, hf16, if_neg (by decide), (readBpb_fat32 l s).1, word32_of_lt (by omega)]
    · have hnz : l.fatSectors ≠ 0 := fun h =>
        hfs ((hc.fat_eq_zero_iff hV).mp h).1
      rw [if_neg hfs, word16_of_lt (hc.fat_lt hfs)] at hf16
      rw [Bpb.fatSize, hf16, if_pos hnz]
  have hroot : (readBpb (bootImage fs l s)).rootSectors = l.rootSectors := by
    rw [Bpb.rootSectors, hent, hc.entries_eq, hc.root_eq]
    rfl
  have hfirst : (readBpb (bootImage fs l s)).firstData = l.firstDataSector := by
    rw [Bpb.firstData, hres, hcount, hfat, hroot, afirst, u32_of_lt (by omega)]
  have hclusters : (readBpb (bootImage fs l s)).clusterCount = l.clusters := by
    rw [Bpb.clusterCount, htotal, hfirst, hspc, Layout.clusters]
  have htype : (readBpb (bootImage fs l s)).type = driverType fs := by
    have hrange := hc.range
    rw [Bpb.type, hclusters]
    cases fs with
    | fat12 =>
      have h := of_decide_eq_false hrange
      rw [if_pos (by omega)]
      rfl
    | fat16 =>
      obtain ⟨h1, h2⟩ := Bool.or_eq_false_iff.mp hrange
      have h1 := of_decide_eq_false h1
      have h2 := of_decide_eq_false h2
      rw [if_neg h1, if_pos (by omega)]
      rfl
    | fat32 =>
      have h := of_decide_eq_false hrange
      rw [if_neg (by omega), if_neg h]
      rfl
  have hrc : (readBpb (bootImage fs l s)).rootCluster = l.rootCluster := by
    rw [Bpb.rootCluster, htype, hc.rootCluster_eq]
    cases fs with
    | fat12 | fat16 => rfl
    | fat32 =>
      rw [if_pos rfl, (readBpb_fat32 l s).2, hc.rootCluster_eq]
      rfl
  exact ⟨hbps, hspc, hres, hcount, hent, htotal, hfat, hroot, hfirst, hclusters, htype, hrc⟩

/-- The geometry is accepted unless the FAT is empty. -/
theorem Computed.accepted_eq (hc : Computed fs volume l) {b : Bpb} (hb : Decodes fs l b) :
    b.accepted = decide (l.fatSectors ≠ 0) := by
  obtain ⟨ares, _, _, _, _⟩ := hc.areas
  have hper : (l.sectorsPerCluster != 0) := by
    rw [hc.perCluster_eq]
    cases fs <;> decide
  have hfirst : l.firstDataSector < l.volumeSectors := by
    rw [hc.volume_eq]
    exact hc.first_lt
  have hroot : (driverType fs == .fat32 && decide (l.rootCluster < 2)) = false := by
    rw [hc.rootCluster_eq]
    cases fs <;> rfl
  rw [Bpb.accepted, hb.bytesPerSector, hb.sectorsPerCluster, hb.fatCount, hb.reservedSectors,
    hb.fatSize, hb.firstData, hb.totalSectors, hb.type, hb.rootCluster, hroot, ares, hper,
    decide_eq_true hfirst]
  by_cases h0 : l.fatSectors = 0 <;> simp [h0]

end Bpb

/-! ## The disk after the installation -/

@[simp] theorem exec_ataRead {lba : Nat} (h : lba < 2 ^ 28) (d : Disk) :
    exec (ataReadSector lba) d = (some (d.sector lba), d) :=
  run_ataRead _ h d

@[simp] theorem exec_ataWrite {lba : Nat} (h : lba < 2 ^ 28) (s : Sector) (d : Disk) :
    exec (ataWriteSector lba s) d = (true, d.store lba s) :=
  run_ataWrite _ h s d

theorem exec_ataWrite_ok (lba : Nat) (s : Sector) (d : Disk) :
    (exec (ataWriteSector lba s) d).1 := rfl

theorem exec_writeFrom_ok (image : Nat → Sector) (base : Nat) (n s d) :
    (exec (writeFrom image base n s) d).1 := by
  induction n generalizing s d with
  | zero => rfl
  | succ n ih =>
    rw [writeFrom, exec_bind, exec_ataWrite_ok, if_pos rfl]
    exact ih _ _

variable (fs : InstallerFs)

theorem exec_writeFileSystem_ok (l : Layout) (d : Disk) :
    (exec (writeFileSystem fs l) d).1 = .ok := by
  have hfats : ∀ d, (exec (initializeFats fs l) d).1 := by
    intro d
    rw [initializeFats, exec_bind, initializeFatFrom, exec_writeFrom_ok, if_pos rfl]
    exact exec_writeFrom_ok _ _ _ _ _
  rw [writeFileSystem, exec_bind, hfats, if_pos rfl, exec_bind, writeZeroFrom, exec_writeFrom_ok,
    if_pos rfl]
  by_cases hfs : fs = .fat32
  · rw [if_pos hfs, exec_bind, exec_writeFrom_ok, if_pos rfl]
    rfl
  · rw [if_neg hfs]
    rfl

theorem exec_writeBootSector_ok (l : Layout) (d : Disk) :
    (exec (writeBootSector fs l) d).1 = .ok := by
  rw [writeBootSector, exec_bind, exec_ataRead (by decide)]
  simp only [exec_bind, exec_ataWrite_ok, if_true]
  by_cases hfs : fs = .fat32
  · rw [if_pos hfs]
    rfl
  · rw [if_neg hfs]
    rfl

/-- `linkWelcome` stores one sector. -/
theorem exec_linkWelcome (base : Nat) (h : base < 2 ^ 28) (d : Disk) :
    ∃ s, exec (linkWelcome fs base) d = (.ok, d.store base s) := by
  rw [linkWelcome, exec_bind, exec_ataRead h]
  simp only [exec_bind, exec_ataWrite h, if_true]
  exact ⟨_, rfl⟩

section Files

variable {fs : InstallerFs} {volume : Nat} {l : Layout}

/-- The sector of a welcome file: cluster `welcomeCluster + k`. -/
def fileSector (fs : InstallerFs) (l : Layout) (k : Nat) : Nat :=
  l.firstDataSector + (welcomeCluster fs - 2 + k) * l.sectorsPerCluster

theorem welcomeCluster_bounds (fs : InstallerFs) :
    2 ≤ welcomeCluster fs ∧ welcomeCluster fs ≤ 3 := by
  cases fs <;> decide

/-- The files are at the start of the data area. -/
theorem Computed.fileSector_le (hc : Computed fs volume l) {k : Nat} (hk : k ≤ 1) :
    fileSector fs l k ≤ l.firstDataSector + 64 := by
  have hcl := welcomeCluster_bounds fs
  have hmul : (welcomeCluster fs - 2 + k) * l.sectorsPerCluster ≤ 2 * 32 :=
    Nat.mul_le_mul (by omega) hc.areas.2.2.1
  exact Nat.add_le_add_left hmul _

/-- The disk with the root directory and the two texts. -/
def withFiles (fs : InstallerFs) (l : Layout) (d : Disk) : Disk :=
  ((d.store (rootSector fs l) (rootImage fs (d.sector (rootSector fs l)))).store
    (fileSector fs l 0) (putBytes zeroSector 0 welcomeText)).store
    (fileSector fs l 1) (putBytes zeroSector 0 readmeText)

/-- The five sectors that `installer_create_welcome_files` writes, in its order. -/
theorem Computed.exec_welcome (hc : Computed fs volume l) (d : Disk) :
    ∃ s₁ s₂, exec (installerCreateWelcomeFiles fs l) d = (.ok,
      ((withFiles fs l d).store l.reservedSectors s₁).store (l.reservedSectors + l.fatSectors)
        s₂) := by
  obtain ⟨hres, hroot, hper, hfat, hfirst⟩ := hc.areas
  obtain ⟨_, hhigh⟩ := hc.rootSector_bounds
  have hcl := welcomeCluster_bounds fs
  have hfile : ∀ k, k ≤ 1 → fileSector fs l k < 2 ^ 28 := by
    intro k hk
    have := hc.fileSector_le hk
    omega
  have h0 : u32 (l.firstDataSector + (welcomeCluster fs - 2) * l.sectorsPerCluster) =
      fileSector fs l 0 := u32_of_lt (Nat.lt_trans (hfile 0 (by decide)) (by decide))
  have h1 : u32 (l.firstDataSector + (welcomeCluster fs - 1) * l.sectorsPerCluster) =
      fileSector fs l 1 := by
    have := hfile 1 (by decide)
    rw [fileSector, show welcomeCluster fs - 2 + 1 = welcomeCluster fs - 1 by omega] at *
    exact u32_of_lt (by omega)
  have h2 : u32 (l.reservedSectors + l.fatSectors) = l.reservedSectors + l.fatSectors :=
    u32_of_lt (by omega)
  rw [installerCreateWelcomeFiles, h0, h1, h2, exec_bind, exec_ataRead hhigh]
  simp only [exec_bind, exec_ataWrite hhigh, exec_ataWrite (hfile 0 (by decide)),
    exec_ataWrite (hfile 1 (by decide)), if_true]
  obtain ⟨s₁, hs₁⟩ := exec_linkWelcome fs l.reservedSectors (by omega) (withFiles fs l d)
  obtain ⟨s₂, hs₂⟩ := exec_linkWelcome fs (l.reservedSectors + l.fatSectors) (by omega)
    ((withFiles fs l d).store l.reservedSectors s₁)
  rw [withFiles] at hs₁
  exact ⟨s₁, s₂, by rw [hs₁]; exact hs₂⟩

/-- Where an installation leaves what the driver will look at. -/
structure Installed (fs : InstallerFs) (l : Layout) (d d' : Disk) : Prop where
  boot : SameBytes (d'.sector 0) (bootImage fs l (d.sector 0))
  root : l.fatSectors ≠ 0 →
    ∃ s, SameBytes (d'.sector (rootSector fs l)) (rootImage fs s)
  welcome : l.fatSectors ≠ 0 →
    SameBytes (d'.sector (fileSector fs l 0)) (putBytes zeroSector 0 welcomeText)
  readme : l.fatSectors ≠ 0 →
    SameBytes (d'.sector (fileSector fs l 1)) (putBytes zeroSector 0 readmeText)

/-- A sector stays what it is across a store to another. -/
theorem sameBytes_store {j k : Nat} {s t : Sector} (hne : j ≠ k) (h : SameBytes (d.sector j) t) :
    SameBytes ((d.store k s).sector j) t :=
  fun b hb => (sector_store_other d s hne b hb).trans (h b hb)

/-- The boot sector survives the rest of `write_boot_sector`. -/
theorem sector_zero_writeBootSector (fs : InstallerFs) (l : Layout) (d : Disk) :
    SameBytes ((exec (writeBootSector fs l) d).2.sector 0) (bootImage fs l (d.sector 0)) := by
  rw [exec, run_writeBootSector]
  simp only [if_true]
  by_cases hfs : fs = .fat32
  · rw [if_pos hfs, run_writeFsinfo rfl]
    simp only [if_true]
    apply sameBytes_store (by decide)
    apply sameBytes_store (by decide)
    apply sameBytes_store (by decide)
    exact sector_store_same _ _ _
  · rw [if_neg hfs]
    exact sector_store_same _ _ _

/-- The sectors of the welcome files and of the root directory are apart from each
    other and from the FATs. -/
theorem Computed.sectors_apart (hc : Computed fs volume l) (hfat : l.fatSectors ≠ 0) :
    l.reservedSectors + l.fatSectors < rootSector fs l ∧
    rootSector fs l < fileSector fs l 0 ∧ fileSector fs l 0 < fileSector fs l 1 := by
  obtain ⟨hres, _, _, hlt, hfirst⟩ := hc.areas
  have hper : 0 < l.sectorsPerCluster := by
    rw [hc.perCluster_eq]
    cases fs <;> decide
  have hu : u32 (l.reservedSectors + 2 * l.fatSectors) = l.reservedSectors + 2 * l.fatSectors :=
    u32_of_lt (by omega)
  have hsucc : fileSector fs l 1 = fileSector fs l 0 + l.sectorsPerCluster := by
    rw [fileSector, fileSector, Nat.succ_mul, Nat.add_assoc]
    rfl
  refine ⟨?_, ?_, by omega⟩
  · rw [rootSector, hu]
    split <;> omega
  · rw [rootSector, hu, fileSector]
    by_cases hfs : fs = .fat32
    · subst hfs
      rw [if_pos rfl, show welcomeCluster .fat32 - 2 + 0 = 1 from rfl]
      omega
    · have hroot : 0 < l.rootSectors := by
        rw [hc.root_eq]
        revert hfs
        cases fs <;> decide
      rw [if_neg hfs]
      omega

theorem Computed.installed (hc : Computed fs volume l) (hl : calculateLayout fs volume = some l)
    (d : Disk) : ∃ d', exec (install fs volume) d = (.ok, d') ∧ Installed fs l d d' := by
  have hfront : ∀ b, b < sectorSize → (exec (install fs volume) d).2.sector 0 b =
      (exec (writeBootSector fs l) d).2.sector 0 b := by
    intro b hb
    exact hc.run_install_front hl _ d (by unfold sectorSize at hb ⊢; omega)
  -- the format succeeds, and the welcome files go on top of what it left
  obtain ⟨d₁, hformat⟩ : ∃ d₁, exec (formatWith fs l) d = (.ok, d₁) := by
    have hboot := exec_writeBootSector_ok fs l d
    rcases hb : exec (writeBootSector fs l) d with ⟨status, d₀⟩
    rw [hb] at hboot
    obtain rfl : status = .ok := hboot
    have hfile := exec_writeFileSystem_ok fs l d₀
    rw [formatWith, exec_bind, hb]
    exact ⟨_, Prod.ext hfile rfl⟩
  obtain ⟨s₁, s₂, hwelcome⟩ := hc.exec_welcome d₁
  have hrun : exec (install fs volume) d = exec (installerCreateWelcomeFiles fs l) d₁ := by
    simp only [install, installerFormatFilesystemAs, hl, exec_bind, hformat, exec_pure]
  rw [hwelcome] at hrun
  refine ⟨_, hrun, ?_, fun hfat => ?_, fun hfat => ?_, fun hfat => ?_⟩
  · intro b hb
    rw [← sector_zero_writeBootSector fs l d b hb, ← hfront b hb, hrun]
  · obtain ⟨h1, h2, h3⟩ := hc.sectors_apart hfat
    refine ⟨d₁.sector (rootSector fs l), ?_⟩
    apply sameBytes_store (by omega)
    apply sameBytes_store (by omega)
    apply sameBytes_store (by omega)
    apply sameBytes_store (by omega)
    exact sector_store_same _ _ _
  · obtain ⟨h1, h2, h3⟩ := hc.sectors_apart hfat
    apply sameBytes_store (by omega)
    apply sameBytes_store (by omega)
    apply sameBytes_store (by omega)
    exact sector_store_same _ _ _
  · obtain ⟨h1, h2, h3⟩ := hc.sectors_apart hfat
    apply sameBytes_store (by omega)
    apply sameBytes_store (by omega)
    exact sector_store_same _ _ _

end Files

/-! ## Mounting it -/

section Mount

variable {fs : InstallerFs} {volume : Nat} {l : Layout}

/-- The volume of an installed disk. -/
structure IsVolume (fs : InstallerFs) (l : Layout) (v : Vol) : Prop where
  mounted : Mounted v
  type : v.type = driverType fs
  perCluster : v.sectorsPerCluster = l.sectorsPerCluster
  reserved : v.reservedSectors = l.reservedSectors
  fatCount : v.fatCount = 2
  rootEntries : v.rootEntries = l.rootEntries
  fatSize : v.fatSize = l.fatSectors
  rootSectors : v.rootSectors = l.rootSectors
  firstData : v.firstData = l.firstDataSector
  clusterCount : v.clusterCount = l.clusters
  current : v.currentCluster = l.rootCluster

section Boot

variable (hV : volume < 2 ^ 32) (hc : Computed fs volume l) (hi : Installed fs l d d')

include hV hc hi

theorem Computed.decodes_disk : Decodes fs l (readBpb (d'.sector 0)) := by
  rw [readBpb_congr hi.boot]
  exact hc.decodes hV _

/-- The driver's verdict on the installed boot sector. -/
theorem Computed.mountSector_eq (cwd : Nat → UInt8) : mountSector 0 (d'.sector 0) cwd =
    if l.fatSectors ≠ 0 then some ((readBpb (d'.sector 0)).toVol 0 cwd) else none := by
  have hsig : d'.sector 0 510 = 0x55 ∧ d'.sector 0 511 = 0xAA := by
    rw [hi.boot 510 (by decide), hi.boot 511 (by decide)]
    exact ⟨rfl, rfl⟩
  have hacc := hc.accepted_eq (hc.decodes_disk hV hi)
  rw [FatInit.mountSector_eq, passes, decide_eq_true hsig, hacc, Bool.true_and]
  by_cases h0 : l.fatSectors = 0
  · rw [if_neg (by simp [h0]), if_neg (by simp [h0])]
  · rw [if_pos (by simp [h0]), if_pos h0]

/-- Unless the FAT is empty, the driver has the volume of the layout. -/
theorem Computed.isVolume (hfat : l.fatSectors ≠ 0) (cwd : Nat → UInt8) :
    IsVolume fs l ((readBpb (d'.sector 0)).toVol 0 cwd) := by
  have hb := hc.decodes_disk hV hi
  have hm : mountSector 0 (d'.sector 0) cwd = some ((readBpb (d'.sector 0)).toVol 0 cwd) := by
    rw [hc.mountSector_eq hV hi, if_pos hfat]
  exact ⟨Mounted.of_mountSector hm, hb.type, hb.sectorsPerCluster, hb.reservedSectors, hb.fatCount,
    hb.rootEntries, hb.fatSize, hb.rootSectors, hb.firstData, hb.clusterCount, hb.rootCluster⟩

end Boot

/-- The entries of the root directory's first sector, through the driver. -/
theorem Computed.dirRead_root (hc : Computed fs volume l) (hv : IsVolume fs l v) (d : Disk)
    {i : Nat} (hi : i < 16) : exec (dirRead v v.currentCluster i) d =
      (some (entryAt (d.sector (rootSector fs l)) (i * 32)), d) := by
  obtain ⟨hres, hroot, hper, hfat, hfirst⟩ := hc.areas
  have hdiv : i / 16 = 0 := Nat.div_eq_of_lt hi
  have hmod : i % 16 = i := Nat.mod_eq_of_lt hi
  have hloc : exec (dirLocation v v.currentCluster i) d =
      (some (rootSector fs l, i * 32), d) := by
    rw [dirLocation, hv.current, hc.rootCluster_eq, hv.type]
    by_cases hfs : fs = .fat32
    · subst hfs
      have hpc : perCluster v = 16 := by
        rw [perCluster, hv.perCluster, hc.perCluster_eq]
        rfl
      have hsec : clusterSector v 2 = l.firstDataSector := by
        rw [clusterSector, hv.perCluster, hc.perCluster_eq, hv.firstData]
        simp only [sectorsPerCluster, u32]
        omega
      rw [if_neg (by decide), hpc, hdiv, exec_bind]
      show (some (u32 (clusterSector v 2 + i % 16 / 16), i % 16 % 16 * 32), d) = _
      rw [hmod, hdiv, hmod, hsec, Nat.add_zero, u32_of_lt (by omega)]
      rfl
    · have hent : 16 ≤ v.rootEntries := by
        rw [hv.rootEntries, hc.entries_eq]
        revert hfs
        cases fs <;> decide
      have htype : driverType fs ≠ .fat32 := by
        revert hfs
        cases fs <;> decide
      rw [if_neg hfs, if_pos ⟨rfl, htype⟩, if_neg (by omega), hdiv, hmod, hv.reserved, hv.fatCount,
        hv.fatSize, Nat.add_zero, rootSector, if_neg hfs]
      rfl
  rw [dirRead, exec_bind, hloc]
  rfl

/-- Two buffers with one 32-byte entry, at offset `off` of the first and at the
    start of the second. -/
def Shifted (off : Nat) (s t : Sector) : Prop := ∀ i, i < 32 → s (off + i) = t i

theorem shifted_zero (off : Nat) (s t : Sector) :
    Shifted off (putBytes s off (List.replicate 32 0)) (putBytes t 0 (List.replicate 32 0)) := by
  intro i hi
  rw [putBytes, putBytes, if_pos (by rw [List.length_replicate]; omega),
    if_pos (by rw [List.length_replicate]; omega), Nat.add_sub_cancel_left, Nat.sub_zero]

theorem Shifted.put {off : Nat} {s t : Sector} (h : Shifted off s t) (k : Nat)
    (bytes : List UInt8) :
    Shifted off (putBytes s (off + k) bytes) (putBytes t k bytes) := by
  intro i hi
  rw [putBytes, putBytes, h i hi, show off + i - (off + k) = i - k by omega]
  by_cases hin : k ≤ i ∧ i < k + bytes.length
  · rw [if_pos hin, if_pos (by omega)]
  · rw [if_neg hin, if_neg (by omega)]

/-- An entry is the same 32 bytes wherever it is made, and whatever was there. -/
theorem entryAt_makeEntry (fs : InstallerFs) (s : Sector) (off : Nat) (base ext : String)
    (cluster size : Nat) : entryAt (makeEntry fs s off base ext cluster size) off =
      entryAt (makeEntry fs zeroSector 0 base ext cluster size) 0 := by
  have hname : Shifted off _ _ := ((((shifted_zero off s zeroSector).put 0
    (List.replicate 11 32)).put 0 (ascii base)).put 8 (ascii ext)).put 11 [0x20]
  have hlow := hname.put 26 [byteOf cluster 0, byteOf cluster 1]
  funext i
  rw [entryAt, entryAt, Nat.zero_add]
  by_cases hfs : fs = .fat32
  · subst hfs
    exact ((hlow.put 20 [byteOf (cluster / 65536) 0, byteOf (cluster / 65536) 1]).put 28
      [byteOf size 0, byteOf size 1, byteOf size 2, byteOf size 3]) i i.isLt
  · simp only [makeEntry, if_neg hfs]
    exact (hlow.put 28 [byteOf size 0, byteOf size 1, byteOf size 2, byteOf size 3]) i i.isLt

/-- An entry does not reach in front of itself. -/
theorem makeEntry_before (fs : InstallerFs) (s : Sector) {off i : Nat} (base ext : String)
    (cluster size : Nat) (h : i < off) : makeEntry fs s off base ext cluster size i = s i := by
  by_cases hfs : fs = .fat32 <;>
    simp (disch := omega) only [makeEntry, put16, put32, hfs, if_true, if_false, putBytes_before]

/-- The entries of the two files. -/
def welcomeEntry (fs : InstallerFs) : Entry :=
  entryAt (makeEntry fs zeroSector 0 "WELCOME" "TXT" (welcomeCluster fs) welcomeText.length) 0

def readmeEntry (fs : InstallerFs) : Entry :=
  entryAt (makeEntry fs zeroSector 0 "README" "TXT" (welcomeCluster fs + 1) readmeText.length) 0

/-- The first three entries of the root directory: the label, then the files. -/
theorem entryAt_rootImage (fs : InstallerFs) (s : Sector) :
    entryAt (rootImage fs s) 0 = entryAt (makeVolumeEntry s) 0 ∧
    entryAt (rootImage fs s) 32 = welcomeEntry fs ∧
    entryAt (rootImage fs s) 64 = readmeEntry fs := by
  refine ⟨?_, ?_, entryAt_makeEntry ..⟩
  · funext i
    rw [entryAt, rootImage, makeEntry_before _ _ _ _ _ _ (by omega),
      makeEntry_before _ _ _ _ _ _ (by omega), entryAt]
  · rw [welcomeEntry, ← entryAt_makeEntry fs (makeVolumeEntry s) 32]
    funext i
    rw [entryAt, rootImage, makeEntry_before _ _ _ _ _ _ (by omega), entryAt]

theorem volumeEntry_skipped (s : Sector) :
    entryAt (makeVolumeEntry s) 0 0 ≠ 0 ∧ skipped (entryAt (makeVolumeEntry s) 0) := by
  have hsame : entryAt (makeVolumeEntry s) 0 = entryAt (makeVolumeEntry zeroSector) 0 := by
    funext i
    have h := ((shifted_zero 0 s zeroSector).put 0 (ascii "AO OS      ")).put 11 [0x08] i i.isLt
    simpa only [entryAt, makeVolumeEntry, Nat.zero_add] using h
  rw [hsame]
  decide

theorem welcomeEntry_spec (fs : InstallerFs) :
    welcomeEntry fs 0 ≠ 0 ∧ skipped (welcomeEntry fs) = false ∧
    nameMatch (welcomeEntry fs) welcomeName ∧
    nameMatch (welcomeEntry fs) readmeName = false ∧
    (welcomeEntry fs).isDirectory = false ∧ (welcomeEntry fs).size = welcomeText.length := by
  cases fs <;> decide

theorem readmeEntry_spec (fs : InstallerFs) :
    readmeEntry fs 0 ≠ 0 ∧ skipped (readmeEntry fs) = false ∧
    nameMatch (readmeEntry fs) readmeName ∧
    (readmeEntry fs).isDirectory = false ∧ (readmeEntry fs).size = readmeText.length := by
  cases fs <;> decide

/-- A file of one cluster whose only sector holds its text. -/
theorem reads_of_sector (hm : Mounted v) {name : CString} {e : Entry} {idx : Nat}
    {text : List UInt8}
    (hfind : exec (FatDriver.findEntry v v.currentCluster name) d = (some (e, idx), d))
    (hfile : e.isDirectory = false) (hsize : e.size = text.length) (hpos : 0 < text.length)
    (hlen : text.length ≤ 512) (hvalid : validDataCluster v (entryCluster v e))
    (hdata : SameBytes (d.sector (u32 (clusterSector v (entryCluster v e))))
      (putBytes zeroSector 0 text)) : Reads v d name text := by
  intro maxSize hmax
  have hspc := hm.spc_pos
  have hcb : 512 ≤ clusterBytes v := by
    rw [clusterBytes]
    omega
  have hone : clustersFor v e.size = 1 := by
    rw [clustersFor, hsize]
    refine Nat.div_eq_of_lt_le (by omega) (by omega)
  obtain ⟨r, hrun, hret, hdel⟩ :
      ∃ r, run (fun _ => true) (fatRead v name maxSize) d = (r, d) ∧ _ ∧ _ :=
    run_fatRead hm (congrArg Prod.fst hfind) hfile (by omega)
  have hrest : Rest (fun _ => true) v d (entryCluster v e) e.size 0 := by
    intro m _ hmlt
    obtain rfl : m = 0 := by omega
    exact ⟨hvalid, fun _ _ _ => rfl, fun h => absurd h (by omega)⟩
  obtain ⟨hsz, hbuf, _⟩ := hdel (hret.mpr hrest)
  refine ⟨r, hrun, hret.mpr hrest, by rw [hsz, hsize], ?_⟩
  rw [hbuf, hsize]
  refine List.ext_getElem (by simp) fun k hk1 hk2 => ?_
  have hk : k < 512 := by omega
  simp only [List.getElem_map, List.getElem_range, fileByte]
  rw [Nat.div_eq_of_lt (by omega), Nat.mod_eq_of_lt (show k < clusterBytes v by omega),
    Nat.div_eq_of_lt hk, Nat.mod_eq_of_lt hk, Nat.add_zero]
  have hb := hdata k hk
  rw [putBytes, if_pos ⟨Nat.zero_le _, by omega⟩] at hb
  rw [Nat.sub_zero, List.getD_eq_getElem?_getD, List.getElem?_eq_getElem hk2] at hb
  exact hb

/-- The clusters of the two files are data clusters. -/
theorem Computed.clusters_ge (hV : volume < 2 ^ 32) (hc : Computed fs volume l) :
    welcomeCluster fs + 1 < l.clusters + 2 ∧ l.clusters + 2 < 2 ^ 32 := by
  have hrange := hc.range
  have hle := hc.fat_le
  have hlarge := hc.large
  have hres : bootReservedSectors = 512 := rfl
  have hbound : l.clusters ≤ volume - 512 := by
    rw [hc.clusters_eq]
    exact Nat.le_trans (Nat.div_le_self _ _) (by omega)
  refine ⟨?_, by omega⟩
  cases fs with
  | fat12 =>
    have hroot : rootSectors .fat12 = 14 := rfl
    rw [hc.clusters_eq]
    simp only [settling, hroot, hres, sectorsPerCluster, welcomeCluster, reduceCtorEq,
      if_false] at hle hlarge ⊢
    omega
  | fat16 =>
    obtain ⟨h1, _⟩ := Bool.or_eq_false_iff.mp hrange
    have h1 := of_decide_eq_false h1
    simp only [welcomeCluster, reduceCtorEq, if_false]
    omega
  | fat32 =>
    have h := of_decide_eq_false hrange
    simp only [welcomeCluster, if_true]
    omega

/-- The data sector of a welcome file, as the driver computes it. -/
theorem Computed.clusterSector_eq (hc : Computed fs volume l) (hv : IsVolume fs l v) {k : Nat}
    (hk : k ≤ 1) : u32 (clusterSector v (welcomeCluster fs + k)) = fileSector fs l k := by
  obtain ⟨hres, hroot, hper, hfat, hfirst⟩ := hc.areas
  have hcl := welcomeCluster_bounds fs
  have hle := hc.fileSector_le hk
  have hsplit : (welcomeCluster fs + k + (2 ^ 32 - 2)) * l.sectorsPerCluster =
      (welcomeCluster fs - 2 + k) * l.sectorsPerCluster + 2 ^ 32 * l.sectorsPerCluster := by
    rw [← Nat.add_mul]
    congr 1
    omega
  rw [clusterSector, hv.firstData, hv.perCluster, hsplit, ← Nat.add_assoc, ← fileSector]
  simp only [u32, Nat.add_mul_mod_self_left]
  omega

theorem entryCluster_welcome (hv : IsVolume fs l v) :
    entryCluster v (welcomeEntry fs) = welcomeCluster fs ∧
    entryCluster v (readmeEntry fs) = welcomeCluster fs + 1 := by
  rw [entryCluster, entryCluster, hv.type]
  cases fs <;> decide

/-- Both files can be read in the root directory of the mounted volume. -/
theorem Computed.reads (hV : volume < 2 ^ 32) (hc : Computed fs volume l) (hi : Installed fs l d d')
    (hfat : l.fatSectors ≠ 0) (hv : IsVolume fs l v) :
    Reads v d' welcomeName welcomeText ∧ Reads v d' readmeName readmeText := by
  obtain ⟨s, hs⟩ := hi.root hfat
  obtain ⟨he0, he1, he2⟩ := entryAt_rootImage fs s
  have hentry : ∀ i, i < 3 → exec (dirRead v v.currentCluster i) d' =
      (some (entryAt (rootImage fs s) (i * 32)), d') := by
    intro i h3
    rw [hc.dirRead_root hv d' (by omega)]
    refine Prod.ext (congrArg some (funext fun j => ?_)) rfl
    exact hs _ (by unfold sectorSize; omega)
  have hread0 := hentry 0 (by decide)
  have hread1 := hentry 1 (by decide)
  have hread2 := hentry 2 (by decide)
  rw [Nat.zero_mul, he0] at hread0
  rw [Nat.one_mul, he1] at hread1
  rw [show 2 * 32 = 64 from rfl, he2] at hread2
  obtain ⟨hv0, hvs⟩ := volumeEntry_skipped s
  obtain ⟨hw0, hws, hwm, hwn, hwd, hwz⟩ := welcomeEntry_spec fs
  obtain ⟨hr0, hrs, hrm, hrd, hrz⟩ := readmeEntry_spec fs
  obtain ⟨hcw, hcr⟩ := entryCluster_welcome hv
  obtain ⟨hcl, hlim⟩ := hc.clusters_ge hV
  have hvalid : ∀ k, k ≤ 1 → validDataCluster v (welcomeCluster fs + k) := by
    intro k hk
    have h2 := (welcomeCluster_bounds fs).1
    rw [validDataCluster, clusterLimit, hv.clusterCount, u32_of_lt hlim]
    simp only [Bool.and_eq_true, decide_eq_true_eq]
    omega
  have hfindw : exec (FatDriver.findEntry v v.currentCluster welcomeName) d' =
      (some (welcomeEntry fs, 1), d') := by
    rw [FatDriver.findEntry, maxDirEntries, exec_findFrom_skip hread0 hv0 (.inl hvs)]
    exact exec_findFrom_hit hread1 hw0 hws hwm
  have hfindr : exec (FatDriver.findEntry v v.currentCluster readmeName) d' =
      (some (readmeEntry fs, 2), d') := by
    rw [FatDriver.findEntry, maxDirEntries, exec_findFrom_skip hread0 hv0 (.inl hvs),
      exec_findFrom_skip hread1 hw0 (.inr hwn)]
    exact exec_findFrom_hit hread2 hr0 hrs hrm
  constructor
  · refine reads_of_sector hv.mounted hfindw hwd hwz (by decide) (by decide) ?_ ?_
    · rw [hcw]
      exact hvalid 0 (by decide)
    · rw [hcw, show welcomeCluster fs = welcomeCluster fs + 0 from rfl,
        hc.clusterSector_eq hv (by decide)]
      exact hi.welcome hfat
  · refine reads_of_sector hv.mounted hfindr hrd hrz (by decide) (by decide) ?_ ?_
    · rw [hcr]
      exact hvalid 1 (by decide)
    · rw [hcr, hc.clusterSector_eq hv (by decide)]
      exact hi.readme hfat

/-- **What the installer formats, the driver mounts**, unless the FAT is empty. -/
theorem install_mountsBack_iff (fs : InstallerFs) (volume : Nat) (d : Disk) (hV : volume < 2 ^ 32)
    (hok : (exec (install fs volume) d).1 = .ok) : ∃ l, calculateLayout fs volume = some l ∧
      (MountsBack fs l (exec (install fs volume) d).2 ↔ ¬ EmptyFat fs volume) := by
  cases hl : calculateLayout fs volume with
  | none =>
    rw [install, installerFormatFilesystemAs, hl] at hok
    cases hok
  | some l =>
    refine ⟨l, rfl, ?_⟩
    have hc := calculateLayout_computed hV hl
    obtain ⟨d', hrun, hi⟩ := hc.installed hl d
    rw [hrun, ← hc.fat_eq_zero_iff hV]
    constructor
    · intro h hfat
      obtain ⟨v, st', hmount, _⟩ := h ⟨fun _ => d', false, fun _ => ⟨false, 0, 0, fun _ => 0⟩, 0⟩
        (fun _ => 0) rfl
      rw [mountDrive_empty, hc.mountSector_eq hV hi, if_neg (by simp [hfat])] at hmount
      cases hmount
    · intro hfat st cwd hst
      have hv := hc.isVolume hV hi hfat cwd
      obtain ⟨hw, hr⟩ := hc.reads hV hi hfat hv
      have hmount := mountDrive_empty cwd st
      rw [hst, hc.mountSector_eq hV hi, if_pos hfat] at hmount
      exact ⟨_, _, hmount, hv.type, hv.reserved, hv.fatSize, hv.rootSectors, hv.firstData,
        hv.clusterCount, hw, hr⟩

end Mount

/-- A FAT16 installation on a 10 MB disk mounts. -/
theorem install_mountsBack_20480 : (exec (install .fat16 20480) (fun _ => 0)).1 = .ok ∧
    ∃ l, calculateLayout .fat16 20480 = some l ∧
      MountsBack .fat16 l (exec (install .fat16 20480) (fun _ => 0)).2 := by
  have hok : (exec (install .fat16 20480) (fun _ => 0)).1 = .ok := by rfl
  obtain ⟨l, hl, hiff⟩ := install_mountsBack_iff .fat16 20480 _ (by decide) hok
  exact ⟨hok, l, hl, hiff.mpr (by rw [EmptyFat]; decide)⟩

/-- A FAT32 disk of `2 ^ 30 + 400` sectors: the installer reports success, and the
    driver refuses the volume. -/
theorem install_fat32_unmountable : (exec (install .fat32 (2 ^ 30 + 400)) (fun _ => 0)).1 = .ok ∧
    calculateLayout .fat32 (2 ^ 30 + 400) = some ⟨2 ^ 30 + 400, 512, 0, 0, 512, 2, 1, 0⟩ ∧
    ¬ MountsBack .fat32 ⟨2 ^ 30 + 400, 512, 0, 0, 512, 2, 1, 0⟩
      (exec (install .fat32 (2 ^ 30 + 400)) (fun _ => 0)).2 := by
  have hl : calculateLayout .fat32 (2 ^ 30 + 400) =
      some ⟨2 ^ 30 + 400, 512, 0, 0, 512, 2, 1, 0⟩ := by decide
  refine ⟨by decide, hl, fun h => ?_⟩
  obtain ⟨v, st', hmount, _⟩ := h
    ⟨fun _ => (exec (install .fat32 (2 ^ 30 + 400)) (fun _ => 0)).2, false,
      fun _ => ⟨false, 0, 0, fun _ => 0⟩, 0⟩ (fun _ => 0) rfl
  rw [mountDrive_empty] at hmount
  have hnone : (mountSector 0 ((exec (install .fat32 (2 ^ 30 + 400)) (fun _ => 0)).2.sector 0)
      (fun _ => 0)).isNone := by decide
  have hsome : mountSector 0 ((exec (install .fat32 (2 ^ 30 + 400)) (fun _ => 0)).2.sector 0)
      (fun _ => 0) = some v := congrArg Prod.fst hmount
  rw [hsome] at hnone
  cases hnone

end Installer
