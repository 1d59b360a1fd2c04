import AoOs.BlockCache
import AoOs.InstallerLayout

/-! # Formatting — the writes of `installer.c`

    `installer_format_filesystem_as` and `installer_create_welcome_files` as
    sector programs.  The installer talks to the controller directly, so an LBA
    is cut to 28 bits and nothing is cached; `sector_buffer` is a local value here,
    because every use of it starts from a `memset` or a read.

    What the boot path loads is a fixed range in front of the file system: the code
    bytes of sector 0, stage 2 in sectors 1 to 4, the kernel in sectors 5 to 260.
    The FAT32 branch puts FSInfo, the backup boot sector and the backup FSInfo
    into sectors 256 to 258, inside that range. -/

namespace Installer

open BlockIO BlockM FatTypes

variable {s : Sector} {i lba base k : Nat} {S : Nat → Prop} {d d₀ : Disk}

/-! ## Buffers -/

/-- The bytes of a string literal. -/
def ascii (s : String) : List UInt8 := s.toList.map fun c => UInt8.ofNat c.toNat

/-- `memcpy` of `bytes` to offset `off` of a buffer. -/
def putBytes (s : Sector) (off : Nat) (bytes : List UInt8) : Sector :=
  fun i => if off ≤ i ∧ i < off + bytes.length then bytes.getD (i - off) 0 else s i

/-- `put16`. -/
def put16 (s : Sector) (off n : Nat) : Sector := putBytes s off [byteOf n 0, byteOf n 1]

/-- `put32`. -/
def put32 (s : Sector) (off n : Nat) : Sector :=
  putBytes s off [byteOf n 0, byteOf n 1, byteOf n 2, byteOf n 3]

/-- The buffer after `memset(sector_buffer, 0, 512)`. -/
def zeroSector : Sector := fun _ => 0

/-- The part of the BPB that every FAT type has. -/
def commonBpb (fs : InstallerFs) (l : Layout) (s : Sector) : Sector :=
  let s := putBytes s 0 [0xEB, 0x58, 0x90]
  let s := putBytes s 3 (ascii "AOOS2.0 ")
  let s := putBytes (put16 s 11 512) 13 [byteOf l.sectorsPerCluster 0]
  let s := putBytes (put16 s 14 l.reservedSectors) 16 [2]
  let s := put16 s 17 l.rootEntries
  let s := put16 s 19 (if l.volumeSectors < 65536 then l.volumeSectors else 0)
  let s := putBytes s 21 [0xF8]
  let s := put16 s 22 (if fs = .fat32 then 0 else l.fatSectors)
  let s := put32 (put16 (put16 s 24 63) 26 255) 28 0
  put32 s 32 (if 65536 ≤ l.volumeSectors then l.volumeSectors else 0)

/-- The extended BPB of FAT32. -/
def extendedBpb32 (l : Layout) (s : Sector) : Sector :=
  let s := put16 (put16 (put32 s 36 l.fatSectors) 40 0) 42 0
  let s := put16 (put16 (put32 s 44 l.rootCluster) 48 256) 50 257
  let s := putBytes s 52 (List.replicate 12 0)
  let s := putBytes (putBytes s 64 [0x80]) 66 [0x29]
  let s := put32 s 67 0xA0200032
  putBytes (putBytes s 71 (ascii "AO OS      ")) 82 (ascii "FAT32   ")

/-- The extended BPB of FAT12 and FAT16. -/
def extendedBpb16 (fs : InstallerFs) (s : Sector) : Sector :=
  let s := putBytes (putBytes s 36 [0x80]) 38 [0x29]
  let s := put32 s 39 (if fs = .fat16 then 0xA0200016 else 0xA0200012)
  putBytes (putBytes s 43 (ascii "AO OS      ")) 54
    (ascii (if fs = .fat16 then "FAT16   " else "FAT12   "))

/-- The boot sector that `write_boot_sector` makes of the one it read. -/
def bootImage (fs : InstallerFs) (l : Layout) (s : Sector) : Sector :=
  putBytes (if fs = .fat32 then extendedBpb32 l (commonBpb fs l s)
    else extendedBpb16 fs (commonBpb fs l s)) 510 [0x55, 0xAA]

/-- The FSInfo sector. -/
def fsinfoImage : Sector :=
  put32 (put32 (put32 (put32 (put32 zeroSector 0 0x41615252) 484 0x61417272) 488 0xFFFFFFFF)
    492 0xFFFFFFFF) 508 0xAA550000

/-! ## Programs -/

/-- The status codes. -/
inductive Status where
  | ok
  | noDisk
  | writeError
  | readError
  | unsupported
  deriving DecidableEq, Repr

/-- `ata_read_sector`. -/
def ataReadSector (lba : Nat) : BlockM (Option Sector) := readSector (lba % 2 ^ 28)

/-- `ata_write_sector`. -/
def ataWriteSector (lba : Nat) (s : Sector) : BlockM Bool := writeSector (lba % 2 ^ 28) s

/-- The FAT32 half of `write_boot_sector`: FSInfo, then a copy of both sectors. -/
def writeFsinfo : BlockM Status := do
  if ← ataWriteSector 256 fsinfoImage then
    match ← ataReadSector 0 with
    | none => pure .writeError
    | some boot =>
      if ← ataWriteSector 257 boot then
        match ← ataReadSector 256 with
        | none => pure .writeError
        | some info =>
          if ← ataWriteSector 258 info then pure .ok else pure .writeError
      else pure .writeError
  else pure .writeError

/-- `write_boot_sector`. -/
def writeBootSector (fs : InstallerFs) (l : Layout) : BlockM Status := do
  match ← ataReadSector 0 with
  | none => pure .readError
  | some s =>
    if ← ataWriteSector 0 (bootImage fs l s) then
      if fs = .fat32 then writeFsinfo else pure .ok
    else pure .writeError

/-- The first sector of a fresh FAT. -/
def firstFatSector : InstallerFs → Sector
  | .fat12 => putBytes zeroSector 0 [0xF8, 0xFF, 0xFF]
  | .fat16 => put16 (put16 zeroSector 0 0xFFF8) 2 0xFFFF
  | .fat32 => put32 (put32 (put32 zeroSector 0 0x0FFFFFF8) 4 0xFFFFFFFF) 8 0x0FFFFFFF

/-- A loop that writes the sectors `base + s, …`, `n` of them. -/
def writeFrom (image : Nat → Sector) (base : Nat) : Nat → Nat → BlockM Bool
  | 0, _ => pure true
  | n + 1, s => do
      if ← ataWriteSector (u32 (base + s)) (image s) then writeFrom image base n (s + 1)
      else pure false

/-- One copy of the FAT from sector `s` on, `n` sectors left. -/
def initializeFatFrom (fs : InstallerFs) : Nat → Nat → Nat → BlockM Bool :=
  writeFrom fun s => if s = 0 then firstFatSector fs else zeroSector

/-- `initialize_fats`. -/
def initializeFats (fs : InstallerFs) (l : Layout) : BlockM Bool := do
  if ← initializeFatFrom fs l.reservedSectors l.fatSectors 0 then
    initializeFatFrom fs (u32 (l.reservedSectors + l.fatSectors)) l.fatSectors 0
  else pure false

/-- The `write_zero` loops. -/
def writeZeroFrom : Nat → Nat → Nat → BlockM Bool := writeFrom fun _ => zeroSector

/-- The writes of `installer_format_filesystem_as` behind the boot sector: the
    FATs, the root directory area, and for FAT32 the root cluster. -/
def writeFileSystem (fs : InstallerFs) (l : Layout) : BlockM Status := do
  if ← initializeFats fs l then
    if ← writeZeroFrom (u32 (l.reservedSectors + 2 * l.fatSectors)) l.rootSectors 0 then
      if fs = .fat32 then
        if ← writeZeroFrom l.firstDataSector l.sectorsPerCluster 0 then pure .ok
        else pure .writeError
      else pure .ok
    else pure .writeError
  else pure .writeError

/-- The writes of `installer_format_filesystem_as` for a given layout. -/
def formatWith (fs : InstallerFs) (l : Layout) : BlockM Status := do
  match ← writeBootSector fs l with
  | .ok => writeFileSystem fs l
  | e => pure e

/-- `installer_format_filesystem_as` on a disk of `volume` sectors: its result,
    and the layout it leaves in the static variables. -/
def installerFormatFilesystemAs (fs : InstallerFs) (volume : Nat) :
    BlockM (Status × Option Layout) :=
  match calculateLayout fs volume with
  | none => pure (.unsupported, none)
  | some l => do
      let status ← formatWith fs l
      pure (status, some l)

/-- `make_entry` at offset `off` of the buffer. -/
def makeEntry (fs : InstallerFs) (s : Sector) (off : Nat) (base ext : String)
    (cluster size : Nat) : Sector :=
  let s := putBytes (putBytes s off (List.replicate 32 0)) off (List.replicate 11 32)
  let s := putBytes (putBytes s off (ascii base)) (off + 8) (ascii ext)
  let s := put16 (putBytes s (off + 11) [0x20]) (off + 26) cluster
  let s := if fs = .fat32 then put16 s (off + 20) (cluster / 65536) else s
  put32 s (off + 28) size

/-- `make_volume_entry`. -/
def makeVolumeEntry (s : Sector) : Sector :=
  putBytes (putBytes (putBytes s 0 (List.replicate 32 0)) 0 (ascii "AO OS      ")) 11 [0x08]

def welcomeText : List UInt8 :=
  ascii "Welcome to AO OS!\r\n\r\nThe disk is formatted and ready.\r\n" ++
    ascii "Try: ls, cat README.TXT, edit test.txt\r\n"

def readmeText : List UInt8 :=
  ascii "AO OS persistent storage\r\nSupported formats: FAT12, FAT16 and FAT32.\r\n"

/-- `c1` of `installer_create_welcome_files`. -/
def welcomeCluster (fs : InstallerFs) : Nat := if fs = .fat32 then 3 else 2

/-- The first sector of the root directory. -/
def rootSector (fs : InstallerFs) (l : Layout) : Nat :=
  if fs = .fat32 then l.firstDataSector else u32 (l.reservedSectors + 2 * l.fatSectors)

/-- The root directory sector that `installer_create_welcome_files` makes of the
    one it read. -/
def rootImage (fs : InstallerFs) (s : Sector) : Sector :=
  let s := makeVolumeEntry s
  let s := makeEntry fs s 32 "WELCOME" "TXT" (welcomeCluster fs) welcomeText.length
  makeEntry fs s 64 "README" "TXT" (welcomeCluster fs + 1) readmeText.length

/-- `set_fat_entry_in_sector`; the error return leaves the sector alone. -/
def setFatEntryInSector (fs : InstallerFs) (s : Sector) (cluster value : Nat) : Sector :=
  let offset := match fs with
    | .fat12 => cluster + cluster / 2
    | .fat16 => cluster * 2
    | .fat32 => cluster * 4
  if 512 ≤ offset ∨ (fs = .fat12 ∧ offset = 511) then s
  else match fs with
    | .fat12 =>
      let old := le16 (s offset) (s (offset + 1))
      put16 s offset (if cluster % 2 = 1 then (old % 16 + value * 16) % 65536
        else old / 4096 * 4096 + value % 4096)
    | .fat16 => put16 s offset value
    | .fat32 => put32 s offset value

/-- The end-of-chain value the installer writes. -/
def installerEoc : InstallerFs → Nat
  | .fat12 => 0xFFF
  | .fat16 => 0xFFFF
  | .fat32 => 0x0FFFFFFF

/-- One round of the FAT loop of `installer_create_welcome_files`. -/
def linkWelcome (fs : InstallerFs) (base : Nat) : BlockM Status := do
  match ← ataReadSector base with
  | none => pure .readError
  | some s =>
    let s := setFatEntryInSector fs s (welcomeCluster fs) (installerEoc fs)
    let s := setFatEntryInSector fs s (welcomeCluster fs + 1) (installerEoc fs)
    if ← ataWriteSector base s then pure .ok else pure .writeError

/-- `installer_create_welcome_files`. -/
def installerCreateWelcomeFiles (fs : InstallerFs) (l : Layout) : BlockM Status := do
  match ← ataReadSector (rootSector fs l) with
  | none => pure .readError
  | some s =>
    if ← ataWriteSector (rootSector fs l) (rootImage fs s) then
      if ← ataWriteSector (u32 (l.firstDataSector +
          (welcomeCluster fs - 2) * l.sectorsPerCluster)) (putBytes zeroSector 0 welcomeText) then
        if ← ataWriteSector (u32 (l.firstDataSector +
            (welcomeCluster fs - 1) * l.sectorsPerCluster)) (putBytes zeroSector 0 readmeText) then
          match ← linkWelcome fs l.reservedSectors with
          | .ok => linkWelcome fs (u32 (l.reservedSectors + l.fatSectors))
          | e => pure e
        else pure .writeError
      else pure .writeError
    else pure .writeError

/-- The two steps as `installer_run` sequences them. -/
def install (fs : InstallerFs) (volume : Nat) : BlockM Status := do
  match ← installerFormatFilesystemAs fs volume with
  | (.ok, some l) => installerCreateWelcomeFiles fs l
  | (e, _) => pure e

/-! ## The boot path -/

/-- The bytes that the boot path loads: the code of stage 1 behind the BPB window,
    the four sectors of stage 2 and the `KERNEL_SECS = 256` sectors of the kernel. -/
def BootPath (a : Nat) : Prop := (90 ≤ a ∧ a ≤ 509) ∨ (512 ≤ a ∧ a < 512 * 261)

/-- What is put into the BPB window stays there. -/
theorem putBytes_window {off : Nat} {bytes : List UInt8} (h : off + bytes.length ≤ 90)
    (hi : 90 ≤ i) :
    putBytes s off bytes i = s i :=
  if_neg (by omega)

theorem putBytes_before {off : Nat} {bytes : List UInt8} (h : i < off) :
    putBytes s off bytes i = s i :=
  if_neg (by omega)

/-- The BPB window ends at byte 89. -/
theorem bootImage_code (fs : InstallerFs) (l : Layout) (s : Sector) (h90 : 90 ≤ i)
    (h510 : i < 510) :
    bootImage fs l s i = s i := by
  rw [bootImage, putBytes_before h510]
  cases fs <;>
    simp (disch := first | exact h90 | decide | simp) only [reduceCtorEq, if_true, if_false,
      extendedBpb16, extendedBpb32, commonBpb, put16, put32, putBytes_window]

/-! ### Everything behind the boot sectors stays behind them -/

/-- The sectors from the end of the reserved area on. -/
def Behind (lba : Nat) : Prop := bootReservedSectors ≤ lba

theorem writesIn_ataRead {P : Nat → Prop} (lba : Nat) : WritesIn P (ataReadSector lba) :=
  writesIn_readSector _

theorem writesIn_ataWrite (s : Sector) (h : bootReservedSectors ≤ lba) (hlt : lba < 2 ^ 28) :
    WritesIn Behind (ataWriteSector lba s) := by
  refine writesIn_writeSector s ?_
  rw [Nat.mod_eq_of_lt hlt]
  exact h

theorem writeFrom_writesIn (image : Nat → Sector) (hbase : bootReservedSectors ≤ base) (n s)
    (hlt : base + s + n ≤ 2 ^ 28) : WritesIn Behind (writeFrom image base n s) := by
  induction n generalizing s with
  | zero => exact writesIn_pure _
  | succ n ih =>
    have hu : u32 (base + s) = base + s := u32_of_lt (by omega)
    refine writesIn_bind (writesIn_ataWrite _ ?_ ?_) fun b => ?_
    · rw [hu]; omega
    · rw [hu]; omega
    · exact writesIn_ite (fun _ => ih (s + 1) (by omega)) (fun _ => writesIn_pure _)

theorem linkWelcome_writesIn (fs : InstallerFs) (hbase : bootReservedSectors ≤ base)
    (hlt : base < 2 ^ 28) : WritesIn Behind (linkWelcome fs base) := by
  refine writesIn_bind (writesIn_ataRead _) fun r => ?_
  cases r with
  | none => exact writesIn_pure _
  | some s =>
    refine writesIn_bind (writesIn_ataWrite _ hbase hlt) fun b => ?_
    exact writesIn_ite (fun _ => writesIn_pure _) (fun _ => writesIn_pure _)

section Behind

variable {fs : InstallerFs} {volume : Nat} {l : Layout}

variable (hc : Computed fs volume l)

include hc

/-- The areas of a computed layout start behind the reserved area and end below
    `2 ^ 26`. -/
theorem Computed.areas :
    l.reservedSectors = 512 ∧ l.rootSectors ≤ 32 ∧ l.sectorsPerCluster ≤ 32 ∧
    l.fatSectors < 2 ^ 24 ∧
    l.firstDataSector = l.reservedSectors + 2 * l.fatSectors + l.rootSectors := by
  refine ⟨hc.reserved_eq, ?_, ?_, hc.fat_inside.1, ?_⟩
  · rw [hc.root_eq]
    cases fs <;> decide
  · rw [hc.perCluster_eq]
    cases fs <;> decide
  · rw [hc.reserved_eq, hc.root_eq]
    exact hc.first_eq

theorem Computed.initializeFats_writesIn : WritesIn Behind (initializeFats fs l) := by
  obtain ⟨hres, _, _, hfat, _⟩ := hc.areas
  have hu : u32 (l.reservedSectors + l.fatSectors) = l.reservedSectors + l.fatSectors :=
    u32_of_lt (by omega)
  refine writesIn_bind (writeFrom_writesIn _ hc.reserved_eq.ge _ _ (by omega))
    fun b => ?_
  refine writesIn_ite (fun _ => writeFrom_writesIn _ ?_ _ _ ?_)
    (fun _ => writesIn_pure _)
  · rw [hu, hres]; exact Nat.le_add_right ..
  · rw [hu]; omega

theorem Computed.rootSector_bounds : 512 ≤ rootSector fs l ∧ rootSector fs l < 2 ^ 28 := by
  obtain ⟨hres, hroot, _, hfat, hfirst⟩ := hc.areas
  rw [rootSector]
  split
  · omega
  · rw [u32_of_lt (by omega)]
    omega

theorem Computed.welcome_writesIn : WritesIn Behind (installerCreateWelcomeFiles fs l) := by
  obtain ⟨hres, hroot, hper, hfat, hfirst⟩ := hc.areas
  obtain ⟨hlow, hhigh⟩ := hc.rootSector_bounds
  have hc2 : welcomeCluster fs - 1 ≤ 2 := by cases fs <;> decide
  have hdata : ∀ k, k ≤ 2 → u32 (l.firstDataSector + k * l.sectorsPerCluster) =
      l.firstDataSector + k * l.sectorsPerCluster ∧
      512 ≤ l.firstDataSector + k * l.sectorsPerCluster ∧
      l.firstDataSector + k * l.sectorsPerCluster < 2 ^ 28 := by
    intro k hk
    have hmul : k * l.sectorsPerCluster ≤ 2 * 32 := Nat.mul_le_mul hk hper
    exact ⟨u32_of_lt (by omega), by omega, by omega⟩
  obtain ⟨hu1, hl1, hh1⟩ := hdata (welcomeCluster fs - 2) (by omega)
  obtain ⟨hu2, hl2, hh2⟩ := hdata (welcomeCluster fs - 1) hc2
  have hu3 : u32 (l.reservedSectors + l.fatSectors) = l.reservedSectors + l.fatSectors :=
    u32_of_lt (by omega)
  rw [installerCreateWelcomeFiles, hu1, hu2, hu3]
  refine writesIn_bind (writesIn_ataRead _) fun r => ?_
  cases r with
  | none => exact writesIn_pure _
  | some s =>
    refine writesIn_bind (writesIn_ataWrite _ hlow hhigh) fun b => ?_
    refine writesIn_ite (fun _ => ?_) (fun _ => writesIn_pure _)
    refine writesIn_bind (writesIn_ataWrite _ hl1 hh1) fun b => ?_
    refine writesIn_ite (fun _ => ?_) (fun _ => writesIn_pure _)
    refine writesIn_bind (writesIn_ataWrite _ hl2 hh2) fun b => ?_
    refine writesIn_ite (fun _ => ?_) (fun _ => writesIn_pure _)
    refine writesIn_bind (linkWelcome_writesIn fs hc.reserved_eq.ge (by omega)) fun st => ?_
    cases st with
    | ok => exact linkWelcome_writesIn fs (by rw [hres]; exact Nat.le_add_right ..) (by omega)
    | _ => exact writesIn_pure _

theorem Computed.writeFileSystem_writesIn : WritesIn Behind (writeFileSystem fs l) := by
  obtain ⟨hres, hroot, hper, hfat, hfirst⟩ := hc.areas
  have hu : u32 (l.reservedSectors + 2 * l.fatSectors) = l.reservedSectors + 2 * l.fatSectors :=
    u32_of_lt (by omega)
  have hres' : bootReservedSectors = 512 := rfl
  rw [writeFileSystem, hu]
  refine writesIn_bind hc.initializeFats_writesIn fun b => ?_
  refine writesIn_ite (fun _ => ?_) (fun _ => writesIn_pure _)
  refine writesIn_bind (writeFrom_writesIn _ (by omega) _ _ (by omega)) fun b => ?_
  refine writesIn_ite (fun _ => ?_) (fun _ => writesIn_pure _)
  refine writesIn_ite (fun _ => ?_) (fun _ => writesIn_pure _)
  refine writesIn_bind (writeFrom_writesIn _ (by omega) _ _ (by omega)) fun b => ?_
  exact writesIn_ite (fun _ => writesIn_pure _) (fun _ => writesIn_pure _)

/-- In front of the file system an installation is its boot sector step. -/
theorem Computed.run_install_front (hl : calculateLayout fs volume = some l) (ok : Nat → Bool)
    (d : Disk) {a : Nat} (ha : a < 512 * 512) :
    (run ok (install fs volume) d).2 a = (run ok (writeBootSector fs l) d).2 a := by
  have hfront : ¬ Behind (a / sectorSize) := by
    simp only [Behind, bootReservedSectors, sectorSize]
    omega
  simp only [install, installerFormatFilesystemAs, hl, formatWith, run_bind, run_pure]
  rcases run ok (writeBootSector fs l) d with ⟨status, d₁⟩
  cases status with
  | ok =>
    have h2 := hc.writeFileSystem_writesIn.run_eq ok d₁ hfront
    rcases hr : run ok (writeFileSystem fs l) d₁ with ⟨status₂, d₂⟩
    rw [hr] at h2
    cases status₂ with
    | ok => exact (hc.welcome_writesIn.run_eq ok d₂ hfront).trans h2
    | _ => exact h2
  | _ => rfl

end Behind

/-! ### The boot sectors themselves -/

/-- A store inside a set of bytes keeps the set iff it stores what was there. -/
theorem store_agree_iff (hS : ∀ i, i < sectorSize → S (sectorSize * k + i)) :
    (∀ a, S a → d.store k s a = d₀ a) ↔
      SameBytes (d₀.sector k) s ∧ ∀ a, S a ∧ a / sectorSize ≠ k → d a = d₀ a := by
  constructor
  · intro h
    refine ⟨fun i hi => ?_, fun a ha => ?_⟩
    · rw [← store_same d k s hi]
      exact (h _ (hS i hi)).symm
    · rw [← store_other d s ha.2]
      exact h a ha.1
  · rintro ⟨hs, hrest⟩ a ha
    by_cases hk : a / sectorSize = k
    · have hdecomp : a = sectorSize * k + a % sectorSize := by
        rw [← hk]
        exact (Nat.div_add_mod a sectorSize).symm
      have hlt : a % sectorSize < sectorSize := Nat.mod_lt _ (by decide)
      rw [hdecomp, store_same d k s hlt]
      exact (hs _ hlt).symm
    · rw [store_other d s hk]
      exact hrest a ⟨ha, hk⟩

variable (ok : Nat → Bool)

@[simp] theorem run_ataRead (h : lba < 2 ^ 28) (d : Disk) :
    run ok (ataReadSector lba) d = (if ok lba then some (d.sector lba) else none, d) := by
  rw [ataReadSector, Nat.mod_eq_of_lt h, run_readSector]

@[simp] theorem run_ataWrite (h : lba < 2 ^ 28) (s : Sector) (d : Disk) :
    run ok (ataWriteSector lba s) d = (ok lba, if ok lba then d.store lba s else d) := by
  rw [ataWriteSector, Nat.mod_eq_of_lt h]
  cases hok : ok lba <;> simp [writeSector, run, hok]

/-- The disk after `writeFsinfo`, sector 0 being accessible. -/
theorem run_writeFsinfo {ok : Nat → Bool} (h0 : ok 0) (d : Disk) : (run ok writeFsinfo d).2 =
      if ok 256 then
        let d₁ := d.store 256 fsinfoImage
        if ok 257 then
          let d₂ := d₁.store 257 (d₁.sector 0)
          if ok 258 then d₂.store 258 (d₂.sector 256) else d₂
        else d₁
      else d := by
  simp only [writeFsinfo, run_bind, run_ataWrite, Nat.reducePow, Nat.reduceLT]
  cases h256 : ok 256 <;> simp only [if_true, if_false, Bool.false_eq_true, run_pure]
  simp only [run_bind, run_ataWrite, run_ataRead, Nat.reducePow, Nat.reduceLT, h0, if_true]
  cases h257 : ok 257 <;> simp only [if_true, if_false, Bool.false_eq_true, run_pure]
  simp only [run_bind, run_ataWrite, run_ataRead, Nat.reducePow, Nat.reduceLT, h256, if_true]
  cases h258 : ok 258 <;> simp only [if_true, if_false, Bool.false_eq_true, run_pure]

/-- The disk after `write_boot_sector`. -/
theorem run_writeBootSector (fs : InstallerFs) (l : Layout) (d : Disk) :
    (run ok (writeBootSector fs l) d).2 =
      if ok 0 then
        let d₁ := d.store 0 (bootImage fs l (d.sector 0))
        if fs = .fat32 then (run ok writeFsinfo d₁).2 else d₁
      else d := by
  simp only [writeBootSector, run_bind, run_ataRead, Nat.reducePow, Nat.reduceLT]
  cases h0 : ok 0 <;> simp only [if_true, if_false, Bool.false_eq_true, run_pure]
  simp only [run_bind, run_ataWrite, Nat.reducePow, Nat.reduceLT, h0, if_true]
  by_cases hfs : fs = .fat32
  · rw [if_pos hfs, if_pos hfs]
  · rw [if_neg hfs, if_neg hfs]
    rfl

/-- Overlaying the BPB leaves the boot path alone. -/
theorem store_bootImage_kept (fs : InstallerFs) (l : Layout) (d : Disk) {a : Nat}
    (ha : BootPath a) :
    d.store 0 (bootImage fs l (d.sector 0)) a = d a := by
  rcases ha with ⟨h90, h509⟩ | ⟨h512, _⟩
  · have hstore := store_same d 0 (bootImage fs l (d.sector 0))
      (show a < sectorSize by unfold sectorSize; omega)
    rw [Nat.mul_zero, Nat.zero_add] at hstore
    rw [hstore, bootImage_code fs l _ h90 (by omega), Disk.sector, Nat.mul_zero, Nat.zero_add]
  · exact store_other d _ (by unfold sectorSize; omega)

/-- When a FAT32 installation finds in sectors 256 to 258 what it puts there (or
    does not get that far). -/
def BootPathKept (ok : Nat → Bool) (fs : InstallerFs) (volume : Nat) (d : Disk) : Prop :=
  fs = .fat32 → ∀ l, calculateLayout fs volume = some l → ok 0 → ok 256 →
    SameBytes (d.sector 256) fsinfoImage ∧
    (ok 257 → SameBytes (d.sector 257) (bootImage fs l (d.sector 0)) ∧
      (ok 258 → SameBytes (d.sector 258) fsinfoImage))

theorem bootPath_sector (h1 : 1 ≤ k) (h2 : k ≤ 260) (hi : i < sectorSize) :
    BootPath (sectorSize * k + i) := by
  unfold sectorSize at hi ⊢
  exact .inr ⟨by omega, by omega⟩

theorem sameBytes_congr {t t' : Sector} (h : SameBytes t t') : SameBytes s t ↔ SameBytes s t' :=
  ⟨fun hs b hb => (hs b hb).trans (h b hb), fun hs b hb => (hs b hb).trans (h b hb).symm⟩

/-- A store to another sector is not seen. -/
theorem sector_store_other (d : Disk) {j : Nat} (s : Sector) (h : j ≠ k) :
    SameBytes ((d.store k s).sector j) (d.sector j) := by
  intro b hb
  exact store_other d s (by unfold sectorSize at hb ⊢; omega)

theorem sector_store_same (d : Disk) (k : Nat) (s : Sector) :
    SameBytes ((d.store k s).sector k) s :=
  fun _ hb => store_same d k s hb

/-- FSInfo in its place, seen from any set of bytes around it that agreed before. -/
theorem store_fsinfo_kept_iff (hd : ∀ a, S a → d a = d₀ a)
    (h256 : ∀ i, i < sectorSize → S (sectorSize * 256 + i)) :
    (∀ a, S a → d.store 256 fsinfoImage a = d₀ a) ↔ SameBytes (d₀.sector 256) fsinfoImage := by
  rw [store_agree_iff h256]
  exact and_iff_left fun a ha => hd a ha.1

/-- FSInfo and the copy of the boot sector. -/
theorem store_backup_kept_iff (hd : ∀ a, S a → d a = d₀ a)
    (h256 : ∀ i, i < sectorSize → S (sectorSize * 256 + i))
    (h257 : ∀ i, i < sectorSize → S (sectorSize * 257 + i)) :
    (∀ a, S a → (d.store 256 fsinfoImage).store 257 ((d.store 256 fsinfoImage).sector 0) a = d₀ a) ↔
      SameBytes (d₀.sector 257) (d.sector 0) ∧ SameBytes (d₀.sector 256) fsinfoImage := by
  rw [store_agree_iff h257, sameBytes_congr (sector_store_other d _ (show 0 ≠ 256 by decide))]
  refine and_congr_right fun _ => store_fsinfo_kept_iff (fun a ha => hd a ha.1) fun i hi => ?_
  exact ⟨h256 i hi, by unfold sectorSize at hi ⊢; omega⟩

/-- The three sectors of the FAT32 branch, as far as it gets. -/
theorem writeFsinfo_kept_iff {ok : Nat → Bool} (h0 : ok 0) (hd : ∀ a, BootPath a → d a = d₀ a) :
    (∀ a, BootPath a → (run ok writeFsinfo d).2 a = d₀ a) ↔
      (ok 256 → SameBytes (d₀.sector 256) fsinfoImage ∧
        (ok 257 → SameBytes (d₀.sector 257) (d.sector 0) ∧
          (ok 258 → SameBytes (d₀.sector 258) fsinfoImage))) := by
  have hs256 := fun i (hi : i < sectorSize) => bootPath_sector (k := 256) (by decide) (by decide) hi
  have hs257 := fun i (hi : i < sectorSize) => bootPath_sector (k := 257) (by decide) (by decide) hi
  have hs258 := fun i (hi : i < sectorSize) => bootPath_sector (k := 258) (by decide) (by decide) hi
  rw [run_writeFsinfo h0]
  cases h256 : ok 256 with
  | false => simpa using hd
  | true =>
    cases h257 : ok 257 with
    | false => simpa using store_fsinfo_kept_iff hd hs256
    | true =>
      cases h258 : ok 258 with
      | false => simpa [and_comm] using store_backup_kept_iff hd hs256 hs257
      | true =>
        simp only [if_true]
        have hinfo : SameBytes (((d.store 256 fsinfoImage).store 257
            ((d.store 256 fsinfoImage).sector 0)).sector 256) fsinfoImage :=
          fun b hb => (sector_store_other _ _ (by decide) b hb).trans
            (sector_store_same d 256 fsinfoImage b hb)
        rw [store_agree_iff hs258, sameBytes_congr hinfo,
          store_backup_kept_iff (fun a ha => hd a ha.1)
            (fun i hi => ⟨hs256 i hi, by unfold sectorSize at hi ⊢; omega⟩)
            (fun i hi => ⟨hs257 i hi, by unfold sectorSize at hi ⊢; omega⟩)]
        constructor
        · rintro ⟨h8, h7, h6⟩
          exact fun _ => ⟨h6, fun _ => ⟨h7, fun _ => h8⟩⟩
        · intro h
          obtain ⟨h6, h⟩ := h trivial
          obtain ⟨h7, h8⟩ := h trivial
          exact ⟨h8 trivial, h7, h6⟩

/-- **What formatting does to the boot path**: nothing, unless it is FAT32, and
    then nothing only where the kernel image already looks like FSInfo. -/
theorem install_bootPath_iff (ok : Nat → Bool) (fs : InstallerFs) (volume : Nat) (d : Disk)
    (hV : volume < 2 ^ 32) : (∀ a, BootPath a → (run ok (install fs volume) d).2 a = d a) ↔
      BootPathKept ok fs volume d := by
  cases hl : calculateLayout fs volume with
  | none =>
    have hrun : (run ok (install fs volume) d).2 = d := by
      simp only [install, installerFormatFilesystemAs, hl, run_bind, run_pure]
    rw [hrun]
    refine ⟨fun _ _ l h => ?_, fun _ _ _ => rfl⟩
    cases hl.symm.trans h
  | some l =>
    have hc := calculateLayout_computed hV hl
    have hfront : ∀ a, BootPath a → a < 512 * 512 := by
      intro a ha
      rcases ha with h | h <;> omega
    have hstep : (∀ a, BootPath a → (run ok (install fs volume) d).2 a = d a) ↔
        ∀ a, BootPath a → (run ok (writeBootSector fs l) d).2 a = d a :=
      forall₂_congr fun a ha => by rw [hc.run_install_front hl ok d (hfront a ha)]
    rw [hstep, run_writeBootSector]
    cases h0 : ok 0 with
    | false =>
      refine ⟨fun _ _ l _ h => ?_, fun _ _ _ => rfl⟩
      cases h0.symm.trans h
    | true =>
      by_cases hfs : fs = .fat32
      · simp only [if_true, if_pos hfs]
        rw [writeFsinfo_kept_iff h0 fun a ha => store_bootImage_kept fs l d ha,
          sameBytes_congr (sector_store_same d 0 _)]
        constructor
        · intro h _ l' hl' _ h256
          obtain rfl := Option.mem_unique hl hl'
          exact h h256
        · exact fun h h256 => h hfs l hl h0 h256
      · simp only [if_true, if_neg hfs]
        exact ⟨fun _ h => absurd h hfs, fun _ a ha => store_bootImage_kept fs l d ha⟩

/-- A FAT16 installation on a 10 MB disk that holds nothing. -/
theorem install_bootPath_20480 : (∀ a, BootPath a →
      (run (fun _ => true) (install .fat16 20480) (fun _ => 0)).2 a = 0) ∧
    BootPathKept (fun _ => true) .fat16 20480 (fun _ => 0) := by
  have hkept : BootPathKept (fun _ => true) .fat16 20480 (fun _ => 0) := nofun
  exact ⟨(install_bootPath_iff _ _ _ _ (by decide)).mpr hkept, hkept⟩

/-- A FAT32 installation over a kernel image of `0x90` bytes: the first byte of
    sector 256 is FSInfo's, and the kernel is loaded from there. -/
theorem install_overwrites_kernel : BootPath (512 * 256) ∧
    (run (fun _ => true) (install .fat32 200000) (fun _ => 0x90)).2 (512 * 256) ≠ 0x90 := by
  have hpath : BootPath (512 * 256) := .inr ⟨by decide, by decide⟩
  have hl : calculateLayout .fat32 200000 = some ⟨200000, 512, 1535, 0, 3582, 2, 1, 0⟩ := by
    decide +kernel
  rw [(calculateLayout_computed (by decide) hl).run_install_front hl _ _ (by decide),
    run_writeBootSector]
  simp only [if_true, run_writeFsinfo]
  exact ⟨hpath, by decide⟩

end Installer
