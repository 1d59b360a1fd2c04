import AoOs.FatTypes

/-! # The FAT driver — `kernel/fs/fat.c` as sector programs

    Every function of the driver that touches the disk is a `BlockM` program,
    statement for statement: `ata_read_sector`/`ata_write_sector` are
    `readSector`/`writeSector`, an `int` result is a `Bool` (`true` for `0`) or
    an `Option` (`none` for `-1`) when there is an out parameter, and the error
    returns of the source are the failure branches here.

    Loops carry the bound that the source's loop condition gives them.  Where
    the source has `while (1)`, or a condition on the chain being walked, the
    bound is a fuel argument. -/

namespace FatDriver

open BlockIO FatTypes

/-! ## The file allocation table -/

/-- One byte of a sector buffer replaced. -/
def setByte (s : Sector) (pos : Nat) (b : UInt8) : Sector :=
  fun i => if i = pos then b else s i

/-- The little-endian word at `pos`. -/
def get32 (s : Sector) (pos : Nat) : Nat :=
  le32 (s pos) (s (pos + 1)) (s (pos + 2)) (s (pos + 3))

/-- The little-endian word at `pos` replaced. -/
def put32 (s : Sector) (pos n : Nat) : Sector :=
  setByte (setByte (setByte (setByte s pos (byteOf n 0)) (pos + 1) (byteOf n 1))
    (pos + 2) (byteOf n 2)) (pos + 3) (byteOf n 3)

/-- A FAT12 entry out of the 16-bit word that holds it. -/
def fat12Decode (c w : Nat) : Nat := if c % 2 = 1 then w / 16 else w % 4096

/-- The 16-bit word `old` with the entry of `c` replaced: odd clusters own the
    high twelve bits, even ones the low twelve. -/
def fat12Encode (c old value : Nat) : Nat :=
  if c % 2 = 1 then (old % 16 + value * 16) % 65536
  else old / 4096 * 4096 + value % 4096

/-- `fat_get`.  The byte that a straddling FAT12 entry takes from the next
    sector is the value of the C variable `next`; the other 511 bytes which that
    read stores past it are not part of the value. -/
def fatGet (v : Vol) (cluster : Nat) : BlockM Nat := do
  let offset := fatOffset v.type cluster
  let sector := u32 (v.reservedSectors + offset / 512)
  let pos := offset % 512
  match ← readSector sector with
  | none => pure (eocValue v)
  | some sec =>
    if v.type = .fat12 then
      if pos = 511 then
        match ← readSector (u32 (sector + 1)) with
        | none => pure (eocValue v)
        | some next => pure (fat12Decode cluster (le16 (sec pos) (next 0)))
      else pure (fat12Decode cluster (le16 (sec pos) (sec (pos + 1))))
    else if v.type = .fat16 then pure (le16 (sec pos) (sec (pos + 1)))
    else pure (get32 sec pos % 2 ^ 28)

/-- `fat_set_copy`. -/
def fatSetCopy (v : Vol) (base cluster value : Nat) : BlockM Bool := do
  let offset := fatOffset v.type cluster
  let sector := u32 (base + offset / 512)
  let pos := offset % 512
  match ← readSector sector with
  | none => pure false
  | some sec =>
    if v.type = .fat12 then
      if pos = 511 then
        match ← readSector (u32 (sector + 1)) with
        | none => pure false
        | some next =>
          let w := fat12Encode cluster (le16 (sec pos) (next 0)) value
          if ← writeSector (u32 (sector + 1)) (setByte next 0 (byteOf w 1)) then
            writeSector sector (setByte sec pos (byteOf w 0))
          else pure false
      else
        let w := fat12Encode cluster (le16 (sec pos) (sec (pos + 1))) value
        writeSector sector
          (setByte (setByte sec pos (byteOf w 0)) (pos + 1) (byteOf w 1))
    else if v.type = .fat16 then
      writeSector sector
        (setByte (setByte sec pos (byteOf value 0)) (pos + 1) (byteOf value 1))
    else
      let old := get32 sec pos
      writeSector sector (put32 sec pos (old / 2 ^ 28 * 2 ^ 28 + value % 2 ^ 28))

/-- The copies `i, i + 1, …` of `fat_set`, `n` of them. -/
def fatSetFrom (v : Vol) (cluster value : Nat) : Nat → Nat → BlockM Bool
  | 0, _ => pure true
  | n + 1, i => do
      if ← fatSetCopy v (u32 (v.reservedSectors + i * v.fatSize)) cluster value then
        fatSetFrom v cluster value n (i + 1)
      else pure false

/-- `fat_set`: the entry in every copy of the FAT. -/
def fatSet (v : Vol) (cluster value : Nat) : BlockM Bool :=
  fatSetFrom v cluster value v.fatCount 0

/-- `checked_next`: `none` for `-1`, otherwise the successor and whether it is
    terminal. -/
def checkedNext (v : Vol) (c : Nat) : BlockM (Option (Nat × Bool)) := do
  if !validDataCluster v c then pure none
  else
    let value ← fatGet v c
    if isEoc v value then pure (some (value, true))
    else if !validDataCluster v value then pure none
    else pure (some (value, false))

/-! ## Free-space bookkeeping and allocation -/

/-- `fsinfo_adjust_sector`; `delta` is the increment as a `uint32_t`. -/
def fsinfoAdjustSector (v : Vol) (sector delta nextFree : Nat) : BlockM Unit := do
  if v.type ≠ .fat32 ∨ v.reservedSectors ≤ sector then pure ()
  else
    match ← readSector sector with
    | none => pure ()
    | some data =>
      if get32 data 0 ≠ 0x41615252 ∨ get32 data 484 ≠ 0x61417272 ∨
          get32 data 508 ≠ 0xAA550000 then pure ()
      else
        let freeCount := get32 data 488
        let data :=
          if freeCount ≠ 0xFFFFFFFF then put32 data 488 (u32 (freeCount + delta))
          else data
        let data := put32 data 492 (if nextFree < clusterLimit v then nextFree else 2)
        let _ ← writeSector sector data
        pure ()

/-- `fsinfo_adjust`: the primary FSInfo sector, then its backup. -/
def fsinfoAdjust (v : Vol) (delta nextFree : Nat) : BlockM Unit := do
  if v.type ≠ .fat32 ∨ v.fsinfoSector = 0 ∨ v.fsinfoSector = 0xFFFF then pure ()
  else
    fsinfoAdjustSector v v.fsinfoSector delta nextFree
    if v.backupBootSector ≠ 0 ∧ v.backupBootSector ≠ 0xFFFF then
      fsinfoAdjustSector v (v.backupBootSector + 1) delta nextFree
    else pure ()

/-- Zeroes the sectors `s, s + 1, …` of a cluster, `n` of them. -/
def zeroFrom (v : Vol) (c : Nat) : Nat → Nat → BlockM Bool
  | 0, _ => pure true
  | n + 1, s => do
      if ← writeSector (u32 (clusterSector v c + s)) (fun _ => 0) then zeroFrom v c n (s + 1)
      else pure false

/-- The scan of `alloc_cluster` from cluster `c` on, `n` clusters left. -/
def allocFrom (v : Vol) : Nat → Nat → BlockM Nat
  | 0, _ => pure 0
  | n + 1, c => do
      if (← fatGet v c) = 0 then
        if ← fatSet v c (eocValue v) then
          if ← zeroFrom v c v.sectorsPerCluster 0 then
            fsinfoAdjust v (2 ^ 32 - 1) (c + 1)
            pure c
          else pure 0
        else pure 0
      else allocFrom v n (c + 1)

/-- `alloc_cluster`: the first free cluster, marked end-of-chain and zeroed;
    `0` when there is none. -/
def allocCluster (v : Vol) : BlockM Nat := allocFrom v (clusterLimit v - 2) 2

/-- The loop of `free_chain`. -/
def freeChainFrom (v : Vol) : Nat → Nat → BlockM Unit
  | 0, _ => pure ()
  | n + 1, c => do
      if validDataCluster v c then
        let next ← fatGet v c
        let _ ← fatSet v c 0
        fsinfoAdjust v 1 c
        if isEoc v next ∨ next < 2 then pure () else freeChainFrom v n next
      else pure ()

/-- `free_chain`.  A cluster already visited reads back as free and ends the
    loop, so `cluster_count + 1` rounds always suffice. -/
def freeChain (v : Vol) (c : Nat) : BlockM Unit := freeChainFrom v (v.clusterCount + 1) c

/-! ## Directories -/

/-- The `while (skip--)` walk of `dir_location`. -/
def skipClusters (v : Vol) : Nat → Nat → BlockM (Option Nat)
  | 0, c => pure (some c)
  | n + 1, c => do
      let next ← fatGet v c
      if isEoc v next ∨ next < 2 then pure none else skipClusters v n next

/-- Entries per cluster of a directory. -/
def perCluster (v : Vol) : Nat := v.sectorsPerCluster * 16

/-- `dir_location`: the sector and byte offset of entry `index`. -/
def dirLocation (v : Vol) (dir index : Nat) : BlockM (Option (Nat × Nat)) := do
  if dir = 0 ∧ v.type ≠ .fat32 then
    if v.rootEntries ≤ index then pure none
    else
      pure (some (u32 (v.reservedSectors + v.fatCount * v.fatSize + index / 16), index % 16 * 32))
  else
    match ← skipClusters v (index / perCluster v) (if dir = 0 then v.rootCluster else dir) with
    | none => pure none
    | some c =>
      let within := index % perCluster v
      pure (some (u32 (clusterSector v c + within / 16), within % 16 * 32))

/-- The entry at byte `offset` of a sector. -/
def entryAt (s : Sector) (offset : Nat) : Entry := fun i => s (offset + i.val)

/-- The sector with `e` copied to byte `offset`. -/
def putEntry (s : Sector) (offset : Nat) (e : Entry) : Sector :=
  fun i => if offset ≤ i ∧ i < offset + 32 then e (Fin.ofNat 32 (i - offset)) else s i

/-- `dir_read`. -/
def dirRead (v : Vol) (dir index : Nat) : BlockM (Option Entry) := do
  match ← dirLocation v dir index with
  | none => pure none
  | some (sector, offset) =>
    match ← readSector sector with
    | none => pure none
    | some sec => pure (some (entryAt sec offset))

/-- `dir_write`. -/
def dirWrite (v : Vol) (dir index : Nat) (e : Entry) : BlockM Bool := do
  match ← dirLocation v dir index with
  | none => pure false
  | some (sector, offset) =>
    match ← readSector sector with
    | none => pure false
    | some sec => writeSector sector (putEntry sec offset e)

/-- The scan of `find_entry` from index `i` on, `n` entries left. -/
def findFrom (v : Vol) (dir : Nat) (name : CString) :
    Nat → Nat → BlockM (Option (Entry × Nat))
  | 0, _ => pure none
  | n + 1, i => do
      match ← dirRead v dir i with
      | none => pure none
      | some e =>
        if e 0 = 0 then pure none
        else if skipped e then findFrom v dir name n (i + 1)
        else if nameMatch e name then pure (some (e, i))
        else findFrom v dir name n (i + 1)

/-- `find_entry`. -/
def findEntry (v : Vol) (dir : Nat) (name : CString) : BlockM (Option (Entry × Nat)) :=
  findFrom v dir name maxDirEntries 0

/-- The `while (1)` walk of `free_entry_index` to the last cluster of a chain. -/
def lastCluster (v : Vol) : Nat → Nat → BlockM (Option Nat)
  | 0, _ => pure none
  | n + 1, c => do
      let next ← fatGet v c
      if isEoc v next then pure (some c)
      else if next < 2 then pure none
      else lastCluster v n next

/-- More rounds than a walk along the table can take without returning to a
    cluster, table values having 28 bits. -/
def walkFuel : Nat := 2 ^ 28 + 2

/-- Grows a directory by one cluster.  The walk may go round in circles; the
    source then never returns, and the result here is a failure. -/
def growDirectory (v : Vol) (dir : Nat) : BlockM Bool := do
  match ← lastCluster v walkFuel (if dir = 0 then v.rootCluster else dir) with
  | none => pure false
  | some c =>
    let added ← allocCluster v
    if added = 0 then pure false else fatSet v c added

/-- The scan of `free_entry_index` from index `i` on, `n` entries left. -/
def freeIndexFrom (v : Vol) (dir : Nat) : Nat → Nat → BlockM (Option Nat)
  | 0, _ => pure none
  | n + 1, i => do
      match ← dirRead v dir i with
      | none =>
        -- FAT32 roots and all subdirectories are cluster chains and can grow
        if dir = 0 ∧ v.type ≠ .fat32 then pure none
        else if ← growDirectory v dir then pure (some i) else pure none
      | some e =>
        if e 0 = 0 ∨ e 0 = 0xE5 then pure (some i) else freeIndexFrom v dir n (i + 1)

/-- `free_entry_index`. -/
def freeEntryIndex (v : Vol) (dir : Nat) : BlockM (Option Nat) :=
  freeIndexFrom v dir maxDirEntries 0

/-! ## Mounting -/

/-- The fields `mount_drive` reads: the `fat_bpb_t` prefix of the boot sector and
    the FAT32 words it takes from the raw bytes behind it. -/
structure Bpb where
  bytesPerSector : Nat
  sectorsPerCluster : Nat
  reservedSectors : Nat
  fatCount : Nat
  rootEntries : Nat
  total16 : Nat
  fat16Size : Nat
  total32 : Nat
  fat32Size : Nat
  rootCluster32 : Nat
  fsinfo : Nat
  backupBoot : Nat

def readBpb (s : Sector) : Bpb where
  bytesPerSector := le16 (s 11) (s 12)
  sectorsPerCluster := (s 13).toNat
  reservedSectors := le16 (s 14) (s 15)
  fatCount := (s 16).toNat
  rootEntries := le16 (s 17) (s 18)
  total16 := le16 (s 19) (s 20)
  fat16Size := le16 (s 22) (s 23)
  total32 := get32 s 32
  fat32Size := get32 s 36
  rootCluster32 := get32 s 44 % 2 ^ 28
  fsinfo := le16 (s 48) (s 49)
  backupBoot := le16 (s 50) (s 51)

namespace Bpb

variable (b : Bpb)

def totalSectors : Nat := if b.total16 ≠ 0 then b.total16 else b.total32
def fatSize : Nat := if b.fat16Size ≠ 0 then b.fat16Size else b.fat32Size
def rootSectors : Nat := (b.rootEntries * 32 + 511) / 512
def firstData : Nat := u32 (b.reservedSectors + b.fatCount * b.fatSize + b.rootSectors)
def clusterCount : Nat := (b.totalSectors - b.firstData) / b.sectorsPerCluster

/-- The FAT type is a function of the cluster count alone. -/
def type : FatType :=
  if b.clusterCount < 4085 then .fat12 else if b.clusterCount < 65525 then .fat16 else .fat32

def rootCluster : Nat := if b.type = .fat32 then b.rootCluster32 else 0

/-- The geometry checks of `mount_drive`. -/
def accepted : Bool :=
  b.bytesPerSector == 512 && b.sectorsPerCluster != 0 && b.fatCount != 0 &&
    b.reservedSectors != 0 && b.fatSize != 0 && decide (b.firstData < b.totalSectors) &&
    !(b.type == .fat32 && decide (b.rootCluster < 2))

/-- The static variables after a successful mount. -/
def toVol (drive : Nat) (cwd : Nat → UInt8) : Vol where
  type := b.type
  sectorsPerCluster := b.sectorsPerCluster
  reservedSectors := b.reservedSectors
  fatCount := b.fatCount
  rootEntries := b.rootEntries
  totalSectors := b.totalSectors
  fatSize := b.fatSize
  rootSectors := b.rootSectors
  firstData := b.firstData
  clusterCount := b.clusterCount
  rootCluster := b.rootCluster
  fsinfoSector := if b.type = .fat32 then b.fsinfo else 0
  backupBootSector := if b.type = .fat32 then b.backupBoot else 0
  currentCluster := b.rootCluster
  mountedDrive := drive
  cwd := fun i => if i = 0 then 47 else if i = 1 then 0 else cwd i

end Bpb

/-- `mount_drive` on the boot sector it has read; `none` for `-1`. -/
def mountSector (drive : Nat) (s : Sector) (cwd : Nat → UInt8) : Option Vol :=
  if s 510 = 0x55 ∧ s 511 = 0xAA ∧ (readBpb s).accepted then
    some ((readBpb s).toVol drive cwd)
  else none

/-! ## File operations -/

/-- What `fat_read` leaves behind: its result, the store to `*size` if there was
    one, the bytes copied to the buffer, and (for the proofs only) the clusters
    those bytes came from, in order. -/
structure ReadResult where
  ret : Bool
  size : Option Nat
  buffer : List UInt8
  clusters : List Nat

/-- The sector loop of `fat_read` inside cluster `c`, `n` sectors left. -/
def readCluster (v : Vol) (c size : Nat) :
    Nat → Nat → Nat → List UInt8 → BlockM (Option (Nat × List UInt8))
  | 0, _, done, buf => pure (some (done, buf))
  | n + 1, s, done, buf => do
      if done < size then
        match ← readSector (u32 (clusterSector v c + s)) with
        | none => pure none
        | some sec =>
          let m := min (size - done) 512
          readCluster v c size n (s + 1) (done + m) (buf ++ (List.range m).map sec)
      else pure (some (done, buf))

/-- The cluster loop of `fat_read` with its cycle check: the walk is compared
    with `anchor`, which moves up to the current cluster each time `length`
    steps reach the doubling `power`. -/
def readLoop (v : Vol) (size : Nat) :
    Nat → Nat → Nat → List UInt8 → Nat → Nat → Nat → List Nat → BlockM ReadResult
  | 0, _, done, buf, _, _, _, seen => pure ⟨false, some done, buf, seen⟩
  | n + 1, c, done, buf, anchor, power, length, seen => do
      if done < size then
        if !validDataCluster v c then pure ⟨false, some done, buf, seen⟩
        else
          match ← readCluster v c size v.sectorsPerCluster 0 done buf with
          | none => pure ⟨false, none, buf, seen ++ [c]⟩
          | some (done, buf) =>
            if done < size then
              match ← checkedNext v c with
              | none => pure ⟨false, some done, buf, seen ++ [c]⟩
              | some (next, terminal) =>
                if terminal then pure ⟨false, some done, buf, seen ++ [c]⟩
                else if next = anchor then pure ⟨false, some done, buf, seen ++ [c]⟩
                else if u32 (length + 1) = power then
                  readLoop v size n next done buf next (u32 (power * 2)) 0 (seen ++ [c])
                else
                  readLoop v size n next done buf anchor power (u32 (length + 1)) (seen ++ [c])
            else readLoop v size n c done buf anchor power length (seen ++ [c])
      else pure ⟨done == size, some done, buf, seen⟩

/-- `fat_read` of `name` in the current directory.  Each round of the cluster
    loop copies at least one byte, so `size + 1` rounds suffice. -/
def fatRead (v : Vol) (name : CString) (maxSize : Nat) : BlockM ReadResult := do
  if v.type = .none then pure ⟨false, none, [], []⟩
  else
    match ← findEntry v v.currentCluster name with
    | none => pure ⟨false, none, [], []⟩
    | some (e, _) =>
      if e.isDirectory then pure ⟨false, none, [], []⟩
      else if maxSize < e.size then pure ⟨false, some e.size, [], []⟩
      else
        let c := entryCluster v e
        readLoop v e.size (e.size + 1) c 0 [] c 1 0 []

/-- The sector of file data that starts at byte `off`, padded with zeros. -/
def dataSector (data : List UInt8) (off : Nat) : Sector := fun i => data.getD (off + i) 0

/-- The sector loop of `fat_create` inside cluster `c`, `n` sectors left. -/
def writeCluster (v : Vol) (c : Nat) (data : List UInt8) :
    Nat → Nat → Nat → BlockM (Option Nat)
  | 0, _, written => pure (some written)
  | n + 1, s, written => do
      if written < data.length then
        if ← writeSector (u32 (clusterSector v c + s)) (dataSector data written) then
          writeCluster v c data n (s + 1) (written + min (data.length - written) 512)
        else pure none
      else pure (some written)

/-- The cluster loop of `fat_create`; on any failure the clusters linked so far
    are released.  The result is the first cluster. -/
def createLoop (v : Vol) (data : List UInt8) :
    Nat → Nat → Nat → Nat → BlockM (Option Nat)
  | 0, _, _, _ => pure none
  | n + 1, first, prev, written => do
      if written < data.length ∨ (data.length = 0 ∧ first = 0) then
        let c ← allocCluster v
        if c = 0 then
          freeChain v first
          pure none
        else
          let first := if first = 0 then c else first
          let linked ← if prev ≠ 0 then fatSet v prev c else pure true
          if !linked then
            freeChain v first
            pure none
          else
            match ← writeCluster v c data v.sectorsPerCluster 0 written with
            | none =>
              freeChain v first
              pure none
            | some written => createLoop v data n first c written
      else pure (some first)

/-- The second half of `fat_create`: the data is written to a fresh chain, then
    the entry pointing to it is stored at `index`. -/
def createAt (v : Vol) (e : Entry) (index : Nat) (data : List UInt8) : BlockM Bool := do
  match ← createLoop v data (data.length + 2) 0 0 0 with
  | none => pure false
  | some first =>
    dirWrite v v.currentCluster index (setEntrySize (setEntryCluster v e first) data.length)

/-- `fat_create`. -/
def fatCreate (v : Vol) (name : CString) (data : List UInt8) : BlockM Bool := do
  if v.type = .none ∨ name.chars = [] then pure false
  else
    match ← findEntry v v.currentCluster name with
    | some (e, index) =>
      if e.isDirectory then pure false
      else
        freeChain v (entryCluster v e)
        createAt v e index data
    | none =>
      match ← freeEntryIndex v v.currentCluster with
      | none => pure false
      | some index => createAt v (freshEntry (makeSfn name) 0x20) index data

/-- `fat_delete`. -/
def fatDelete (v : Vol) (name : CString) : BlockM Bool := do
  match ← findEntry v v.currentCluster name with
  | none => pure false
  | some (e, i) =>
    if e.isDirectory then pure false
    else
      freeChain v (entryCluster v e)
      dirWrite v v.currentCluster i (markDeleted e)

/-- A line of `fat_list`: the fields of `fs_file_info_t` that it fills. -/
structure FileInfo where
  name : List UInt8
  size : Nat
  isDirectory : Bool

/-- The printable name: the base up to the first space, then for a file the
    extension behind a dot. -/
def Entry.fileInfo (e : Entry) : FileInfo where
  name := (e.sfn.take 8).takeWhile (· != 32) ++
    if !e.isDirectory && e 8 != 32 then 46 :: (e.sfn.drop 8).takeWhile (· != 32) else []
  size := e.size
  isDirectory := e.isDirectory

/-- The scan of `fat_list` from entry `i` on, `n` entries left. -/
def listFrom (v : Vol) : Nat → Nat → BlockM (List FileInfo)
  | 0, _ => pure []
  | n + 1, i => do
      match ← dirRead v v.currentCluster i with
      | none => pure []
      | some e =>
        if e 0 = 0 then pure []
        else if skipped e then listFrom v n (i + 1)
        else do
          let rest ← listFrom v n (i + 1)
          pure (Entry.fileInfo e :: rest)

/-- `fat_list`. -/
def fatList (v : Vol) : BlockM (List FileInfo) := listFrom v maxDirEntries 0

/-- The name field of the `.` entry. -/
def dotName : List UInt8 := [46, 32, 32, 32, 32, 32, 32, 32, 32, 32, 32]

/-- The name field of the `..` entry. -/
def dotDotName : List UInt8 := [46, 46, 32, 32, 32, 32, 32, 32, 32, 32, 32]

/-- `fat_mkdir`. -/
def fatMkdir (v : Vol) (name : CString) : BlockM Bool := do
  if name.chars = [] then pure false
  else
    match ← findEntry v v.currentCluster name with
    | some _ => pure false
    | none =>
      let index ← freeEntryIndex v v.currentCluster
      let c ← allocCluster v
      match index with
      | none => pure false
      | some index =>
        if c = 0 then pure false
        else
          let e := setEntryCluster v (freshEntry (makeSfn name) 0x10) c
          let dot := setEntryCluster v (freshEntry dotName 0x10) c
          let _ ← dirWrite v c 0 dot
          let parent := if v.currentCluster = v.rootCluster then 0 else v.currentCluster
          let dotDot := setEntryCluster v (freshEntry dotDotName 0x10) parent
          let _ ← dirWrite v c 1 dotDot
          dirWrite v v.currentCluster index e

/-- The emptiness scan of `fat_rmdir` from entry `j` on, `n` entries left. -/
def emptyFrom (v : Vol) (c : Nat) : Nat → Nat → BlockM Bool
  | 0, _ => pure true
  | n + 1, j => do
      match ← dirRead v c j with
      | none => pure true
      | some x =>
        if x 0 = 0 then pure true
        else if x 0 ≠ 0xE5 then pure false
        else emptyFrom v c n (j + 1)

/-- `fat_rmdir`; entries 0 and 1 are taken to be the dot entries. -/
def fatRmdir (v : Vol) (name : CString) : BlockM Bool := do
  match ← findEntry v v.currentCluster name with
  | none => pure false
  | some (e, i) =>
    if !e.isDirectory then pure false
    else
      let c := entryCluster v e
      if ← emptyFrom v c (maxDirEntries - 2) 2 then
        freeChain v c
        dirWrite v v.currentCluster i (markDeleted e)
      else pure false

/-! ## The current directory -/

/-- `strlen` on the path buffer; the terminator is at most one past its end. -/
def strlenFrom (s : Nat → UInt8) : Nat → Nat → Nat
  | 0, i => i
  | n + 1, i => if s i = 0 then i else strlenFrom s n (i + 1)

/-- `strlen(cwd)`. -/
def cwdLen (s : Nat → UInt8) : Nat := strlenFrom s fsMaxFilename 0

/-- Cuts characters off the end of the path while `p` holds of the last one and
    more than the leading slash is left. -/
def trimWhile (p : UInt8 → Bool) : Nat → (Nat → UInt8) → (Nat → UInt8) × Nat
  | 0, s => (s, 0)
  | n + 1, s =>
    if 0 < n ∧ p (s n) then trimWhile p n (setByte s n 0) else (s, n + 1)

/-- The path after `chdir("..")`. -/
def cwdUp (s : Nat → UInt8) : Nat → UInt8 :=
  let (s, n) := trimWhile (· == 47) (cwdLen s) s
  (trimWhile (· != 47) n s).1

/-- Appends name characters at `n` while they fit, then the terminator. -/
def appendChars : List UInt8 → (Nat → UInt8) → Nat → (Nat → UInt8)
  | [], s, n => setByte s n 0
  | c :: cs, s, n =>
    if n < fsMaxFilename - 1 then appendChars cs (setByte s n c) (n + 1) else setByte s n 0

/-- The path after `chdir(name)`. -/
def cwdDown (s : Nat → UInt8) (name : CString) : Nat → UInt8 :=
  let n := cwdLen s
  if 1 < n ∧ s (n - 1) ≠ 47 then appendChars name.chars (setByte s n 47) (n + 1)
  else appendChars name.chars s n

/-- The root directory's handle. -/
def rootDir (v : Vol) : Nat := if v.type = .fat32 then v.rootCluster else 0

/-- `fat_chdir`: the new static variables, or `none` for `-1`. -/
def fatChdir (v : Vol) (name : CString) : BlockM (Option Vol) := do
  if name.chars = [] ∨ name.chars = [47] then
    pure (some { v with
      currentCluster := rootDir v
      cwd := fun i => if i = 0 then 47 else if i = 1 then 0 else v.cwd i })
  else if name.chars = [46, 46] then
    if v.currentCluster = rootDir v then pure (some v)
    else
      match ← dirRead v v.currentCluster 1 with
      | none => pure none
      | some e =>
        let p := entryCluster v e
        pure (some { v with
          currentCluster := if p ≠ 0 then p else rootDir v
          cwd := cwdUp v.cwd })
  else
    match ← findEntry v v.currentCluster name with
    | none => pure none
    | some (e, _) =>
      if !e.isDirectory then pure none
      else
        pure (some { v with
          currentCluster := entryCluster v e
          cwd := cwdDown v.cwd name })

/-! ## Free space -/

/-- The count of `fat_get_disk_info` from cluster `c` on, `n` clusters left. -/
def countFree (v : Vol) : Nat → Nat → BlockM Nat
  | 0, _ => pure 0
  | n + 1, c => do
      let free := if (← fatGet v c) = 0 then 1 else 0
      let rest ← countFree v n (c + 1)
      pure (free + rest)

/-- `fat_get_disk_info`: total, used and free kilobytes. -/
def fatGetDiskInfo (v : Vol) : BlockM (Nat × Nat × Nat) := do
  let free ← countFree v (clusterLimit v - 2) 2
  let bytes := v.sectorsPerCluster * 512
  let totalKb := u32 (v.clusterCount * bytes) / 1024
  let freeKb := u32 (free * bytes) / 1024
  pure (totalKb, u32 (totalKb + (2 ^ 32 - freeKb)), freeKb)

/-! ## The calls of the driver -/

/-- The operations of the driver with their arguments. -/
inductive Call where
  | read (name : CString) (maxSize : Nat)
  | create (name : CString) (data : List UInt8)
  | delete (name : CString)
  | list
  | mkdir (name : CString)
  | rmdir (name : CString)
  | chdir (name : CString)
  | getDiskInfo

/-- What a call returns. -/
def Call.Result : Call → Type
  | .read _ _ => ReadResult
  | .create _ _ => Bool
  | .delete _ => Bool
  | .list => List FileInfo
  | .mkdir _ => Bool
  | .rmdir _ => Bool
  | .chdir _ => Option Vol
  | .getDiskInfo => Nat × Nat × Nat

/-- The program of a call. -/
def Call.program (v : Vol) : (call : Call) → BlockM call.Result
  | .read name maxSize => fatRead v name maxSize
  | .create name data => fatCreate v name data
  | .delete name => fatDelete v name
  | .list => fatList v
  | .mkdir name => fatMkdir v name
  | .rmdir name => fatRmdir v name
  | .chdir name => fatChdir v name
  | .getDiskInfo => fatGetDiskInfo v

end FatDriver
