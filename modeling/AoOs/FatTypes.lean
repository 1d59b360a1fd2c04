import AoOs.BlockIO

/-! # The FAT driver's data — volumes, directory entries, short names

    The static variables of `fat.c` are one record, `Vol`: the BPB fields the
    driver reads, the geometry `mount_drive` derives from them, and the current
    directory.  A directory entry is its 32 raw bytes, so that the fields the
    driver never looks at (times, the reserved byte) travel through a
    read-modify-write as they do in C.

    32-bit unsigned arithmetic is `Nat` arithmetic followed by `u32`. -/

namespace FatTypes

/-- Reduction to a `uint32_t`. -/
def u32 (n : Nat) : Nat := n % 2 ^ 32

theorem u32_of_lt {n : Nat} (h : n < 2 ^ 32) : u32 n = n := Nat.mod_eq_of_lt h

/-- A 16-bit little-endian field. -/
def le16 (a b : UInt8) : Nat := a.toNat + 256 * b.toNat

/-- A 32-bit little-endian field. -/
def le32 (a b c e : UInt8) : Nat :=
  a.toNat + 256 * b.toNat + 65536 * c.toNat + 16777216 * e.toNat

/-- Byte `i` of a little-endian number. -/
def byteOf (n i : Nat) : UInt8 := UInt8.ofNat (n / 256 ^ i % 256)

/-- `fat_type_t`. -/
inductive FatType where
  | none
  | fat12
  | fat16
  | fat32
  deriving DecidableEq, Repr

/-- `MAX_DIR_ENTRIES`. -/
def maxDirEntries : Nat := 512

/-- `FS_MAX_FILENAME`, the size of the path buffer. -/
def fsMaxFilename : Nat := 256

/-- The driver's static variables. -/
structure Vol where
  type : FatType
  sectorsPerCluster : Nat
  reservedSectors : Nat
  fatCount : Nat
  rootEntries : Nat
  totalSectors : Nat
  fatSize : Nat
  rootSectors : Nat
  firstData : Nat
  clusterCount : Nat
  rootCluster : Nat
  fsinfoSector : Nat
  backupBootSector : Nat
  currentCluster : Nat
  mountedDrive : Nat
  /-- Memory from the first byte of `cwd` on. -/
  cwd : Nat → UInt8

/-- `eoc_value`. -/
def eocValue (v : Vol) : Nat :=
  match v.type with
  | .fat12 => 0xFFF
  | .fat16 => 0xFFFF
  | _ => 0x0FFFFFFF

/-- The least value `is_eoc` accepts. -/
def eocMin (v : Vol) : Nat :=
  match v.type with
  | .fat12 => 0xFF8
  | .fat16 => 0xFFF8
  | _ => 0x0FFFFFF8

/-- `is_eoc`. -/
def isEoc (v : Vol) (c : Nat) : Bool := eocMin v ≤ c

/-- `cluster_count + 2`, as the unsigned addition computes it. -/
def clusterLimit (v : Vol) : Nat := u32 (v.clusterCount + 2)

/-- `valid_data_cluster`. -/
def validDataCluster (v : Vol) (c : Nat) : Bool := 2 ≤ c && c < clusterLimit v

/-- `cluster_sector`: the first sector of a data cluster.  `c - 2` wraps for
    `c < 2`, as the unsigned subtraction does. -/
def clusterSector (v : Vol) (c : Nat) : Nat :=
  u32 (v.firstData + (c + (2 ^ 32 - 2)) * v.sectorsPerCluster)

/-- Byte offset of a cluster's entry inside one FAT copy. -/
def fatOffset (t : FatType) (c : Nat) : Nat :=
  match t with
  | .fat12 => u32 (c + c / 2)
  | .fat16 => u32 (c * 2)
  | _ => u32 (c * 4)

/-! ## Directory entries -/

/-- A raw `fat_dir_entry_t`: name in bytes 0–7, extension 8–10, attributes 11,
    cluster high 20–21, cluster low 26–27, size 28–31. -/
abbrev Entry := Fin 32 → UInt8

instance entry_nonempty : NeZero 32 := Nat.instNeZeroSucc

def attrDirectory : Nat := 0x10
def attrVolumeId : Nat := 0x08
def attrLfn : Nat := 0x0F

/-- The attribute byte. -/
def Entry.attr (e : Entry) : Nat := (e 11).toNat

/-- `e.attr & ATTR_DIRECTORY`. -/
def Entry.isDirectory (e : Entry) : Bool := e.attr &&& attrDirectory != 0

/-- `e.attr & ATTR_VOLUME_ID`; long-name entries carry this bit too. -/
def Entry.isVolumeId (e : Entry) : Bool := e.attr &&& attrVolumeId != 0

/-- The size field. -/
def Entry.size (e : Entry) : Nat := le32 (e 28) (e 29) (e 30) (e 31)

/-- The 11 bytes of the 8.3 name. -/
def Entry.sfn (e : Entry) : List UInt8 :=
  [e 0, e 1, e 2, e 3, e 4, e 5, e 6, e 7, e 8, e 9, e 10]

/-- `entry_cluster`. -/
def entryCluster (v : Vol) (e : Entry) : Nat :=
  if v.type = .fat32 then le16 (e 26) (e 27) + 65536 * le16 (e 20) (e 21)
  else le16 (e 26) (e 27)

/-- `set_entry_cluster`. -/
def setEntryCluster (v : Vol) (e : Entry) (c : Nat) : Entry := fun i =>
  if i = 26 then byteOf c 0
  else if i = 27 then byteOf c 1
  else if i = 20 then (if v.type = .fat32 then byteOf c 2 else 0)
  else if i = 21 then (if v.type = .fat32 then byteOf c 3 else 0)
  else e i

/-- The store `e.size = n`. -/
def setEntrySize (e : Entry) (n : Nat) : Entry := fun i =>
  if i = 28 then byteOf n 0
  else if i = 29 then byteOf n 1
  else if i = 30 then byteOf n 2
  else if i = 31 then byteOf n 3
  else e i

/-- The store `e.name[0] = 0xE5`. -/
def markDeleted (e : Entry) : Entry := fun i => if i = 0 then 0xE5 else e i

/-- A zeroed entry carrying an 8.3 name and an attribute byte. -/
def freshEntry (sfn : List UInt8) (attr : UInt8) : Entry := fun i =>
  if i.val < 11 then sfn.getD i.val 0 else if i = 11 then attr else 0

/-! ## Short names -/

/-- A C string: its bytes before the terminator, none of which is NUL.  The
    functions that test `!name || !*name` treat a null pointer as the empty
    string, and so does the model. -/
structure CString where
  chars : List UInt8
  noNul : (0 : UInt8) ∉ chars

/-- Upper-casing of one name character. -/
def upcase (c : UInt8) : UInt8 := if 97 ≤ c ∧ c ≤ 122 then c - 32 else c

/-- Space padding to `n` bytes. -/
def padTo (n : Nat) (l : List UInt8) : List UInt8 := l ++ List.replicate (n - l.length) 32

/-- `make_sfn`: up to eight characters before the first dot, the rest of the
    base skipped, then up to three characters after that dot, in upper case and
    padded with spaces.  Further dots are ordinary extension characters. -/
def makeSfn (name : CString) : List UInt8 :=
  padTo 8 (((name.chars.takeWhile (· != 46)).take 8).map upcase) ++
    padTo 3 ((((name.chars.dropWhile (· != 46)).drop 1).take 3).map upcase)

/-- `name_match`. -/
def nameMatch (e : Entry) (name : CString) : Bool := e.sfn == makeSfn name

/-- The test with which the directory scans step over an entry: deleted, long
    name or volume label. -/
def skipped (e : Entry) : Bool :=
  e 0 == 0xE5 || e.attr == attrLfn || e.isVolumeId

end FatTypes
