import AoOs.FatRoundTrip
import AoOs.MountTable
import AoOs.RamfsListing

/-! # Moving a file — `cmd_mv`

    The command reads the source, creates the destination and deletes the source.  Here both
    are below the root mount, with a FAT or a RAM file system there; what `resolve` makes of
    their paths are the names.  The contents survive if the two names denote different
    files and the new name can be found again.  On FAT both are questions about the short
    names: `a.txt` and `A.TXT` are one file, which is written and then deleted.  The RAM file
    system compares whole names, but stores only 31 characters. -/

namespace MoveFile

open BlockIO FatTypes FatDriver FatGeometry FatImage FatDirs FatScan FatTree FatReslot FatEntries
open FatOps FatChange FatContents FatFrame FatRoundTrip FatWellFormed FatFresh FatPaths StepSystem
open Relation
open BlockIO.BlockM (run exec)

variable {other : CString} {e : Entry} {maxSize : Nat}

/-! ## The command -/

/-- The root file system. -/
inductive Root where
  | fat (v : Vol) (d : Disk)
  | ram (s : Ramfs.State)

namespace Root

/-- `read` of the root's operations; `none` for -1. -/
def read (r : Root) (name : CString) (maxSize : Nat) : Option (List UInt8) :=
  match r with
  | .fat v d =>
    if (exec (fatRead v name maxSize) d).1.ret then
      some (exec (fatRead v name maxSize) d).1.buffer
    else none
  | .ram s => (Ramfs.ramfsRead s name maxSize).toOption

/-- `create`, and whether it returned 0. -/
def create (r : Root) (name : CString) (data : List UInt8) : Root × Bool :=
  match r with
  | .fat v d => (.fat v (exec (fatCreate v name data) d).2, (exec (fatCreate v name data) d).1)
  | .ram s => (.ram (Ramfs.ramfsCreate s name data).1, (Ramfs.ramfsCreate s name data).2)

/-- `delete`. -/
def delete (r : Root) (name : CString) : Root :=
  match r with
  | .fat v d => .fat v (exec (fatDelete v name) d).2
  | .ram s => .ram (Ramfs.ramfsDelete s name).1

end Root

/-- The table sends the path to the operations of the root mount, as `name`. -/
def AtRoot (mounts : List Vfs.Mount) (path name : CString) : Prop :=
  ∃ m ∈ mounts.head?, Vfs.resolve mounts path = some (m.ops, name)

/-- `fs_read` of a path to the root. -/
def fsRead (mounts : List Vfs.Mount) (r : Root) (path : CString) (maxSize : Nat) :
    Option (List UInt8) :=
  (Vfs.resolve mounts path).bind fun (_, name) => r.read name maxSize

/-- `fs_create` of a path to the root, and whether it returned 0. -/
def fsCreate (mounts : List Vfs.Mount) (r : Root) (path : CString) (data : List UInt8) :
    Root × Bool :=
  match Vfs.resolve mounts path with
  | none => (r, false)
  | some (_, name) => r.create name data

/-- `fs_delete` of a path to the root. -/
def fsDelete (mounts : List Vfs.Mount) (r : Root) (path : CString) : Root :=
  match Vfs.resolve mounts path with
  | none => r
  | some (_, name) => r.delete name

/-- The slots of a RAM file system with that name, in order. -/
def slotsOf (s : Ramfs.State) (name : CString) : List Ramfs.RamfsFile :=
  s.files.filter (Ramfs.isNamed name)

/-- Behind the first file of that name there is another one, with the same contents. -/
def Twin (s : Ramfs.State) (name : CString) (data : List UInt8) : Prop :=
  (slotsOf s name).tail.head?.map Ramfs.RamfsFile.contents = some data

/-- The new name can be found and is not a name of the old file. -/
def Apart (r : Root) (src dest : CString) (data : List UInt8) : Prop :=
  match r with
  | .fat _ _ => Visible dest ∧ makeSfn src ≠ makeSfn dest
  | .ram s => dest.chars.length < Ramfs.maxFilename ∧ (src.chars ≠ dest.chars ∨ Twin s dest data)

/-! ## FAT -/

section Fat

variable {v : Vol} (hv : Numbered v) {I I' : Image} {D : Nat} {A : Area} {name : CString}
  (hs : Sound v I) (hD : IsDir v I D) (hA : Locates v I D A)

include hv hs hD hA

end Fat

variable {name : CString}

section Ram

open Ramfs SlotMap CStrings
open RamfsListing (Clean Sane)

variable {s : Ramfs.State} {name : CString} {data : List UInt8}

end Ram

/-! ## The command keeps the file -/

/-- On a path to the root, the calls are those of the root file system. -/
theorem AtRoot.calls {mounts : List Vfs.Mount} {path name : CString} (h : AtRoot mounts path name)
    (r : Root) : (∀ maxSize, fsRead mounts r path maxSize = r.read name maxSize) ∧
      (∀ data, fsCreate mounts r path data = r.create name data) ∧
      fsDelete mounts r path = r.delete name := by
  obtain ⟨m, _, hm⟩ := h
  simp only [fsRead, fsCreate, fsDelete, hm, Option.bind_some, and_self, implies_true]

end MoveFile
