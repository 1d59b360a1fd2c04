import AoOs.FatTree

/-! # Volumes without directories

    A volume with a fixed root directory that holds nothing but empty files is sound: there
    is one directory, and no entry owns a cluster.  A freshly formatted disk is one. -/

namespace FatFresh

open BlockIO FatTypes FatDriver FatRegions FatImage FatDirs FatScan FatTree Nibbles Relation

variable {i : Nat}

/-- The root directory is fixed, and its named entries are files without clusters. -/
structure Flat (v : Vol) (I : Image) : Prop where
  fixed : v.type ≠ .fat32
  files : ∀ {i e}, Area.fixed.slot v I i = some e → Named e →
    e.isDirectory = false ∧ entryCluster v e = 0 ∧ e.size = 0
  ends : ∀ {i j e e'}, Area.fixed.slot v I i = some e → e 0 = 0 → i ≤ j →
    Area.fixed.slot v I j = some e' → ¬ Live e'
  names : ∀ {i j e e'}, Area.fixed.slot v I i = some e → Area.fixed.slot v I j = some e' →
    Live e → Live e' → e.sfn = e'.sfn → i = j

section Flat

variable {v : Vol} {I : Image} (hf : Flat v I)

include hf

theorem Flat.isDir {h : Nat} (hh : IsDir v I h) : Locates v I h .fixed := by
  have hroot : Locates v I (rootDir v) .fixed := ⟨if_neg hf.fixed, hf.fixed⟩
  induction hh with
  | refl => exact hroot
  | tail _ hc ih =>
    obtain ⟨i, e, he, hd, _⟩ := hc
    rw [(hf.files (he.slot ih) he.named).1] at hd
    cases hd

/-- No entry has a chain. -/
theorem Flat.unowned {o : Option (Nat × Nat)} {l : List Nat} : ¬ Owns v I o l := by
  cases o with
  | none => exact fun h => hf.fixed h.1
  | some p =>
    rintro ⟨hh, e, he, hl⟩
    exact chain_head_ne_zero hl (hf.files (he.slot (hf.isDir hh)) he.named).2.1

theorem Flat.sound : Sound v I where
  rootChain := fun h => absurd h hf.fixed
  dirChain := fun hh he hd => by
    rw [(hf.files (he.slot (hf.isDir hh)) he.named).1] at hd
    cases hd
  fileChain := fun hh he _ => .inl (hf.files (he.slot (hf.isDir hh)) he.named).2
  disjoint := fun ho => absurd ho hf.unowned
  ends := fun hh hA hx h0 hij hy => by
    obtain rfl := hA.unique (hf.isDir hh)
    exact hf.ends hx h0 hij hy
  names := fun hh hA _ _ hx hy => by
    obtain rfl := hA.unique (hf.isDir hh)
    exact hf.names hx hy
  dots := fun hh hc => by
    obtain ⟨e, he, hd, _⟩ := hc
    rw [(hf.files (he.slot (hf.isDir hh)) he.named).1] at hd
    cases hd

end Flat

theorem flat_of_dead {v : Vol} {I : Image} (ht : v.type ≠ .fat32)
    (hdead : ∀ {i e}, Area.fixed.slot v I i = some e → ¬ Live e) : Flat v I :=
  ⟨ht, fun he hn => absurd hn.1 (hdead he), fun _ _ _ he => hdead he,
    fun he _ hl => absurd hl (hdead he)⟩

/-! ## A disk of 40 sectors

    FAT12 with two copies of the table, as a formatter leaves it. -/

def freshDisk : Disk := fun a =>
  if a = 12 then 2 else if a = 13 then 1 else if a = 14 then 1 else if a = 16 then 2
  else if a = 17 then 16 else if a = 19 then 40 else if a = 21 then 0xF8 else if a = 22 then 1
  else if a = 510 then 0x55 else if a = 511 then 0xAA
  -- the first two entries of both copies
  else if a = 512 ∨ a = 1024 then 0xF8
  else if a = 513 ∨ a = 514 ∨ a = 1025 ∨ a = 1026 then 0xFF
  else 0

def freshVol : Vol := (readBpb (freshDisk.sector 0)).toVol 0 (fun _ => 0)

theorem freshVol_mounted : mountSector 0 (freshDisk.sector 0) (fun _ => 0) = some freshVol :=
  if_pos (by decide)

theorem freshVol_numbered : Numbered freshVol where
  mounted := .of_mountSector freshVol_mounted
  fits := by decide
  holds := by rw [FatHolds]; decide
  small := by decide

theorem freshDisk_zero {a : Nat} (h : 515 ≤ a) (h1 : a < 1024 ∨ 1027 ≤ a) : freshDisk a = 0 := by
  rw [freshDisk]
  repeat rw [if_neg (by omega)]

theorem freshDisk_root (o : Nat) : (image freshVol freshDisk).root o = 0 := by
  by_cases ho : o / 512 < freshVol.rootSectors
  · exact (if_pos ho).trans (freshDisk_zero (by show 515 ≤ 512 * 3 + o; omega)
      (.inr (by show 1027 ≤ 512 * 3 + o; omega)))
  · exact if_neg ho

theorem freshVol_type : freshVol.type = .fat12 := by decide

theorem freshVol_fat12 : freshVol.type ≠ .fat32 := by
  rw [freshVol_type]
  decide

/-- The root directory has no entries. -/
theorem freshDisk_dead {e : Entry}
    (he : Area.fixed.slot freshVol (image freshVol freshDisk) i = some e) : ¬ Live e := by
  rw [Area.slot] at he
  split at he
  · cases he
    exact fun hl => hl.1 (freshDisk_root _)
  · cases he

theorem freshVol_flat : Flat freshVol (image freshVol freshDisk) :=
  flat_of_dead freshVol_fat12 freshDisk_dead

/-- The fixed root directory has 16 slots. -/
theorem freshVol_slot_lt {I : Image} {j : Nat} {e : Entry}
    (h : Area.fixed.slot freshVol I j = some e) : j < 16 := by
  rw [Area.slot] at h
  split at h
  · assumption
  · cases h

theorem Flat.short_freshVol {I : Image} (hf : Flat freshVol I) : Short freshVol I := by
  intro h A j e hh hA hx _
  obtain rfl := hA.unique (hf.isDir hh)
  exact Nat.lt_trans (freshVol_slot_lt hx) (by decide)

/-- No cluster is in use when the table is empty. -/
theorem freshVol_free {d : Disk} (hd : ∀ a, 515 ≤ a → a < 1536 → a < 1024 ∨ 1027 ≤ a → d a = 0)
    (i c : Nat) : (image freshVol d).tab i c = 0 := by
  by_cases hic : i < freshVol.fatCount ∧ validDataCluster freshVol c
  · refine (if_pos hic).trans ?_
    have hi : i < 2 := hic.1
    obtain ⟨h2, hc⟩ := (freshVol_numbered.valid_iff c).mp hic.2
    have hcount : freshVol.clusterCount = 36 := by decide
    have hbase : copyBase freshVol i = 1 + i := by
      rw [copyBase, show freshVol.reservedSectors = 1 from rfl, show freshVol.fatSize = 1 from rfl,
        Nat.mul_one]
    rw [entry, freshVol_type, hbase, entryNib12 (1 + i) (by omega), field_eq_zero_iff]
    intro k hk
    have hk' : k < 3 := hk
    rw [nib, hd _ (by omega) (by omega) (by omega)]
    split <;> rfl
  · exact if_neg hic

theorem freshDisk_free (c : Nat) : (image freshVol freshDisk).val c = 0 :=
  freshVol_free (fun _ h _ h' => freshDisk_zero h h') 0 c

/-! ## A full root directory -/

/-- The entry of an empty file with a name of one letter. -/
def letterEntry (i : Nat) : Entry := fun j =>
  if j = 0 then UInt8.ofNat (65 + i) else if j.val < 11 then 32 else if j = 11 then 0x20 else 0

/-- The disk with files `A` to `P` in the root directory. -/
def fullDisk : Disk := fun a =>
  if 1536 ≤ a ∧ a < 2048 then letterEntry ((a - 1536) / 32) (Fin.ofNat 32 a) else freshDisk a

theorem fullDisk_low {a : Nat} (h : a < 1536) : fullDisk a = freshDisk a := if_neg (by omega)

theorem fullDisk_slot (hi : i < 16) :
    Area.fixed.slot freshVol (image freshVol fullDisk) i = some (letterEntry i) := by
  refine (if_pos hi).trans (congrArg some (funext fun j => ?_))
  have hj := j.isLt
  refine (if_pos (show (32 * i + j.val) / 512 < 1 by omega)).trans ?_
  show fullDisk (512 * 3 + (32 * i + j.val)) = _
  rw [fullDisk, if_pos ⟨by omega, by omega⟩,
    show (512 * 3 + (32 * i + j.val) - 1536) / 32 = i by omega]
  exact congrArg _ (Fin.ext (by show _ % 32 = _; omega))

theorem letterEntry_attr (i : Nat) : (letterEntry i).attr = 0x20 := by
  rw [Entry.attr, letterEntry, if_neg (by decide), if_neg (by decide), if_pos rfl]
  rfl

theorem letterEntry_tail (i : Nat) {j : Fin 32} (hj : 11 < j) : letterEntry i j = 0 := by
  have h0 : (0 : Fin 32) < j := Fin.lt_trans (by decide) hj
  rw [letterEntry, if_neg (Fin.ne_of_gt h0), if_neg (by omega), if_neg (Fin.ne_of_gt hj)]

theorem letterEntry_live (hi : i < 16) : Live (letterEntry i) ∧ Used (letterEntry i) := by
  have key : ∀ i : Fin 16, UInt8.ofNat (65 + i.val) ≠ 0 ∧ UInt8.ofNat (65 + i.val) ≠ 0xE5 := by
    decide
  obtain ⟨h0, h1⟩ := key ⟨i, hi⟩
  refine ⟨⟨h0, ?_⟩, h0, h1⟩
  rw [skipped, beq_eq_false_iff_ne.mpr (show letterEntry i 0 ≠ 0xE5 from h1), Entry.isVolumeId,
    letterEntry_attr]
  decide

theorem fullDisk_flat : Flat freshVol (image freshVol fullDisk) where
  fixed := freshVol_fat12
  files := fun he _ => by
    rw [fullDisk_slot (freshVol_slot_lt he)] at he
    cases he
    refine ⟨by rw [Entry.isDirectory, letterEntry_attr]; decide, ?_, ?_⟩
    · rw [entryCluster, if_neg freshVol_fat12, letterEntry_tail, letterEntry_tail] <;> decide
    · rw [Entry.size, letterEntry_tail, letterEntry_tail, letterEntry_tail, letterEntry_tail] <;>
        decide
  ends := fun {i j e e'} he h0 _ _ => by
    have hi := freshVol_slot_lt he
    rw [fullDisk_slot hi] at he
    exact absurd (Option.some.inj he ▸ h0) (letterEntry_live hi).1.1
  names := fun {i j e e'} he he' _ _ hsfn => by
    have hi := freshVol_slot_lt he
    have hj := freshVol_slot_lt he'
    rw [fullDisk_slot hi] at he
    rw [fullDisk_slot hj] at he'
    cases he
    cases he'
    have key : ∀ i j : Fin 16, UInt8.ofNat (65 + i.val) = UInt8.ofNat (65 + j.val) → i = j := by
      decide
    exact congrArg Fin.val (key ⟨i, hi⟩ ⟨j, hj⟩ (List.cons.inj hsfn).1)

theorem fullDisk_free (c : Nat) : (image freshVol fullDisk).val c = 0 :=
  freshVol_free (fun _ h h1 h2 => (fullDisk_low h1).trans (freshDisk_zero h h2)) 0 c

end FatFresh
