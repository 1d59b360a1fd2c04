import AoOs.FatGeometry
import AoOs.Nibbles

/-! # The file allocation table as an array of nibble fields

    `fat_get` and `fat_set_copy` in the terms of `Nibbles`: entry `c` of the copy
    that starts at sector `base` is the window of three, four or seven nibbles
    from `entryNib` on.  One lemma says what `fat_get` returns, one what
    `fat_set_copy` stores; which FAT type it is, and whether a FAT12 entry lies
    across two sectors, is not seen outside this file. -/

namespace FatTable

open BlockIO BlockM FatTypes FatDriver FatRead Nibbles

variable {d d' : Disk} {pos c : Nat}

/-- Nibbles of one entry's value. -/
def width : FatType → Nat
  | .fat12 => 3
  | .fat16 => 4
  | _ => 7

/-- The first nibble of entry `c` of the copy at sector `base`. -/
def entryNib (t : FatType) (base c : Nat) : Nat :=
  2 * (512 * base + fatOffset t c) + if t = .fat12 ∧ c % 2 = 1 then 1 else 0

/-- The sectors that hold the entry can be accessed. -/
def Readable (ok : Nat → Bool) (v : Vol) (base c : Nat) : Prop :=
  ok (base + fatOffset v.type c / 512) ∧
  (v.type = .fat12 → fatOffset v.type c % 512 = 511 → ok (base + fatOffset v.type c / 512 + 1))

theorem fatOffset_lt (t : FatType) (c : Nat) : fatOffset t c < 2 ^ 32 := by
  cases t <;> exact Nat.mod_lt _ (by decide)

/-- Entries of sixteen and thirty-two bits do not lie across two sectors. -/
theorem fatOffset_aligned {t : FatType} (c : Nat) : (t = .fat16 → fatOffset t c % 2 = 0) ∧
    (t ≠ .fat12 → t ≠ .fat16 → fatOffset t c % 4 = 0) := by
  constructor
  · rintro rfl
    show c * 2 % 2 ^ 32 % 2 = 0
    omega
  · intro h12 h16
    have h : fatOffset t c = c * 4 % 2 ^ 32 := by
      cases t with
      | none => rfl
      | fat12 => exact absurd rfl h12
      | fat16 => exact absurd rfl h16
      | fat32 => rfl
    omega

/-! ## Stores of single bytes -/

theorem store_same_bytes {lba : Nat} {s : Sector} (h : SameBytes s (d.sector lba)) :
    d.store lba s = d := by
  funext a
  by_cases ha : a / sectorSize = lba
  · rw [Disk.store, if_pos ha, h _ (Nat.mod_lt _ (by decide)), Disk.sector, ← ha,
      Nat.div_add_mod a sectorSize]
  · exact store_other d s ha

/-- A sector stored with one byte replaced. -/
theorem store_setByte (d : Disk) (lba : Nat) (s : Sector) (b : UInt8) (hpos : pos < 512) :
    d.store lba (setByte s pos b) = Function.update (d.store lba s) (512 * lba + pos) b := by
  funext a
  by_cases ha : a = 512 * lba + pos
  · subst ha
    rw [Function.update_self]
    exact (store_same d lba _ hpos).trans (if_pos rfl)
  · rw [Function.update_of_ne ha]
    by_cases hsec : a / sectorSize = lba
    · have hne : a % sectorSize ≠ pos := by
        have := Nat.div_add_mod a sectorSize
        rw [hsec, sectorSize] at this
        rw [sectorSize]
        omega
      rw [Disk.store, Disk.store, if_pos hsec, if_pos hsec, setByte, if_neg hne]
    · rw [store_other d _ hsec, store_other d _ hsec]

/-- Two neighbouring bytes of a sector. -/
theorem store_two (d : Disk) (lba : Nat) (b0 b1 : UInt8) (hpos : pos + 1 < 512) :
    d.store lba (setByte (setByte (d.sector lba) pos b0) (pos + 1) b1) =
      Function.update (Function.update d (512 * lba + pos) b0) (512 * lba + pos + 1) b1 := by
  rw [store_setByte _ _ _ _ hpos, store_setByte _ _ _ _ (by omega), store_same_bytes fun _ _ => rfl]
  rfl

/-- The last byte of a sector and the first of the next. -/
theorem store_across (d : Disk) (lba : Nat) (b0 b1 : UInt8) :
    (d.store (lba + 1) (setByte (d.sector (lba + 1)) 0 b1)).store lba
        (setByte (d.sector lba) 511 b0) =
      Function.update (Function.update d (512 * lba + 511) b0) (512 * lba + 511 + 1) b1 := by
  rw [store_setByte _ _ _ _ (by decide : 511 < 512), store_setByte _ _ _ _ (by decide : 0 < 512),
    store_same_bytes (d := d) fun _ _ => rfl, store_same_bytes, Function.update_comm (by omega)]
  · rfl
  · intro b hb
    have hne : sectorSize * lba + b ≠ 512 * (lba + 1) + 0 := by
      unfold sectorSize at hb ⊢
      omega
    rw [Disk.sector, Disk.sector, Function.update_of_ne hne]

theorem byteOf_toNat (n i : Nat) : (byteOf n i).toNat = n / 256 ^ i % 256 := by
  rw [byteOf, UInt8.toNat_ofNat']
  exact Nat.mod_mod _ _

/-- Two bytes replaced by those of a word. -/
theorem word_update (d : Disk) (a n : Nat) :
    word (Function.update (Function.update d a (byteOf n 0)) (a + 1) (byteOf n 1)) a =
      n % 65536 := by
  have hne : a ≠ a + 1 := by omega
  rw [word, Function.update_of_ne hne, Function.update_self, Function.update_self, byteOf_toNat,
    byteOf_toNat]
  omega

theorem update_two_other (d : Disk) {a b : Nat} (b0 b1 : UInt8) (h0 : b ≠ a) (h1 : b ≠ a + 1) :
    Function.update (Function.update d a b0) (a + 1) b1 b = d b := by
  rw [Function.update_of_ne h1, Function.update_of_ne h0]

/-! ## Reading an entry -/

section Entry

variable {ok : Nat → Bool} {v : Vol} {base : Nat}

/-- Sector numbers of the table do not wrap around. -/
theorem entrySector_eq (hbase : base + 2 ^ 23 < 2 ^ 32) (c : Nat) :
    u32 (base + fatOffset v.type c / 512) = base + fatOffset v.type c / 512 ∧
    u32 (base + fatOffset v.type c / 512 + 1) = base + fatOffset v.type c / 512 + 1 := by
  have := fatOffset_lt v.type c
  exact ⟨u32_of_lt (by omega), u32_of_lt (by omega)⟩

/-- The first sector of an entry that cannot be read is not the one that fails. -/
theorem not_readable_cases (h : ¬ Readable ok v base c)
    (hok : ok (base + fatOffset v.type c / 512)) :
    v.type = .fat12 ∧ fatOffset v.type c % 512 = 511 ∧
      ¬ ok (base + fatOffset v.type c / 512 + 1) := by
  by_contra hcon
  exact h ⟨hok, fun h12 hpos => by_contra fun hno => hcon ⟨h12, hpos, hno⟩⟩

/-- The byte address of an entry, by sector. -/
theorem entryByte_eq (v : Vol) (base c : Nat) : 512 * base + fatOffset v.type c =
      512 * (base + fatOffset v.type c / 512) + fatOffset v.type c % 512 := by
  omega

theorem entryNib_fat12 (h : v.type = .fat12) (base c : Nat) :
    entryNib v.type base c = 2 * (512 * base + fatOffset v.type c) + c % 2 := by
  rw [entryNib]
  by_cases hc : c % 2 = 1
  · rw [if_pos ⟨h, hc⟩, hc]
  · rw [if_neg (fun hh => hc hh.2)]
    omega

theorem entryNib_other (h : v.type ≠ .fat12) (base c : Nat) :
    entryNib v.type base c = 2 * (512 * base + fatOffset v.type c) := by
  rw [entryNib, if_neg (fun hh => h hh.1)]
  rfl

theorem fat12Decode_word (d : Disk) (a c : Nat) :
    fat12Decode c (word d a) = field d 3 (2 * a + c % 2) := by
  rw [fat12Decode]
  by_cases hc : c % 2 = 1
  · rw [if_pos hc, hc, field_high12]
  · rw [if_neg hc, show c % 2 = 0 by omega]
    exact (field_low12 d a).symm

theorem get32_sector (d : Disk) (lba pos : Nat) :
    get32 (d.sector lba) pos = dword d (512 * lba + pos) := by
  rw [get32, dword, word, word, le32]
  simp only [Disk.sector, sectorSize, Nat.add_assoc, Nat.reduceAdd]
  omega

theorem width_other {t : FatType} (h12 : t ≠ .fat12) (h16 : t ≠ .fat16) : width t = 7 := by
  cases t with
  | none => rfl
  | fat12 => exact absurd rfl h12
  | fat16 => exact absurd rfl h16
  | fat32 => rfl

/-- What `fat_get` returns. -/
theorem fatVal_readable (hbase : v.reservedSectors + 2 ^ 23 < 2 ^ 32) (d : Disk)
    (h : Readable ok v v.reservedSectors c) :
    fatVal ok v d c = field d (width v.type) (entryNib v.type v.reservedSectors c) := by
  obtain ⟨hs, hs1⟩ := entrySector_eq (v := v) hbase c
  have hbyte := entryByte_eq v v.reservedSectors c
  rw [fatVal, fatGet, run_bind, run_readSector, hs, if_pos h.1]
  -- the three encodings
  by_cases h12 : v.type = .fat12
  · rw [entryNib_fat12 h12, show width v.type = 3 by rw [h12]; rfl, ← fat12Decode_word]
    by_cases hpos : fatOffset v.type c % 512 = 511
    · simp only [if_pos h12, if_pos hpos]
      rw [run_bind, run_readSector, hs1, if_pos (h.2 h12 hpos)]
      show fat12Decode c (le16 _ _) = _
      rw [hbyte, hpos]
      rfl
    · simp only [if_pos h12, if_neg hpos]
      rw [hbyte]
      rfl
  · rw [entryNib_other h12]
    by_cases h16 : v.type = .fat16
    · simp only [if_neg h12, if_pos h16]
      rw [show width v.type = 4 by rw [h16]; rfl, field_full16, hbyte]
      rfl
    · simp only [if_neg h12, if_neg h16]
      rw [width_other h12 h16, field_low28, hbyte]
      exact congrArg (· % 2 ^ 28) (get32_sector d _ _)

theorem fatVal_unreadable (hbase : v.reservedSectors + 2 ^ 23 < 2 ^ 32) (d : Disk)
    (h : ¬ Readable ok v v.reservedSectors c) : fatVal ok v d c = eocValue v := by
  obtain ⟨hs, hs1⟩ := entrySector_eq (v := v) hbase c
  rw [fatVal, fatGet, run_bind, run_readSector, hs]
  by_cases hok : ok (v.reservedSectors + fatOffset v.type c / 512)
  · obtain ⟨h12, hpos, hno⟩ := not_readable_cases h hok
    rw [if_pos hok]
    simp only [if_pos h12, if_pos hpos]
    rw [run_bind, run_readSector, hs1, if_neg hno]
    rfl
  · rw [if_neg hok]
    rfl

theorem fatVal_lt (hbase : v.reservedSectors + 2 ^ 23 < 2 ^ 32) (d : Disk) (c : Nat) :
    fatVal ok v d c < 2 ^ 28 := by
  by_cases h : Readable ok v v.reservedSectors c
  · rw [fatVal_readable hbase d h]
    refine Nat.lt_of_lt_of_le (field_lt d _ _) ?_
    cases v.type <;> decide
  · rw [fatVal_unreadable hbase d h, eocValue]
    cases v.type <;> decide

/-! ## Writing an entry -/

theorem fat12Encode_word {a value : Nat} (hother : ∀ b, b ≠ a → b ≠ a + 1 → d' b = d b)
    (hw : word d' a = fat12Encode c (word d a) value % 65536) :
    Stored d d' 3 (2 * a + c % 2) value := by
  have hlt := word_lt d a
  rw [fat12Encode] at hw
  by_cases hc : c % 2 = 1
  · rw [if_pos hc, Nat.mod_mod] at hw
    rw [hc]
    exact Stored.high12 hother hw
  · rw [if_neg hc, Nat.mod_eq_of_lt (by omega)] at hw
    rw [show c % 2 = 0 by omega]
    exact Stored.low12 hother hw

/-- Four bytes of a sector replaced by those of a word. -/
theorem store_put32 (d : Disk) (lba : Nat) {n : Nat} (hpos : pos + 3 < 512) (hn : n < 2 ^ 32) :
    dword (d.store lba (put32 (d.sector lba) pos n)) (512 * lba + pos) = n ∧
    ∀ b, b < 512 * lba + pos ∨ 512 * lba + pos + 4 ≤ b →
      d.store lba (put32 (d.sector lba) pos n) b = d b := by
  have hstore : d.store lba (put32 (d.sector lba) pos n) =
      Function.update (Function.update (Function.update (Function.update d
        (512 * lba + pos) (byteOf n 0)) (512 * lba + (pos + 1)) (byteOf n 1))
        (512 * lba + (pos + 2)) (byteOf n 2)) (512 * lba + (pos + 3)) (byteOf n 3) := by
    rw [put32, store_setByte _ _ _ _ hpos, store_setByte _ _ _ _ (by omega),
      store_setByte _ _ _ _ (by omega), store_setByte _ _ _ _ (by omega),
      store_same_bytes fun _ _ => rfl]
  rw [hstore]
  constructor
  · simp [dword, word, Nat.add_assoc, byteOf_toNat]
    omega
  · intro b hb
    rw [Function.update_of_ne (by omega), Function.update_of_ne (by omega),
      Function.update_of_ne (by omega), Function.update_of_ne (by omega)]

/-- What `fat_set_copy` stores, wherever its sector numbers do not wrap around. -/
theorem run_fatSetCopy_fits (hfit : base + fatOffset v.type c / 512 + 1 < 2 ^ 32) (d : Disk)
    (value : Nat) (h : Readable ok v base c) :
    ∃ d', run ok (fatSetCopy v base c value) d = (true, d') ∧
      Stored d d' (width v.type) (entryNib v.type base c) value := by
  have hs : u32 (base + fatOffset v.type c / 512) = base + fatOffset v.type c / 512 :=
    u32_of_lt (by omega)
  have hs1 := u32_of_lt hfit
  have hbyte := entryByte_eq v base c
  rw [fatSetCopy, run_bind, run_readSector, hs, if_pos h.1]
  by_cases h12 : v.type = .fat12
  · rw [entryNib_fat12 h12, show width v.type = 3 by rw [h12]; rfl, hbyte]
    by_cases hpos : fatOffset v.type c % 512 = 511
    · simp only [if_pos h12, if_pos hpos]
      rw [run_bind, run_readSector, hs1, if_pos (h.2 h12 hpos)]
      simp only [run_bind, run_writeSector, if_pos (h.2 h12 hpos), if_pos h.1, if_true]
      refine ⟨_, rfl, ?_⟩
      rw [hpos, store_across]
      exact fat12Encode_word (fun b h0 h1 => update_two_other d _ _ h0 h1) (word_update d _ _)
    · have hlt : fatOffset v.type c % 512 + 1 < 512 := by omega
      simp only [if_pos h12, if_neg hpos, run_writeSector, if_pos h.1]
      refine ⟨_, rfl, ?_⟩
      rw [store_two d _ _ _ hlt]
      exact fat12Encode_word (fun b h0 h1 => update_two_other d _ _ h0 h1) (word_update d _ _)
  · rw [entryNib_other h12, hbyte]
    obtain ⟨h2, h4⟩ := fatOffset_aligned (t := v.type) c
    by_cases h16 : v.type = .fat16
    · have hlt : fatOffset v.type c % 512 + 1 < 512 := by
        have := h2 h16
        omega
      simp only [if_neg h12, if_pos h16, run_writeSector, if_pos h.1]
      refine ⟨_, rfl, ?_⟩
      rw [show width v.type = 4 by rw [h16]; rfl, store_two d _ _ _ hlt]
      exact Stored.full16 (fun b h0 h1 => update_two_other d _ _ h0 h1) (word_update d _ _)
    · have hlt : fatOffset v.type c % 512 + 3 < 512 := by
        have := h4 h12 h16
        omega
      simp only [if_neg h12, if_neg h16, run_writeSector, if_pos h.1]
      refine ⟨_, rfl, ?_⟩
      have hold := word_lt d (512 * (base + fatOffset v.type c / 512) + fatOffset v.type c % 512)
      have hold' := word_lt d
        (512 * (base + fatOffset v.type c / 512) + fatOffset v.type c % 512 + 2)
      rw [width_other h12 h16, get32_sector]
      obtain ⟨hin, hout⟩ := store_put32 d (base + fatOffset v.type c / 512) hlt
        (n := dword d (512 * (base + fatOffset v.type c / 512) + fatOffset v.type c % 512)
          / 2 ^ 28 * 2 ^ 28 + value % 2 ^ 28) (by rw [dword]; omega)
      exact Stored.low28 hout hin

theorem run_fatSetCopy (hbase : base + 2 ^ 23 < 2 ^ 32) (d : Disk) (value : Nat)
    (h : Readable ok v base c) : ∃ d', run ok (fatSetCopy v base c value) d = (true, d') ∧
      Stored d d' (width v.type) (entryNib v.type base c) value := by
  have := fatOffset_lt v.type c
  exact run_fatSetCopy_fits (by omega) d value h

theorem run_fatSetCopy_unreadable (hfit : base + fatOffset v.type c / 512 + 1 < 2 ^ 32) (d : Disk)
    (value : Nat) (h : ¬ Readable ok v base c) :
    run ok (fatSetCopy v base c value) d = (false, d) := by
  have hs : u32 (base + fatOffset v.type c / 512) = base + fatOffset v.type c / 512 :=
    u32_of_lt (by omega)
  have hs1 := u32_of_lt hfit
  rw [fatSetCopy, run_bind, run_readSector, hs]
  by_cases hok : ok (base + fatOffset v.type c / 512)
  · obtain ⟨h12, hpos, hno⟩ := not_readable_cases h hok
    rw [if_pos hok]
    simp only [if_pos h12, if_pos hpos]
    rw [run_bind, run_readSector, hs1, if_neg hno]
    rfl
  · rw [if_neg hok]
    rfl

/-! ## Writing a zero -/

theorem shrinks_setByte {s t : Sector} (h : ∀ b, ShrinksTo (s b) (t b)) {x : UInt8}
    (hx : ShrinksTo (s pos) x) : ∀ b, ShrinksTo (s b) (setByte t pos x b) := by
  intro b
  by_cases hb : b = pos
  · rw [setByte, if_pos hb, hb]
    exact hx
  · rw [setByte, if_neg hb]
    exact h b

theorem shrinks_fat12Encode (c : Nat) (b0 b1 : UInt8) :
    ShrinksTo b0 (byteOf (fat12Encode c (le16 b0 b1) 0) 0) ∧
    ShrinksTo b1 (byteOf (fat12Encode c (le16 b0 b1) 0) 1) := by
  have h0 := b0.toNat_lt
  have h1 := b1.toNat_lt
  simp only [ShrinksTo, byteOf_toNat, fat12Encode, le16]
  by_cases hc : c % 2 = 1
  · simp only [if_pos hc]
    omega
  · simp only [if_neg hc]
    omega

theorem shrinks_put32 (s : Sector) (pos : Nat) :
    ∀ b, ShrinksTo (s b) (put32 s pos (get32 s pos / 2 ^ 28 * 2 ^ 28 + 0 % 2 ^ 28) b) := by
  have h0 := (s pos).toNat_lt
  have h1 := (s (pos + 1)).toNat_lt
  have h2 := (s (pos + 2)).toNat_lt
  have h3 := (s (pos + 3)).toNat_lt
  refine shrinks_setByte (shrinks_setByte (shrinks_setByte (shrinks_setByte
    (fun _ => ShrinksTo.refl _) ?_) ?_) ?_) ?_ <;>
    · simp only [ShrinksTo, byteOf_toNat, get32, le32]
      omega

/-- A zero stored in an entry raises no nibble of the disk, wherever the copy lies. -/
theorem fatSetCopy_clears (ok : Nat → Bool) (v : Vol) (base c : Nat) (d : Disk) :
    Clears d (run ok (fatSetCopy v base c 0) d).2 := by
  have hrefl : ∀ a, ShrinksTo (d a) (d a) := fun a => ShrinksTo.refl _
  have hsec : ∀ lba b, ShrinksTo (d.sector lba b) (d.sector lba b) := fun _ _ => ShrinksTo.refl _
  have hwrite : ∀ lba (s : Sector), (∀ b, ShrinksTo (d.sector lba b) (s b)) →
      Clears d (run ok (writeSector lba s) d).2 := by
    intro lba s hs
    rw [run_writeSector]
    split
    · exact clears_of_bytes (shrinks_store hrefl hs)
    · exact Clears.refl d
  generalize hlba : u32 (base + fatOffset v.type c / 512) = lba
  rw [fatSetCopy, run_bind, run_readSector, hlba]
  cases hok : ok lba with
  | false => exact Clears.refl d
  | true =>
    simp only [if_true]
    by_cases h12 : v.type = .fat12
    · by_cases hpos : fatOffset v.type c % 512 = 511
      · simp only [if_pos h12, if_pos hpos]
        rw [run_bind, run_readSector]
        cases hok1 : ok (u32 (lba + 1)) with
        | false => exact Clears.refl d
        | true =>
          obtain ⟨hs0, hs1⟩ := shrinks_fat12Encode c
            (d.sector lba (fatOffset v.type c % 512)) (d.sector (u32 (lba + 1)) 0)
          simp only [if_true, run_bind, run_writeSector, hok, hok1]
          exact clears_of_bytes (shrinks_store
            (shrinks_store hrefl (shrinks_setByte (hsec _) hs1)) (shrinks_setByte (hsec _) hs0))
      · simp only [if_pos h12, if_neg hpos]
        obtain ⟨hs0, hs1⟩ := shrinks_fat12Encode c (d.sector lba (fatOffset v.type c % 512))
          (d.sector lba (fatOffset v.type c % 512 + 1))
        exact hwrite _ _ (shrinks_setByte (shrinks_setByte (hsec _) hs0) hs1)
    · by_cases h16 : v.type = .fat16
      · simp only [if_neg h12, if_pos h16]
        exact hwrite _ _ (shrinks_setByte (shrinks_setByte (hsec _) (ShrinksTo.zero _))
          (ShrinksTo.zero _))
      · simp only [if_neg h12, if_neg h16]
        exact hwrite _ _ (shrinks_put32 _ _)

end Entry

/-! ## All copies, and the free-space hints -/

section Table

variable {ok : Nat → Bool} {v : Vol}

theorem fatSetFrom_clears (ok : Nat → Bool) (v : Vol) (c : Nat) (n i d) :
    Clears d (run ok (fatSetFrom v c 0 n i) d).2 := by
  induction n generalizing i d with
  | zero => exact Clears.refl d
  | succ n ih =>
    have hcopy := fatSetCopy_clears ok v (u32 (v.reservedSectors + i * v.fatSize)) c d
    rw [fatSetFrom, run_bind]
    cases hr : run ok (fatSetCopy v (u32 (v.reservedSectors + i * v.fatSize)) c 0) d with
    | mk set d' =>
      rw [hr] at hcopy
      cases set with
      | true => exact hcopy.trans (ih (i + 1) d')
      | false => exact hcopy

/-- The hints are in the reserved sectors, where no entry is. -/
theorem fsinfoAdjustSector_writesIn (v : Vol) (sector delta next : Nat) :
    WritesIn (fun lba => v.type = .fat32 ∧ lba = sector ∧ lba < v.reservedSectors)
      (fsinfoAdjustSector v sector delta next) := by
  rw [fsinfoAdjustSector]
  refine writesIn_ite (fun _ => writesIn_pure _) fun h => ?_
  rw [not_or, not_not, Nat.not_le] at h
  refine writesIn_bind (writesIn_readSector _) fun r => ?_
  cases r with
  | none => exact writesIn_pure _
  | some data =>
    refine writesIn_ite (fun _ => writesIn_pure _) fun _ => ?_
    exact writesIn_bind (writesIn_writeSector _ ⟨h.1, rfl, h.2⟩) fun _ => writesIn_pure _

theorem fsinfoAdjust_writesIn (v : Vol) (delta next : Nat) :
    WritesIn (fun lba => v.type = .fat32 ∧ (lba = v.fsinfoSector ∨ lba = v.backupBootSector + 1) ∧
      lba < v.reservedSectors) (fsinfoAdjust v delta next) := by
  rw [fsinfoAdjust]
  refine writesIn_ite (fun _ => writesIn_pure _) fun _ => ?_
  refine writesIn_bind ((fsinfoAdjustSector_writesIn v _ _ _).mono
    fun _ ⟨ht, heq, hlt⟩ => ⟨ht, .inl heq, hlt⟩) fun _ => ?_
  refine writesIn_ite (fun _ => ?_) fun _ => writesIn_pure _
  exact (fsinfoAdjustSector_writesIn v _ _ _).mono fun _ ⟨ht, heq, hlt⟩ => ⟨ht, .inr heq, hlt⟩

variable (hbase : v.reservedSectors + 2 ^ 23 < 2 ^ 32)

include hbase

/-- `fat_get` reads nothing in front of the first copy. -/
theorem fatVal_congr (h : ∀ a, v.reservedSectors ≤ a / sectorSize → d a = d' a) (c : Nat) :
    fatVal ok v d c = fatVal ok v d' c := by
  by_cases hr : Readable ok v v.reservedSectors c
  · rw [fatVal_readable hbase d hr, fatVal_readable hbase d' hr]
    refine field_congr fun k _ => nib_congr (h _ ?_)
    rw [entryNib, sectorSize]
    omega
  · rw [fatVal_unreadable hbase d hr, fatVal_unreadable hbase d' hr]

theorem fatVal_fsinfoAdjust (delta next : Nat) (d : Disk) (c : Nat) :
    fatVal ok v (run ok (fsinfoAdjust v delta next) d).2 c = fatVal ok v d c := by
  refine fatVal_congr hbase (fun a ha => ?_) c
  exact (fsinfoAdjust_writesIn v delta next).run_eq ok d fun h => Nat.not_lt.mpr ha h.2.2

omit hbase in
theorem eocValue_ne_zero (v : Vol) : eocValue v ≠ 0 := by
  rw [eocValue]
  split <;> decide

/-- A free entry stays free when nibbles are only cleared. -/
theorem fatVal_clears (h : Clears d d') (hz : fatVal ok v d c = 0) : fatVal ok v d' c = 0 := by
  by_cases hr : Readable ok v v.reservedSectors c
  · rw [fatVal_readable hbase _ hr] at hz ⊢
    exact h.field_zero hz
  · rw [fatVal_unreadable hbase _ hr] at hz
    exact absurd hz (eocValue_ne_zero v)

omit hbase in
theorem isEoc_eocValue (v : Vol) : isEoc v (eocValue v) := by
  rw [isEoc, eocMin, eocValue]
  cases v.type <;> rfl

/-- An entry that can be read is free after `fat_set` has freed it. -/
theorem fatVal_fatSet_zero (hcount : 0 < v.fatCount) (h : Readable ok v v.reservedSectors c) :
    fatVal ok v (run ok (fatSet v c 0) d).2 c = 0 := by
  obtain ⟨n, hn⟩ := Nat.exists_eq_succ_of_ne_zero (Nat.ne_of_gt hcount)
  have hfirst : u32 (v.reservedSectors + 0 * v.fatSize) = v.reservedSectors := by
    rw [Nat.zero_mul, Nat.add_zero]
    exact u32_of_lt (by omega)
  obtain ⟨d', hrun, hset⟩ := run_fatSetCopy hbase d 0 h
  rw [fatSet, hn, fatSetFrom, run_bind, hfirst, hrun]
  refine fatVal_clears hbase (fatSetFrom_clears ok v c n 1 d') ?_
  rw [fatVal_readable hbase _ h, hset.inside, Nat.zero_mod]

end Table

end FatTable
