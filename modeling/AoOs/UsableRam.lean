import AoOs.FrameAllocator

/-! # Which memory is handed out — `pmm_init` on a firmware map

    A usable range frees the pages from the one its first byte is in to the last one
    that ends inside it: the end is rounded down, but so is the start.  Ranges of
    other types are not looked at.  A map is handled safely exactly when no page on
    offer meets a range of another type and the part of its first page that lies in
    front of a usable range is usable through other ranges. -/

namespace UsableRam

open Bitmap Paging Pmm
open Vmm (maxPages firstPage)
open FrameAllocator (smallImage smallMap)

variable {p : Nat}

/-! ## The pages of a range -/

/-- The pages that an entry of the map frees.  A range that passes the end of the
    address space frees nothing. -/
def Frees (e : E820Entry) (p : Nat) : Prop :=
  e.type = e820Usable ∧ e.base.toNat + e.length.toNat < 2 ^ 64 ∧
  e.base.toNat / 4096 ≤ p ∧ p < (e.base.toNat + e.length.toNat) / 4096

theorem toNat_maxMemory : maxMemory.toNat = 2 ^ 32 := rfl

theorem test_takeEntry (e : E820Entry) (s : State) (hp : p < maxPages) :
    test (takeEntry e s).bitmap p ↔ test s.bitmap p ∧ ¬ Frees e p := by
  rw [takeEntry]
  -- the size of memory is no part of the bitmap
  have hmem : ∀ c : Prop, ∀ _ : Decidable c, ∀ w, (if c then { s with totalMemoryBytes := w } else
      s : State).bitmap = s.bitmap := by
    intro c _ w
    split <;> rfl
  by_cases htype : e.type = e820Usable
  · rw [if_pos htype]
    have hsum : (e.base + e.length).toNat = (e.base.toNat + e.length.toNat) % 2 ^ 64 :=
      BitVec.toNat_add ..
    have hb := e.base.isLt
    have hl := e.length.isLt
    rw [maxPages] at hp
    simp only [Frees, htype, true_and]
    by_cases hbase : e.base < maxMemory
    · have hbase' := BitVec.lt_def.mp hbase
      rw [toNat_maxMemory] at hbase'
      rw [if_pos hbase, test_markRegionFree _ _ _ hp, hmem]
      refine and_congr Iff.rfl (not_congr ?_)
      by_cases hfin : e.base + e.length > maxMemory
      · have hfin' := BitVec.lt_def.mp hfin
        rw [hsum, toNat_maxMemory] at hfin'
        rw [if_pos hfin, BitVec.toNat_sub_of_le (BitVec.le_of_lt hbase), toNat_maxMemory]
        omega
      · have hfin' := mt BitVec.lt_def.mpr hfin
        rw [hsum, toNat_maxMemory] at hfin'
        rw [if_neg hfin]
        omega
    · have hbase' := mt BitVec.lt_def.mpr hbase
      rw [toNat_maxMemory] at hbase'
      rw [if_neg hbase, hmem]
      exact ⟨fun h => ⟨h, fun hf => by omega⟩, fun h => h.1⟩
  · rw [if_neg htype, hmem]
    exact ⟨fun h => ⟨h, fun hf => htype hf.1⟩, fun h => h.1⟩

theorem test_takeEntries (m : MemMap) (n i : Nat) (s : State) (hp : p < maxPages) :
    test (takeEntries m n i s).bitmap p ↔
      test s.bitmap p ∧ ∀ j, i ≤ j → j < i + n → ¬ Frees (m.entries j) p := by
  induction n generalizing i s with
  | zero => exact ⟨fun h => ⟨h, fun j _ _ => by omega⟩, fun h => h.1⟩
  | succ n ih =>
    rw [takeEntries, ih, test_takeEntry _ _ hp, and_assoc]
    refine and_congr Iff.rfl ⟨fun h j hij hj => ?_, fun h => ⟨h i (Nat.le_refl i) (by omega),
      fun j hij hj => h j (by omega) (by omega)⟩⟩
    rcases Nat.eq_or_lt_of_le hij with rfl | hlt
    · exact h.1
    · exact h.2 j hlt (by omega)

/-! ## The free pages after `pmm_init` -/

/-- A page of the kernel's image. -/
def InImage (img : Image) (p : Nat) : Prop :=
  img.start.toNat / 4096 ≤ p ∧ p < (img.stop.toNat + 4095) / 4096

/-- The map has entries, and not too many. -/
def Readable (m : MemMap) : Prop := 1 ≤ m.count ∧ m.count ≤ 128

theorem free_pmmInit_iff {m : MemMap} (hm : Readable m) (img : Image) (p : Nat) :
    Free (pmmInit m img) p ↔ p < maxPages ∧ (∃ i, i < m.count ∧ Frees (m.entries i) p) ∧
      firstPage ≤ p ∧ ¬ InImage img p := by
  rw [Free]
  refine and_congr_right fun hp => ?_
  have hstop := img.stop_lt
  have hused : ∀ p, p < maxPages → (test allUsed.bitmap p) := by
    intro p _
    have hbit : ∀ k, k < 8 → (0xFF : UInt8).toNat.testBit k := by decide
    exact hbit (p % 8) (Nat.mod_lt _ (by decide))
  have hmap : test (fromMap m).bitmap p ↔ ¬ ∃ i, i < m.count ∧ Frees (m.entries i) p := by
    rw [fromMap, if_neg (by have := hm.1; have := hm.2; omega)]
    refine (test_takeEntries m m.count 0 allUsed hp).trans ?_
    rw [hused p hp]
    refine ⟨?_, fun h => ⟨rfl, fun i _ hi hf => h ⟨i, by omega, hf⟩⟩⟩
    rintro h ⟨i, hi, hf⟩
    exact h.2 i (Nat.zero_le i) (by omega) hf
  have hlow : (0#64).toNat / 4096 ≤ p ∧ p < (((0#64).toNat + (0x100000#64).toNat) % 2 ^ 64 + 4095) %
      2 ^ 64 / 4096 ↔ ¬ firstPage ≤ p := by
    simp only [BitVec.toNat_ofNat, firstPage, pageSize]
    omega
  have himg : img.start.toNat / 4096 ≤ p ∧ p < ((img.start.toNat + (img.stop - img.start).toNat) %
      2 ^ 64 + 4095) % 2 ^ 64 / 4096 ↔ InImage img p := by
    rw [FrameAllocator.image_length, InImage]
    omega
  have htest : test (pmmInit m img).bitmap p ↔
      ((¬ ∃ i, i < m.count ∧ Frees (m.entries i) p) ∨ ¬ firstPage ≤ p) ∨ InImage img p := by
    rw [pmmInit, test_markRegionUsed _ _ _ hp, test_markRegionUsed _ _ _ hp, hmap, hlow, himg]
  rw [← Bool.not_eq_true, htest, not_or, not_or, not_not, not_not, and_assoc]

/-! ## Safety -/

/-- A byte of the page. -/
def InPage (p a : Nat) : Prop := 4096 * p ≤ a ∧ a < 4096 * (p + 1)

/-- A byte of usable memory. -/
def Usable (m : MemMap) (a : Nat) : Prop :=
  ∃ i, i < m.count ∧ (m.entries i).type = e820Usable ∧
    (m.entries i).base.toNat ≤ a ∧ a < (m.entries i).base.toNat + (m.entries i).length.toNat

/-- The page meets no range of another type. -/
def Unreserved (m : MemMap) (p : Nat) : Prop :=
  ∀ i, i < m.count → (m.entries i).type ≠ e820Usable →
    ¬ Meets (m.entries i).base (m.entries i).length p

/-- Every free page is usable memory, from 1 MB on and outside the kernel. -/
def Safe (m : MemMap) (img : Image) (s : State) : Prop :=
  ∀ p, Free s p → (∀ a, InPage p a → Usable m a) ∧ Unreserved m p ∧ 0x100000 ≤ 4096 * p ∧
    ∀ a, InPage p a → ¬ (img.start.toNat ≤ a ∧ a < img.stop.toNat)

/-- A page that a usable range offers, apart from low memory and the kernel. -/
def OnOffer (img : Image) (e : E820Entry) (p : Nat) : Prop :=
  Frees e p ∧ p < maxPages ∧ firstPage ≤ p ∧ ¬ InImage img p

/-- What `pmm_init` relies on. -/
def Separated (m : MemMap) (img : Image) : Prop :=
  ∀ i, i < m.count →
    (∀ p, OnOffer img (m.entries i) p → Unreserved m p) ∧
    (OnOffer img (m.entries i) ((m.entries i).base.toNat / 4096) →
      ∀ a, InPage ((m.entries i).base.toNat / 4096) a → a < (m.entries i).base.toNat → Usable m a)

/-- A page on offer lies in its range but for the start of the first page. -/
theorem OnOffer.usable {m : MemMap} {img : Image} (h : Separated m img) {i : Nat} (hi : i < m.count)
    (hp : OnOffer img (m.entries i) p) : ∀ a, InPage p a → Usable m a := by
  intro a ha
  have ⟨⟨htype, _, hlow, hhigh⟩, _⟩ := hp
  rw [InPage] at ha
  by_cases hbase : (m.entries i).base.toNat ≤ a
  · exact ⟨i, hi, htype, hbase, by omega⟩
  · have hfirst : p = (m.entries i).base.toNat / 4096 := by omega
    subst hfirst
    exact (h i hi).2 hp a ha (by omega)

/-- **Which maps are handled safely**: of those `pmm_init` reads, the separated ones. -/
theorem safe_iff_separated (m : MemMap) (hm : Readable m) (img : Image) :
    Safe m img (pmmInit m img) ↔ Separated m img := by
  have hfree := free_pmmInit_iff hm img
  constructor
  · intro h i hi
    have hoffer : ∀ p, OnOffer img (m.entries i) p → Free (pmmInit m img) p := by
      rintro p ⟨hf, hp, hlow, himg⟩
      exact (hfree p).mpr ⟨hp, ⟨i, hi, hf⟩, hlow, himg⟩
    exact ⟨fun p hp => (h p (hoffer p hp)).2.1, fun hp a ha _ => (h _ (hoffer _ hp)).1 a ha⟩
  · intro h p hp
    obtain ⟨hlt, ⟨i, hi, hf⟩, hlow, himg⟩ := (hfree p).mp hp
    have hoffer : OnOffer img (m.entries i) p := ⟨hf, hlt, hlow, himg⟩
    refine ⟨hoffer.usable h hi, (h i hi).1 p hoffer, ?_, fun a ha hin => himg ?_⟩
    · simp only [firstPage, pageSize] at hlow
      omega
    · rw [InPage] at ha
      exact ⟨by omega, by omega⟩

/-! ## Two maps -/

/-- A usable range that starts in the middle of page `0x200`. -/
def unaligned : MemMap := ⟨1, fun _ => ⟨0x200800#64, 0x2000#64, 1#32⟩⟩

/-- A reserved page inside a usable range. -/
def overlapping : MemMap :=
  ⟨2, fun i => if i = 0 then ⟨0x200000#64, 0x10000#64, 1#32⟩ else ⟨0x204000#64, 0x1000#64, 2#32⟩⟩

/-- Page `0x200` of the first map is free although its first half is not usable, page
    `0x204` of the second although it is reserved. -/
theorem reserved_handed_out :
    (Readable unaligned ∧ Free (pmmInit unaligned smallImage) 0x200 ∧
      InPage 0x200 0x200000 ∧ ¬ Usable unaligned 0x200000) ∧
    (Readable overlapping ∧ Free (pmmInit overlapping smallImage) 0x204 ∧
      ¬ Unreserved overlapping 0x204) := by
  have hun : Readable unaligned := by rw [Readable]; decide
  have hov : Readable overlapping := by rw [Readable]; decide
  refine ⟨⟨hun, (free_pmmInit_iff hun _ _).mpr ⟨by decide, ⟨0, by decide, ?_⟩, by decide, ?_⟩,
    by rw [InPage]; decide, ?_⟩, hov, (free_pmmInit_iff hov _ _).mpr ⟨by decide,
      ⟨0, by decide, ?_⟩, by decide, ?_⟩, ?_⟩
  · rw [Frees]; decide
  · rw [InImage]; decide
  · rintro ⟨i, _, _, hlow, _⟩
    exact absurd (show 0x200800 ≤ 0x200000 from hlow) (by decide)
  · rw [Frees]; decide
  · rw [InImage]; decide
  · intro h
    exact h 1 (by decide) (by decide) (by decide)

/-- One usable range at a page boundary is handled safely. -/
theorem safe_iff_separated_aligned :
    Safe smallMap smallImage (pmmInit smallMap smallImage) := by
  refine (safe_iff_separated _ (by rw [Readable]; decide) _).mpr fun i _ => ⟨fun p _ j _ hj => ?_,
    fun _ a ha hlt => ?_⟩
  · exact absurd rfl hj
  · rw [InPage] at ha
    simp only [smallMap, BitVec.toNat_ofNat] at ha hlt
    omega

end UsableRam
