import AoOs.Bitmap
import AoOs.StepSystem
import AoOs.AddressSpace

/-! # The frame allocator — `pmm.c`

    One bit of `page_bitmap` for each page, set when the page is used, and a counter
    of the clear ones.  The address-space development works with the bitmap as a
    predicate on page numbers; here the allocator is modelled on its bytes, from the
    firmware's memory map on, and shown to be that allocator (`Holds.alloc`,
    `Holds.free`). -/

namespace Pmm

open Bitmap Paging Vmm AddressSpace

/-- The static variables of the allocator. -/
structure State where
  bitmap : Bits
  totalPages : Word
  freePages : Word
  totalMemoryBytes : Word

/-- `MAX_MEMORY`. -/
def maxMemory : Word := 0x100000000#64

/-! ## Regions -/

/-- The loop of `mark_region_used` over the `n` pages from `p` on. -/
def markUsedFrom : Nat → Nat → State → State
  | 0, _, s => s
  | n + 1, p, s => markUsedFrom n (p + 1) <|
      if test s.bitmap p then s
      else { s with
        bitmap := set s.bitmap p
        freePages := if s.freePages > 0#64 then s.freePages - 1#64 else s.freePages }

/-- The loop of `mark_region_free` over the `n` pages from `p` on. -/
def markFreeFrom : Nat → Nat → State → State
  | 0, _, s => s
  | n + 1, p, s => markFreeFrom n (p + 1) <|
      if test s.bitmap p then
        { s with bitmap := clear s.bitmap p, freePages := s.freePages + 1#64 }
      else s

/-- `end_page`, cut to the pages there are. -/
def capPage (w : Word) : Nat := (if w > 0x100000#64 then 0x100000#64 else w).toNat

def markRegionUsed (base length : Word) (s : State) : State :=
  let startPage := (base / 4096#64).toNat
  let endPage := capPage ((base + length + 4096#64 - 1#64) / 4096#64)
  markUsedFrom (endPage - startPage) startPage s

def markRegionFree (base length : Word) (s : State) : State :=
  let startPage := (base / 4096#64).toNat
  let endPage := capPage ((base + length) / 4096#64)
  markFreeFrom (endPage - startPage) startPage s

/-! ## Initialisation -/

/-- `e820_entry_t`, without the extension word, which the kernel does not read. -/
structure E820Entry where
  base : Word
  length : Word
  type : BitVec 32

/-- The map that the boot loader leaves at `E820_MAP_ADDR`. -/
structure MemMap where
  count : Nat
  entries : Nat → E820Entry

/-- `E820_USABLE`. -/
def e820Usable : BitVec 32 := 1#32

/-- The image of the kernel, `[_kernel_start, _kernel_end)`. -/
structure Image where
  start : Word
  stop : Word
  start_le : start ≤ stop
  stop_lt : stop.toNat + 4095 < 2 ^ 64

/-- One round of the loop over the map. -/
def takeEntry (e : E820Entry) (s : State) : State :=
  let fin := e.base + e.length
  let s := if fin > s.totalMemoryBytes then { s with totalMemoryBytes := fin } else s
  if e.type = e820Usable then
    if e.base < maxMemory then
      markRegionFree e.base (if fin > maxMemory then maxMemory - e.base else e.length) s
    else s
  else s

def takeEntries (m : MemMap) : Nat → Nat → State → State
  | 0, _, s => s
  | n + 1, i, s => takeEntries m n (i + 1) (takeEntry (m.entries i) s)

/-- All pages used. -/
def allUsed : State := ⟨fun _ => 0xFF, 0#64, 0#64, 0#64⟩

/-- What `pmm_init` takes from the map. -/
def fromMap (m : MemMap) : State :=
  if m.count = 0 ∨ 128 < m.count then
    -- no map: 32 MB are assumed
    markRegionFree 0x100000#64 (31#64 * 1024#64 * 1024#64) { allUsed with
      totalMemoryBytes := 32#64 * 1024#64 * 1024#64
      totalPages := 32#64 * 1024#64 * 1024#64 / 4096#64 }
  else
    let s := takeEntries m m.count 0 allUsed
    { s with totalPages := BitVec.ofNat 64 (capPage (s.totalMemoryBytes / 4096#64)) }

/-- `pmm_init`. -/
def pmmInit (m : MemMap) (img : Image) : State :=
  markRegionUsed img.start (img.stop - img.start) (markRegionUsed 0#64 0x100000#64 (fromMap m))

/-! ## Allocation -/

/-- `pmm_alloc_page`; 0 when memory is exhausted. -/
def pmmAllocPage (s : State) : Word × State :=
  match findFree (test s.bitmap) (maxPages - firstPage) firstPage with
  | none => (0#64, s)
  | some i =>
    (frameAddr i, { s with bitmap := set s.bitmap i, freePages := s.freePages - 1#64 })

/-- `pmm_free_page`. -/
def pmmFreePage (addr : Word) (s : State) : State :=
  let page := addr.toNat / pageSize
  if maxPages ≤ page then s
  else if test s.bitmap page then
    { s with bitmap := clear s.bitmap page, freePages := s.freePages + 1#64 }
  else s

/-! ## Free pages and their number -/

/-- Page `p` can be handed out. -/
def Free (s : State) (p : Nat) : Prop := p < maxPages ∧ test s.bitmap p = false

/-- The counter is the number of clear bits. -/
def Counted (s : State) : Prop := s.freePages.toNat = (clearBits maxPages s.bitmap).card

theorem card_le_maxPages (b : Bits) : (clearBits maxPages b).card ≤ maxPages := by
  refine (Finset.card_filter_le _ _).trans ?_
  rw [Finset.card_range]

theorem toNat_pred {w : Word} {n : Nat} (h : w.toNat = n + 1) : (w - 1#64).toNat = n := by
  have hlt := w.isLt
  rw [BitVec.toNat_sub, h]
  have : (1#64).toNat = 1 := rfl
  omega

theorem toNat_succ {w : Word} (h : w.toNat < maxPages) : (w + 1#64).toNat = w.toNat + 1 := by
  rw [maxPages] at h
  rw [BitVec.toNat_add]
  have : (1#64).toNat = 1 := rfl
  omega

/-- A clear bit is set, and the counter goes down. -/
theorem Counted.set {s : State} (h : Counted s) {p : Nat} (hp : p < maxPages)
    (hclear : test s.bitmap p = false) : (s.freePages - 1#64).toNat + 1 = s.freePages.toNat ∧
    Counted { s with bitmap := Bitmap.set s.bitmap p, freePages := s.freePages - 1#64 } := by
  have hcard := card_clearBits_set hp hclear
  have hpred := toNat_pred (h.trans hcard.symm)
  refine ⟨?_, hpred⟩
  rw [hpred, hcard]
  exact h.symm

/-- A set bit is cleared, and the counter goes up. -/
theorem Counted.clear {s : State} (h : Counted s) {p : Nat} (hp : p < maxPages)
    (hset : test s.bitmap p) : (s.freePages + 1#64).toNat = s.freePages.toNat + 1 ∧
    Counted { s with bitmap := Bitmap.clear s.bitmap p, freePages := s.freePages + 1#64 } := by
  have hcard := card_clearBits_clear hp hset
  have hle := card_le_maxPages (Bitmap.clear s.bitmap p)
  have hsucc : (s.freePages + 1#64).toNat = s.freePages.toNat + 1 :=
    toNat_succ (by rw [h]; omega)
  refine ⟨hsucc, ?_⟩
  rw [Counted, hsucc, h]
  exact hcard.symm

/-! ## What the region loops do -/

section Loops

variable (n p : Nat) (s : State)

theorem test_markUsedFrom (q : Nat) : test (markUsedFrom n p s).bitmap q ↔
    test s.bitmap q ∨ (p ≤ q ∧ q < p + n) := by
  induction n generalizing p s with
  | zero => exact ⟨.inl, fun h => h.resolve_right (by omega)⟩
  | succ n ih =>
    rw [markUsedFrom, ih]
    by_cases hp : test s.bitmap p
    · rw [if_pos hp]
      by_cases hq : test s.bitmap q
      · simp only [hq, true_or]
      · have hne : q ≠ p := fun h => hq (h ▸ hp)
        simp only [hq, Bool.false_eq_true, false_or]
        omega
    · rw [if_neg hp, test_set, Bool.or_eq_true, decide_eq_true_eq]
      by_cases hq : test s.bitmap q
      · simp only [hq, true_or, or_true]
      · simp only [hq, Bool.false_eq_true, or_false, false_or]
        omega

theorem test_markFreeFrom (q : Nat) : test (markFreeFrom n p s).bitmap q ↔
    test s.bitmap q ∧ ¬ (p ≤ q ∧ q < p + n) := by
  induction n generalizing p s with
  | zero => exact ⟨fun h => ⟨h, by omega⟩, fun h => h.1⟩
  | succ n ih =>
    rw [markFreeFrom, ih]
    by_cases hp : test s.bitmap p
    · rw [if_pos hp, test_clear, Bool.and_eq_true, Bool.not_eq_true', decide_eq_false_iff_not]
      by_cases hq : test s.bitmap q
      · simp only [hq, and_true, true_and]
        omega
      · simp only [hq, Bool.false_eq_true, and_false, false_and]
    · rw [if_neg hp]
      by_cases hq : test s.bitmap q
      · have hne : q ≠ p := fun h => hp (h ▸ hq)
        simp only [hq, true_and]
        omega
      · simp only [hq, Bool.false_eq_true, false_and]

/-- Marking keeps the count, which goes down without passing zero. -/
theorem counted_markUsedFrom (hfit : n = 0 ∨ p + n ≤ maxPages) (h : Counted s) :
    Counted (markUsedFrom n p s) ∧ (markUsedFrom n p s).freePages ≤ s.freePages := by
  induction n generalizing p s with
  | zero => exact ⟨h, BitVec.le_refl _⟩
  | succ n ih =>
    rw [markUsedFrom]
    by_cases hp : test s.bitmap p
    · rw [if_pos hp]
      exact ih (p + 1) _ (by omega) h
    · obtain ⟨hpred, hc⟩ := h.set (p := p) (by omega) (Bool.eq_false_iff.mpr hp)
      have hpos : s.freePages > 0#64 := BitVec.lt_def.mpr (by simp only [BitVec.toNat_ofNat]; omega)
      rw [if_neg hp, if_pos hpos]
      obtain ⟨hc', hle⟩ := ih (p + 1) _ (by omega) hc
      refine ⟨hc', BitVec.le_trans hle (BitVec.le_def.mpr ?_)⟩
      exact Nat.le_of_succ_le (Nat.le_of_eq hpred)

theorem counted_markFreeFrom (hfit : n = 0 ∨ p + n ≤ maxPages) (h : Counted s) :
    Counted (markFreeFrom n p s) := by
  induction n generalizing p s with
  | zero => exact h
  | succ n ih =>
    rw [markFreeFrom]
    by_cases hp : test s.bitmap p
    · rw [if_pos hp]
      exact ih (p + 1) _ (by omega) (h.clear (p := p) (by omega) hp).2
    · rw [if_neg hp]
      exact ih (p + 1) _ (by omega) h

end Loops

/-! ## Regions as intervals of pages -/

theorem capPage_eq (w : Word) : capPage w = min w.toNat maxPages := by
  rw [capPage]
  by_cases h : w > 0x100000#64
  · rw [if_pos h]
    have h' := BitVec.lt_def.mp h
    simp only [BitVec.toNat_ofNat, maxPages] at h' ⊢
    omega
  · rw [if_neg h]
    have h' := mt BitVec.lt_def.mpr h
    simp only [BitVec.toNat_ofNat, maxPages] at h' ⊢
    omega

theorem toNat_roundUp (w : Word) : ((w + 4096#64 - 1#64) / 4096#64).toNat =
    (w.toNat + 4095) % 2 ^ 64 / 4096 := by
  have hw : w + 4096#64 - 1#64 = w + 4095#64 := by bv_omega
  rw [hw, BitVec.toNat_udiv, BitVec.toNat_add]
  rfl

theorem toNat_div_page (w : Word) : (w / 4096#64).toNat = w.toNat / 4096 := BitVec.toNat_udiv ..

section Regions

variable (base length : Word) (s : State)

/-- The pages that `mark_region_used` sets. -/
theorem test_markRegionUsed {q : Nat} (hq : q < maxPages) :
    test (markRegionUsed base length s).bitmap q ↔ test s.bitmap q ∨
      (base.toNat / 4096 ≤ q ∧
        q < ((base.toNat + length.toNat) % 2 ^ 64 + 4095) % 2 ^ 64 / 4096) := by
  rw [markRegionUsed, test_markUsedFrom, capPage_eq, toNat_roundUp, toNat_div_page,
    BitVec.toNat_add]
  refine or_congr Iff.rfl ⟨fun h => by omega, fun h => by omega⟩

/-- The pages that `mark_region_free` clears. -/
theorem test_markRegionFree {q : Nat} (hq : q < maxPages) :
    test (markRegionFree base length s).bitmap q ↔ test s.bitmap q ∧
      ¬ (base.toNat / 4096 ≤ q ∧ q < (base.toNat + length.toNat) % 2 ^ 64 / 4096) := by
  rw [markRegionFree, test_markFreeFrom, capPage_eq, toNat_div_page, toNat_div_page,
    BitVec.toNat_add]
  refine and_congr Iff.rfl (not_congr ⟨fun h => by omega, fun h => by omega⟩)

theorem counted_markRegionUsed (h : Counted s) : Counted (markRegionUsed base length s) ∧
    (markRegionUsed base length s).freePages ≤ s.freePages := by
  refine counted_markUsedFrom _ _ s ?_ h
  rw [capPage_eq]
  omega

theorem counted_markRegionFree (h : Counted s) : Counted (markRegionFree base length s) := by
  refine counted_markFreeFrom _ _ s ?_ h
  rw [capPage_eq]
  omega

end Regions

/-- Some byte of page `p` is in the region. -/
def Meets (base length : Word) (p : Nat) : Prop :=
  max base.toNat (4096 * p) < min (base.toNat + length.toNat) (4096 * (p + 1))

instance (base length : Word) (p : Nat) : Decidable (Meets base length p) :=
  inferInstanceAs (Decidable (_ < _))

/-- A region that does not reach the end of the address space is marked whole. -/
theorem test_of_meets {base length : Word} (hfit : base.toNat + length.toNat + 4095 < 2 ^ 64)
    (s : State) {p : Nat} (hp : p < maxPages) (h : Meets base length p) :
    test (markRegionUsed base length s).bitmap p := by
  rw [Meets] at h
  exact (test_markRegionUsed _ _ _ hp).mpr (.inr ⟨by omega, by omega⟩)

/-! ## After `pmm_init` -/

theorem counted_allUsed : Counted allUsed := by
  have hnone : clearBits maxPages allUsed.bitmap = ∅ := by
    ext p
    rw [mem_clearBits]
    refine ⟨fun h => ?_, fun h => absurd h (Finset.notMem_empty p)⟩
    have hbit : ∀ k, k < 8 → (0xFF : UInt8).toNat.testBit k := by decide
    cases (hbit (p % 8) (Nat.mod_lt _ (by decide))).symm.trans h.2
  rw [Counted, hnone]
  rfl

variable {s : State}

theorem counted_takeEntry (e : E820Entry) (h : Counted s) : Counted (takeEntry e s) := by
  have hmem : Counted (if e.base + e.length > s.totalMemoryBytes then
      { s with totalMemoryBytes := e.base + e.length } else s) := by
    split
    · exact h
    · exact h
  rw [takeEntry]
  split
  · split
    · exact counted_markRegionFree _ _ _ hmem
    · exact hmem
  · exact hmem

theorem counted_takeEntries (m : MemMap) (n i : Nat) (h : Counted s) :
    Counted (takeEntries m n i s) := by
  induction n generalizing i s with
  | zero => exact h
  | succ n ih => exact ih _ (counted_takeEntry _ h)

theorem counted_pmmInit (m : MemMap) (img : Image) : Counted (pmmInit m img) := by
  have hmap : Counted (fromMap m) := by
    rw [fromMap]
    split
    · exact counted_markRegionFree _ _ _ counted_allUsed
    · exact counted_takeEntries m _ _ counted_allUsed
  exact (counted_markRegionUsed _ _ _ (counted_markRegionUsed _ _ _ hmap).1).1

/-! ## The allocator of the address-space development -/

/-- The same bits and the same counter. -/
def Holds (s : State) (k : KState) : Prop :=
  k.used = test s.bitmap ∧ k.freePages = s.freePages

theorem Holds.alloc {k : KState} (h : Holds s k) :
    (Vmm.pmmAllocPage k).1 = (pmmAllocPage s).1 ∧
    Holds (pmmAllocPage s).2 (Vmm.pmmAllocPage k).2 := by
  obtain ⟨hused, hfree⟩ := h
  rw [Vmm.pmmAllocPage, pmmAllocPage, hused]
  cases findFree (test s.bitmap) (maxPages - firstPage) firstPage with
  | none => exact ⟨rfl, hused, hfree⟩
  | some i =>
    refine ⟨rfl, funext fun j => ?_, congrArg (· - 1#64) hfree⟩
    rw [test_set]
    by_cases hj : j = i
    · simp [hj]
    · simp [hj]

theorem Holds.free {k : KState} (h : Holds s k) (addr : Word) :
    Holds (pmmFreePage addr s) (Vmm.pmmFreePage addr k) := by
  have ⟨hused, hfree⟩ := h
  rw [Vmm.pmmFreePage, pmmFreePage, hused]
  by_cases hpage : maxPages ≤ addr.toNat / pageSize
  · simp only [if_pos hpage]
    exact h
  by_cases ht : test s.bitmap (addr.toNat / pageSize)
  · simp only [if_neg hpage, if_pos ht]
    refine ⟨funext fun j => ?_, congrArg (· + 1#64) hfree⟩
    rw [test_clear]
    by_cases hj : j = addr.toNat / pageSize
    · simp [hj]
    · simp [hj]
  · simp only [if_neg hpage, if_neg ht]
    exact h

/-- The frames handed out by calls: an address is freed, `none` allocates. -/
def serve {S : Type} (alloc : S → Word × S) (free : Word → S → S) :
    List (Option Word) → S → List Word × S
  | [], s => ([], s)
  | none :: calls, s =>
    let r := serve alloc free calls (alloc s).2
    ((alloc s).1 :: r.1, r.2)
  | some addr :: calls, s => serve alloc free calls (free addr s)

/-- **ONE ALLOCATOR**: whatever is allocated and freed, in whatever order, the bitmap in bytes
    and the predicate hand out the same frames and stay the same. -/
theorem serves_same (calls : List (Option Word)) {s : State} {k : KState} (h : Holds s k) :
    let r := serve pmmAllocPage pmmFreePage calls s
    let q := serve Vmm.pmmAllocPage Vmm.pmmFreePage calls k
    q.1 = r.1 ∧ Holds r.2 q.2 := by
  induction calls generalizing s k with
  | nil => exact ⟨rfl, h⟩
  | cons call calls ih =>
    cases call with
    | none =>
      obtain ⟨hframe, hnext⟩ := h.alloc
      exact ⟨congrArg₂ _ hframe (ih hnext).1, (ih hnext).2⟩
    | some addr => exact ih (h.free addr)

theorem serves_same_freed :
    (serve Vmm.pmmAllocPage Vmm.pmmFreePage [some 0x100000#64, none]
      ⟨fun _ _ => 0#64, test allUsed.bitmap, 0#64, 0#64⟩).1 =
      (serve pmmAllocPage pmmFreePage [some 0x100000#64, none] allUsed).1 :=
  (serves_same [some 0x100000#64, none] ⟨rfl, rfl⟩).1

end Pmm
