import AoOs.Pmm

/-! # The frame allocator over whole runs

    Pages are handed out, given back and marked in any order.  The run remembers
    which pages are out and which were marked; the allocator knows neither.  What
    carries the runs is that both kinds of page are set in the bitmap and that no
    page is of both kinds: only a page that is out is ever cleared. -/

namespace FrameAllocator

open Bitmap StepSystem Paging AddressSpace Pmm
open Vmm (maxPages firstPage findFree frameAddr)

variable {i : Nat}

/-! ## One call -/

theorem findFree_least {used : Nat → Bool} {n j : Nat} (h : findFree used n i = some j) :
    ∀ q, i ≤ q → q < j → used q := by
  induction n generalizing i with
  | zero => cases h
  | succ n ih =>
    intro q hi hq
    rw [findFree] at h
    by_cases hu : used i
    · rw [if_pos hu] at h
      rcases Nat.eq_or_lt_of_le hi with rfl | hlt
      · exact hu
      · exact ih h q hlt hq
    · rw [if_neg hu] at h
      have := Option.some.inj h
      omega

theorem findFree_none {used : Nat → Bool} {n : Nat} (h : findFree used n i = none) :
    ∀ q, i ≤ q → q < i + n → used q := by
  induction n generalizing i with
  | zero => intro q hi hq; omega
  | succ n ih =>
    intro q hi hq
    rw [findFree] at h
    by_cases hu : used i
    · rw [if_pos hu] at h
      rcases Nat.eq_or_lt_of_le hi with rfl | hlt
      · exact hu
      · exact ih h q hlt (by omega)
    · cases (if_neg hu).symm.trans h

/-- The pages `pmm_alloc_page` may hand out. -/
def Offered (s : State) : Set Nat := {p | Free s p ∧ firstPage ≤ p}

/-- `pmm_alloc_page` takes the lowest page on offer. -/
theorem pmmAllocPage_spec (s : State) : ((∀ p, p ∉ Offered s) ∧ pmmAllocPage s = (0#64, s)) ∨
    ∃ i, IsLeast (Offered s) i ∧ pmmAllocPage s = (frameAddr i,
      { s with bitmap := Bitmap.set s.bitmap i, freePages := s.freePages - 1#64 }) := by
  have hsum : firstPage + (maxPages - firstPage) = maxPages := rfl
  rw [pmmAllocPage]
  cases hfind : findFree (test s.bitmap) (maxPages - firstPage) firstPage with
  | none =>
    refine .inl ⟨fun p hp => ?_, rfl⟩
    have hused := findFree_none hfind p hp.2 (hsum.symm ▸ hp.1.1)
    cases hused.symm.trans hp.1.2
  | some i =>
    obtain ⟨hge, hlt, hclear⟩ := findFree_spec hfind
    refine .inr ⟨i, ⟨⟨⟨hsum ▸ hlt, hclear⟩, hge⟩, fun p hp => ?_⟩, rfl⟩
    by_contra hn
    cases (findFree_least hfind p hp.2 (Nat.lt_of_not_le hn)).symm.trans hp.1.2

theorem frameAddr_ne_zero (hge : firstPage ≤ i) (hlt : i < maxPages) :
    frameAddr i ≠ 0#64 := IsFrame.ne_zero ⟨i, hge, hlt, rfl⟩

/-- `pmm_free_page` of a page that is in use clears its bit. -/
theorem pmmFreePage_used {s : State} (hlt : i < maxPages) (hset : test s.bitmap i) :
    pmmFreePage (frameAddr i) s =
      { s with bitmap := Bitmap.clear s.bitmap i, freePages := s.freePages + 1#64 } := by
  have hpage : (frameAddr i).toNat / pageSize = i := frameNum_frameAddr hlt
  rw [pmmFreePage, hpage, if_neg (Nat.not_le.mpr hlt), if_pos hset]

theorem free_set (s : State) (i p : Nat) (w : Word) :
    Free { s with bitmap := Bitmap.set s.bitmap i, freePages := w } p ↔ Free s p ∧ p ≠ i := by
  rw [Free, Free, test_set, Bool.or_eq_false_iff, decide_eq_false_iff_not]
  tauto

theorem free_clear (s : State) (p : Nat) (w : Word) (hi : i < maxPages) :
    Free { s with bitmap := Bitmap.clear s.bitmap i, freePages := w } p ↔ Free s p ∨ p = i := by
  rw [Free, Free, test_clear, Bool.and_eq_false_iff, Bool.not_eq_false', decide_eq_true_eq]
  constructor
  · rintro ⟨hp, rfl | ht⟩
    · exact .inr rfl
    · exact .inl ⟨hp, ht⟩
  · rintro (⟨hp, ht⟩ | rfl)
    · exact ⟨hp, .inr ht⟩
    · exact ⟨hi, .inl rfl⟩

/-! ## Runs -/

inductive Op where
  | mark (base length : Word)
  | alloc
  | free (addr : Word)

/-- The allocator, the pages that are out, and the pages marked so far. -/
structure Sys where
  pmm : State
  allocated : Finset Nat
  marked : Nat → Bool

variable {s : Sys}

/-- A region is marked only if no page of it is out, and only a page that is out is
    given back. -/
def step (s : Sys) : Op → Option Sys
  | .mark base length =>
    if base.toNat + length.toNat + 4095 < 2 ^ 64 ∧ ∀ i ∈ s.allocated, ¬ Meets base length i then
      some { s with
        pmm := markRegionUsed base length s.pmm
        marked := fun p => s.marked p || decide (Meets base length p) }
    else none
  | .alloc =>
    let r := pmmAllocPage s.pmm
    some { s with
      pmm := r.2
      allocated := if r.1 = 0#64 then s.allocated else insert (frameNum r.1) s.allocated }
  | .free addr =>
    if ∃ i ∈ s.allocated, frameAddr i = addr then
      some { s with
        pmm := pmmFreePage addr s.pmm
        allocated := s.allocated.erase (frameNum addr) }
    else none

/-- After `pmm_init`: low memory and the kernel are marked. -/
def boot (m : MemMap) (img : Image) : Sys where
  pmm := pmmInit m img
  allocated := ∅
  marked := fun p => decide (Meets 0#64 0x100000#64 p) ||
    decide (Meets img.start (img.stop - img.start) p)

/-- What holds between calls. -/
structure Inv (s : Sys) : Prop where
  counted : Counted s.pmm
  out : ∀ i ∈ s.allocated, firstPage ≤ i ∧ i < maxPages ∧ test s.pmm.bitmap i
  marked : ∀ p, s.marked p → p < maxPages → test s.pmm.bitmap p
  apart : ∀ i ∈ s.allocated, s.marked i = false

theorem image_length (img : Image) :
    img.start.toNat + (img.stop - img.start).toNat = img.stop.toNat := by
  have hle := BitVec.le_def.mp img.start_le
  rw [BitVec.toNat_sub_of_le img.start_le]
  omega

theorem inv_boot (m : MemMap) (img : Image) : Inv (boot m img) := by
  refine ⟨counted_pmmInit m img, fun i hi => absurd hi (Finset.notMem_empty i), fun p hp hlt => ?_,
    fun i hi => absurd hi (Finset.notMem_empty i)⟩
  show test (pmmInit m img).bitmap p
  rw [pmmInit]
  simp only [boot, Bool.or_eq_true, decide_eq_true_eq] at hp
  rcases hp with hlow | hker
  · rw [test_markRegionUsed _ _ _ hlt]
    exact .inl (test_of_meets (by decide) _ hlt hlow)
  · refine test_of_meets ?_ _ hlt hker
    rw [image_length]
    exact img.stop_lt

theorem inv_mark (h : Inv s) {base length : Word} (hfit : base.toNat + length.toNat + 4095 < 2 ^ 64)
    (hno : ∀ i ∈ s.allocated, ¬ Meets base length i) : Inv { s with
      pmm := markRegionUsed base length s.pmm
      marked := fun p => s.marked p || decide (Meets base length p) } := by
  refine ⟨(counted_markRegionUsed _ _ _ h.counted).1, fun i hi => ?_, fun p hp hlt => ?_,
    fun i hi => ?_⟩
  · obtain ⟨hge, hlt, hset⟩ := h.out i hi
    exact ⟨hge, hlt, (test_markRegionUsed _ _ _ hlt).mpr (.inl hset)⟩
  · rcases Bool.or_eq_true _ _ ▸ hp with hold | hnew
    · exact (test_markRegionUsed _ _ _ hlt).mpr (.inl (h.marked p hold hlt))
    · exact test_of_meets hfit _ hlt (of_decide_eq_true hnew)
  · exact Bool.or_eq_false_iff.mpr ⟨h.apart i hi, decide_eq_false (hno i hi)⟩

/-- The page that `pmm_alloc_page` takes is neither out nor marked. -/
theorem Inv.fresh (h : Inv s) (hi : i ∈ Offered s.pmm) : i ∉ s.allocated ∧ s.marked i = false := by
  obtain ⟨⟨hlt, hclear⟩, _⟩ := hi
  refine ⟨fun hmem => (nomatch hclear.symm.trans (h.out i hmem).2.2), ?_⟩
  refine Bool.eq_false_iff.mpr fun hm => ?_
  cases hclear.symm.trans (h.marked i hm hlt)

theorem inv_alloc (h : Inv s) (hi : i ∈ Offered s.pmm) : Inv { s with
      pmm := { s.pmm with
        bitmap := Bitmap.set s.pmm.bitmap i, freePages := s.pmm.freePages - 1#64 }
      allocated := insert i s.allocated } := by
  obtain ⟨⟨hlt, hclear⟩, hge⟩ := hi
  have hset : ∀ p, test s.pmm.bitmap p → test (Bitmap.set s.pmm.bitmap i) p := by
    intro p hp
    rw [test_set, hp, Bool.or_true]
  refine ⟨(h.counted.set hlt hclear).2, fun j hj => ?_, fun p hp hpm => hset p (h.marked p hp hpm),
    fun j hj => ?_⟩
  · rcases Finset.mem_insert.mp hj with rfl | hj
    · exact ⟨hge, hlt, by rw [test_set, decide_eq_true rfl, Bool.true_or]⟩
    · obtain ⟨hge', hlt', hset'⟩ := h.out j hj
      exact ⟨hge', hlt', hset j hset'⟩
  · rcases Finset.mem_insert.mp hj with rfl | hj
    · exact (h.fresh ⟨⟨hlt, hclear⟩, hge⟩).2
    · exact h.apart j hj

theorem inv_free (h : Inv s) (hi : i ∈ s.allocated) : Inv { s with
      pmm := pmmFreePage (frameAddr i) s.pmm
      allocated := s.allocated.erase i } := by
  obtain ⟨_, hlt, hset⟩ := h.out i hi
  rw [pmmFreePage_used hlt hset]
  have hclear : ∀ p, p ≠ i → test s.pmm.bitmap p →
      test (Bitmap.clear s.pmm.bitmap i) p := by
    intro p hne hp
    rw [test_clear, hp, decide_eq_false hne]
    rfl
  refine ⟨(h.counted.clear hlt hset).2, fun j hj => ?_, fun p hp hpm => ?_, fun j hj => ?_⟩
  · obtain ⟨hne, hj⟩ := Finset.mem_erase.mp hj
    obtain ⟨hge', hlt', hset'⟩ := h.out j hj
    exact ⟨hge', hlt', hclear j hne hset'⟩
  · -- a marked page is not the one given back
    refine hclear p (fun heq => ?_) (h.marked p hp hpm)
    rw [heq, h.apart i hi] at hp
    cases hp
  · exact h.apart j (Finset.mem_of_mem_erase hj)

theorem inv_step {s' : Sys} {op : Op} (h : Inv s) (hs : step s op = some s') : Inv s' := by
  cases op with
  | mark base length =>
    rw [step] at hs
    split at hs
    · rename_i hc
      cases hs
      exact inv_mark h hc.1 hc.2
    · cases hs
  | alloc =>
    cases hs
    rcases pmmAllocPage_spec s.pmm with ⟨_, heq⟩ | ⟨i, hi, heq⟩
    · rw [heq, if_pos rfl]
      exact h
    · obtain ⟨⟨hlt, _⟩, hge⟩ := hi.1
      rw [heq, if_neg (frameAddr_ne_zero hge hlt), frameNum_frameAddr hlt]
      exact inv_alloc h hi.1
  | free addr =>
    rw [step] at hs
    split at hs
    · rename_i hc
      obtain ⟨i, hi, rfl⟩ := hc
      cases hs
      rw [frameNum_frameAddr (h.out i hi).2.1]
      exact inv_free h hi
    · cases hs

/-! ## The allocator as a set -/

/-- The allocator keeps the set of free pages: it counts them, hands out the lowest
    from 1 MB on, takes back exactly the page it is given, and its counter never
    passes zero. -/
structure Correct (s : Sys) : Prop where
  counted : s.pmm.freePages.toNat = (clearBits maxPages s.pmm.bitmap).card
  alloc : ∀ i, IsLeast (Offered s.pmm) i → (pmmAllocPage s.pmm).1 = frameAddr i ∧
    i ∉ s.allocated ∧ s.marked i = false ∧
    (∀ p, Free (pmmAllocPage s.pmm).2 p ↔ Free s.pmm p ∧ p ≠ i) ∧
    (pmmAllocPage s.pmm).2.freePages.toNat + 1 = s.pmm.freePages.toNat
  exhausted : (pmmAllocPage s.pmm).1 = 0#64 ↔ ∀ p, p ∉ Offered s.pmm
  free : ∀ i ∈ s.allocated,
    (∀ p, Free (pmmFreePage (frameAddr i) s.pmm) p ↔ Free s.pmm p ∨ p = i) ∧
    (pmmFreePage (frameAddr i) s.pmm).freePages.toNat = s.pmm.freePages.toNat + 1
  mark : ∀ base length, (markRegionUsed base length s.pmm).freePages ≤ s.pmm.freePages

theorem Inv.correct (h : Inv s) : Correct s := by
  refine ⟨h.counted, fun i hi => ?_, ?_, fun i hi => ?_,
    fun base length => (counted_markRegionUsed _ _ _ h.counted).2⟩
  · rcases pmmAllocPage_spec s.pmm with ⟨hnone, _⟩ | ⟨j, hj, heq⟩
    · exact absurd hi.1 (hnone i)
    · obtain rfl := hj.unique hi
      obtain ⟨hout, hmarked⟩ := h.fresh hi.1
      rw [heq]
      exact ⟨rfl, hout, hmarked, fun p => free_set s.pmm j p _, (h.counted.set hi.1.1.1 hi.1.1.2).1⟩
  · rcases pmmAllocPage_spec s.pmm with ⟨hnone, heq⟩ | ⟨i, hi, heq⟩
    · rw [heq]
      exact ⟨fun _ => hnone, fun _ => rfl⟩
    · rw [heq]
      exact ⟨fun h0 => absurd h0 (frameAddr_ne_zero hi.1.2 hi.1.1.1), fun hn => absurd hi.1 (hn i)⟩
  · obtain ⟨_, hlt, hset⟩ := h.out i hi
    rw [pmmFreePage_used hlt hset]
    exact ⟨fun p => free_clear s.pmm p _ hlt, (h.counted.clear hlt hset).1⟩

/-- **The frame allocator is a set allocator**, after any memory map and any sequence
    of calls. -/
theorem run_correct (m : MemMap) (img : Image) {ops : List Op} {s : Sys}
    (hrun : Steps step Any (boot m img) ops s) : Correct s :=
  (hrun.invariant (fun _ _ _ h _ hs => inv_step h hs) (inv_boot m img)).correct

/-- A kernel of 512 kB at 1 MB. -/
def smallImage : Image := ⟨0x100000#64, 0x180000#64, by decide, by decide⟩

/-- Two pages at 2 MB. -/
def smallMap : MemMap := ⟨1, fun _ => ⟨0x200000#64, 0x2000#64, e820Usable⟩⟩

/-- The first page is taken, given back and taken again, and then the second one. -/
def pageCalls : List Op := [.alloc, .free 0x200000#64, .alloc, .alloc]

/-- Afterwards both pages are out. -/
theorem run_correct_pages : ∃ s, Steps step Any (boot smallMap smallImage) pageCalls s ∧
    s.allocated = {0x200, 0x201} ∧ Correct s := by
  have hrun : (runWhile step Any (boot smallMap smallImage) pageCalls).map Sys.allocated =
      some {0x200, 0x201} := by decide +kernel
  obtain ⟨s, hs, hpages⟩ := Option.map_eq_some_iff.mp hrun
  exact ⟨s, steps_of_runWhile hs, hpages, run_correct _ _ (steps_of_runWhile hs)⟩

end FrameAllocator
