import AoOs.ElfReads

/-! # The window of the loader — which pages `map_range` asks for

    `valid_user_range` keeps a load segment inside the user window, but lets an
    empty one pass unseen.  `map_range` rounds the segment to pages, and an empty
    segment in the middle of a page is rounded to that page.  So every page of a
    segment with bytes is in the window, and the page of an empty segment is
    wherever its header says (`segmentCalls_inWindow_iff`). -/

namespace LoadWindow

open Paging Vmm ProcessMemory AddressSpace Isolation Loader FramePlan

variable {v : Word}

/-! ## The calls of `process_map_user_page` -/

/-- The pages `process_map_user_page` is called for by a loop over `vs`, up to the
    first call that fails. -/
def mapCalls (flags : Word) : List Word → UProc → KState → List Word
  | [], _, _ => []
  | v :: vs, p, k => v ::
      match processMapUserPage p v flags k with
      | some (true, p, k) => mapCalls flags vs p k
      | _ => []

/-- The pages it is called for by `map_range` on behalf of a program header. -/
def segmentCalls (f : Image) (nx : Bool) (ph : Phdr) (p : UProc) (k : KState) : List Word :=
  if ph.type = ptLoad ∧ segmentOk f ph then
    mapCalls (rangeFlags nx ph.flags) (rangePages ph.vaddr (ph.vaddr + ph.memsz)) p k
  else []

/-- Those of the loop of `elf_spawn` over the program headers. -/
def loadCalls (f : Image) (nx : Bool) : List Nat → UProc → KState → List Word
  | [], _, _ => []
  | i :: is, p, k => segmentCalls f nx (phdr f i) p k ++
      if (phdr f i).type ≠ ptLoad then loadCalls f nx is p k
      else if !segmentOk f (phdr f i) then []
      else match loadSegment f nx (phdr f i) p k with
        | some ⟨none, _, p, k⟩ => loadCalls f nx is p k
        | _ => []

/-- Those of `elf_spawn`. -/
def elfCalls (f : Image) (s : PSys) : List Word :=
  match checkHeader f, processCreate s with
  | none, some (some i, s) =>
    loadCalls f s.nx (List.range (phnum f).toNat) (s.procs i) s.k
  | _, _ => []

theorem mapCalls_subset {flags : Word} {vs : List Word} {p : UProc} {k : KState}
    (h : v ∈ mapCalls flags vs p k) : v ∈ vs := by
  induction vs generalizing p k with
  | nil => cases h
  | cons u us ih =>
    rw [mapCalls, List.mem_cons] at h
    rcases h with rfl | h
    · exact List.mem_cons_self
    · split at h
      · exact List.mem_cons_of_mem _ (ih h)
      · cases h

theorem mem_loadCalls {f : Image} {nx : Bool} {is : List Nat} {p : UProc} {k : KState}
    (h : v ∈ loadCalls f nx is p k) : ∃ i ∈ is, ∃ p k, v ∈ segmentCalls f nx (phdr f i) p k := by
  induction is generalizing p k with
  | nil => cases h
  | cons i is ih =>
    have hlater : ∀ {p k}, v ∈ loadCalls f nx is p k →
        ∃ i' ∈ i :: is, ∃ p k, v ∈ segmentCalls f nx (phdr f i') p k := fun hv =>
      let ⟨i', hi, hcall⟩ := ih hv
      ⟨i', List.mem_cons_of_mem _ hi, hcall⟩
    rw [loadCalls, List.mem_append] at h
    rcases h with h | h
    · exact ⟨i, List.mem_cons_self, p, k, h⟩
    · split at h
      · exact hlater h
      · split at h
        · cases h
        · split at h
          · exact hlater h
          · cases h

/-! ## The window -/

/-- A page of the user window, other than the API and the argument page. -/
def InWindow (v : Word) : Prop :=
  0x10000 ≤ v.toNat ∧ v.toNat + pageSize ≤ userStackBase.toNat ∧ v ≠ userApiBase ∧
    v ≠ userArgvBase

/-- An empty segment that is not rounded to a page outside the window: it begins a
    page, or lies in the last one, or its page is in the window. -/
def EmptyInside (ph : Phdr) : Prop :=
  ph.memsz = 0#64 → ph.vaddr.toNat % 4096 = 0 ∨ 2 ^ 64 - 4096 ≤ ph.vaddr.toNat ∨
    InWindow (pageOf ph.vaddr)

/-- What `valid_user_range` asks for a range with bytes. -/
theorem validUserRange_window {vaddr size : Word} (h : validUserRange vaddr size)
    (h0 : size ≠ 0#64) :
    0x10000 ≤ vaddr.toNat ∧
      ¬ (vaddr.toNat ≤ 0x91000 ∧ 0x90000 < vaddr.toNat + size.toNat) ∧
      ¬ (vaddr.toNat ≤ 0x92000 ∧ 0x91000 < vaddr.toNat + size.toNat) := by
  have hbound := validUserRange_bounds h h0
  have hsum : (vaddr + size).toNat = vaddr.toNat + size.toNat := by
    rw [BitVec.toNat_add]
    omega
  rw [validUserRange, if_neg h0] at h
  simp only [Bool.if_false_left, Bool.and_eq_true, Bool.not_eq_true', decide_eq_false_iff_not] at h
  obtain ⟨hlow, -, -, -, hapi, hargv, -⟩ := h
  have hapi' : (userApiBase + 4096#64).toNat = 0x91000 := by decide
  have hargv' : (userArgvBase + 4096#64).toNat = 0x92000 := by decide
  rw [BitVec.le_def, BitVec.lt_def, hsum, hapi'] at hapi
  rw [BitVec.le_def, BitVec.lt_def, hsum, hargv'] at hargv
  rw [BitVec.lt_def] at hlow
  exact ⟨Nat.not_lt.mp hlow, hapi, hargv⟩

/-- The pages of a range with bytes: each is met by the range. -/
theorem mem_rangePages {start size : Word} (hwrap : start.toNat + size.toNat ≤ 2 ^ 64 - 4096)
    (h : v ∈ rangePages start (start + size)) : v.toNat % 4096 = 0 ∧ start.toNat < v.toNat + 4096 ∧
      (size ≠ 0#64 → v.toNat < start.toNat + size.toNat) := by
  obtain ⟨i, hi, rfl⟩ := List.mem_map.mp h
  have hpage := toNat_pageOf start
  have hsum : (start + size + 4095#64).toNat = start.toNat + size.toNat + 4095 := by
    rw [BitVec.toNat_add, BitVec.toNat_add, BitVec.toNat_ofNat]
    omega
  have hup := toNat_pageOf (start + size + 4095#64)
  rw [List.mem_range, show pageUp (start + size) = pageOf (start + size + 4095#64) from rfl, hup,
    hsum] at hi
  have hv : (pageOf start + BitVec.ofNat 64 (i * pageSize)).toNat =
      (pageOf start).toNat + i * 4096 := by
    rw [BitVec.toNat_add, BitVec.toNat_ofNat]
    simp only [pageSize] at hi ⊢
    omega
  rw [hv]
  simp only [pageSize] at hi
  refine ⟨by omega, by omega, fun h0 => ?_⟩
  have hpos : size.toNat ≠ 0 := fun hz => h0 (BitVec.eq_of_toNat_eq hz)
  omega

/-- The pages of an accepted segment with bytes are in the window. -/
theorem segment_inWindow {f : Image} {ph : Phdr} (hok : segmentOk f ph) (h0 : ph.memsz ≠ 0#64)
    (hv : v ∈ rangePages ph.vaddr (ph.vaddr + ph.memsz)) : InWindow v := by
  have hvalid := (segmentOk_valid hok).2.2
  have hbound := validUserRange_bounds hvalid h0
  obtain ⟨hlow, hapi, hargv⟩ := validUserRange_window hvalid h0
  obtain ⟨hal, hstart, hend⟩ := mem_rangePages (by omega) hv
  have hend := hend h0
  refine ⟨by omega, ?_, fun heq => ?_, fun heq => ?_⟩
  · simp only [pageSize, userStackBase, BitVec.toNat_ofNat]
    omega
  · have : v.toNat = 0x90000 := by rw [heq]; rfl
    omega
  · have : v.toNat = 0x91000 := by rw [heq]; rfl
    omega

/-- An empty range is rounded to the page it lies in, if it lies in one. -/
theorem rangePages_empty (start : Word) : rangePages start (start + 0#64) =
      if start.toNat % 4096 = 0 ∨ 2 ^ 64 - 4096 ≤ start.toNat then [] else [pageOf start] := by
  have hpage := toNat_pageOf start
  have hup := toNat_pageOf (start + 4095#64)
  have hsum := BitVec.toNat_add start 4095#64
  have hlt := start.isLt
  rw [BitVec.toNat_ofNat] at hsum
  rw [rangePages, BitVec.add_zero, show pageUp start = pageOf (start + 4095#64) from rfl, hup]
  simp only [pageSize]
  split
  · rw [show ((start + 4095#64).toNat - (start + 4095#64).toNat % 4096 - (pageOf start).toNat) /
      4096 = 0 by omega]
    rfl
  · rw [show ((start + 4095#64).toNat - (start + 4095#64).toNat % 4096 - (pageOf start).toNat) /
      4096 = 1 by omega]
    simp

/-- **The pages of a program header**, for every process and memory it is loaded
    into: all in the window exactly if an empty segment is not rounded out of
    it. -/
theorem segmentCalls_inWindow (f : Image) (nx : Bool) (ph : Phdr) (p : UProc) (k : KState) :
    (∀ v ∈ segmentCalls f nx ph p k, InWindow v) ↔
      (ph.type = ptLoad → segmentOk f ph → EmptyInside ph) := by
  rw [segmentCalls]
  by_cases hacc : ph.type = ptLoad ∧ segmentOk f ph
  swap
  · rw [if_neg hacc]
    exact iff_of_true nofun fun ht hok => absurd ⟨ht, hok⟩ hacc
  rw [if_pos hacc]
  by_cases h0 : ph.memsz = 0#64
  · rw [h0, rangePages_empty]
    split
    · rename_i hnone
      exact iff_of_true nofun fun _ _ _ => hnone.elim .inl (.inr ∘ .inl)
    · rename_i hsome
      constructor
      · intro hall _ _ _
        exact .inr (.inr (hall _ List.mem_cons_self))
      · intro hin v hv
        rw [List.mem_singleton.mp (mapCalls_subset hv)]
        rcases hin hacc.1 hacc.2 h0 with h | h | h
        · exact absurd (.inl h) hsome
        · exact absurd (.inr h) hsome
        · exact h
  · exact iff_of_true (fun v hv => segment_inWindow hacc.2 h0 (mapCalls_subset hv))
      fun _ _ hz => absurd hz h0

/-- **The loader and its window.**  A header's pages are in the window, whatever
    process and memory it meets, exactly if its segment, when empty, is not rounded
    out of it; and if that holds for all headers of a file, all pages that
    `elf_spawn` asks for are in the window. -/
theorem segmentCalls_inWindow_iff (f : Image) :
    (∀ i nx p k, (∀ v ∈ segmentCalls f nx (phdr f i) p k, InWindow v) ↔
      ((phdr f i).type = ptLoad → segmentOk f (phdr f i) → EmptyInside (phdr f i))) ∧
    ((∀ i < (phnum f).toNat, (phdr f i).type = ptLoad → segmentOk f (phdr f i) →
        EmptyInside (phdr f i)) → ∀ s, ∀ v ∈ elfCalls f s, InWindow v) := by
  refine ⟨fun i nx p k => segmentCalls_inWindow f nx (phdr f i) p k, fun h s v hv => ?_⟩
  rw [elfCalls] at hv
  split at hv
  · obtain ⟨i, hi, p, k, hcall⟩ := mem_loadCalls hv
    exact (segmentCalls_inWindow f _ (phdr f i) p k).mpr (h i (List.mem_range.mp hi)) v hcall
  · cases hv

/-- A file with an empty segment in the middle of the page at 0x1000. -/
def emptyLow : Image :=
  ElfReads.imageOf (ElfReads.elfHeader 0x400000 64 ++ ElfReads.loadHeader 6 0 0x1008 0 0)

/-- **A page below the window**: `elf_spawn` maps the page at 0x1000 for an empty
    segment there. -/
theorem emptySegment_leaves_window :
    0x1000#64 ∈ elfCalls emptyLow bootSys ∧ ¬ InWindow 0x1000#64 := by
  have hcalls : (elfCalls emptyLow bootSys).contains 0x1000#64 := by decide +kernel
  refine ⟨List.contains_iff_mem.mp hcalls, fun h => ?_⟩
  have hlow := h.1
  simp at hlow

end LoadWindow
