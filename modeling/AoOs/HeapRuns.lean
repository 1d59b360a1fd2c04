import AoOs.HeapBlocks

/-! # The kernel heap over whole runs

    Whatever is allocated and freed, in whatever order and of whatever size, the heap
    is a list of blocks that fills its megabyte, free neighbours joined, with the used
    blocks behind exactly the pointers that are out.  A pointer has room for the bytes
    that were asked for unless rounding them up to 16 passes `2 ^ 64`: then `kmalloc`
    takes a block of no bytes. -/

namespace HeapRuns

open BlockList Kmalloc HeapBlocks StepSystem

variable {sz : Nat}

/-- The end of the kernel, with room for the heap behind it. -/
structure Place where
  kernelEnd : Nat
  pos : 0 < kernelEnd
  fits : kernelEnd + 0xFFF + heapSize < 2 ^ 64

/-- `heap_base`. -/
def Place.base (pl : Place) : Nat := (pl.kernelEnd + 0xFFF) / 0x1000 * 0x1000

def Place.stop (pl : Place) : Nat := pl.base + heapSize

theorem Place.base_pos (pl : Place) : 0 < pl.base := by
  have := pl.pos
  rw [Place.base]
  omega

theorem Place.stop_lt (pl : Place) : pl.stop < 2 ^ 64 := by
  have := pl.fits
  rw [Place.stop, Place.base]
  omega

inductive Op where
  | malloc (sz : Nat)
  | free (ptr : Nat)

/-- The heap, and the pointers that are out with the sizes asked for. -/
structure Sys where
  heap : Heap
  live : List (Nat × Nat)

variable {s' : Sys}

/-- `kmalloc` of any `size_t`, and `kfree` of pointers that are out. -/
def step (s : Sys) : Op → Option Sys
  | .malloc sz =>
    if sz < 2 ^ 64 then
      let r := kmalloc s.heap sz
      some ⟨r.2, if r.1 = 0 then s.live else (r.1, sz) :: s.live⟩
    else none
  | .free ptr =>
    if ptr ∈ s.live.map Prod.fst then
      (kfree s.heap ptr).map fun heap => ⟨heap, s.live.filter fun l => l.1 != ptr⟩
    else none

/-- After `memory_init`. -/
def boot (pl : Place) (c : Cells) (pmm : Pmm.State) : Sys :=
  ⟨(memoryInit pl.kernelEnd c pmm).1, []⟩

/-! ## The invariant -/

/-- The heap is the list of blocks `bs`. -/
structure Blocks (pl : Place) (s : Sys) (bs : List Block) : Prop where
  start : s.heap.heapStart = pl.base
  base : s.heap.heapBase = pl.base
  seg : Seg s.heap.cells pl.stop pl.base bs pl.stop
  separate : Separate bs
  used : s.heap.usedMemory = usedBytes headerSize bs
  live_iff : ∀ p, p ∈ s.live.map Prod.fst ↔ p ∈ (payloads headerSize pl.base bs).map Prod.fst
  nodup : (s.live.map Prod.fst).Nodup
  room : ∀ l ∈ s.live, ∃ n, (l.1, n) ∈ payloads headerSize pl.base bs ∧
    (l.2 + blockSize ≤ 2 ^ 64 → l.2 ≤ n)

theorem blocks_boot (pl : Place) (c : Cells) (pmm : Pmm.State) :
    Blocks pl (boot pl c pmm) [⟨heapSize - headerSize, true⟩] := by
  have hstop := pl.stop_lt
  have hfits := pl.fits
  have hbase : u64 (pl.kernelEnd + 0xFFF) / 0x1000 * 0x1000 = pl.base := by
    rw [u64_of_lt (by omega)]
    rfl
  have hend : pl.base + headerSize + (heapSize - headerSize) = pl.stop := by
    have hsize : heapSize = 0x100000 := rfl
    have h24 : headerSize = 24 := rfl
    rw [Place.stop]
    omega
  have hroom : pl.base + headerSize ≤ pl.stop := by omega
  refine ⟨hbase, hbase, ⟨?_, hend⟩, .singleton _, rfl, fun p => Iff.rfl, List.nodup_nil,
    fun l hl => nomatch hl⟩
  simp only [boot, memoryInit, hbase, setFree_eq hstop hroom, setNext_eq hstop hroom, setSize]
  refine ⟨?_, ?_, ?_⟩
  · rw [store_other _ _ (by omega), store_other _ _ (by omega), store_same]
  · rw [store_other _ _ (by omega), store_same]
    rfl
  · rw [store_same, hend, link, if_pos rfl]

section Blocks

variable {pl : Place} {s : Sys} {bs : List Block} (h : Blocks pl s bs)

include h

theorem Blocks.span_eq : span headerSize bs = heapSize := by
  have := h.seg.end_eq
  rw [Place.stop] at this
  omega

omit h in
theorem length_le_span (bs : List Block) : headerSize * bs.length ≤ span headerSize bs := by
  induction bs with
  | nil => exact Nat.le_refl 0
  | cons b bs ih =>
    rw [List.length_cons, span, Nat.mul_succ]
    omega

theorem Blocks.length_le : bs.length ≤ walkBound := by
  have hlen := length_le_span bs
  rw [h.span_eq, headerSize] at hlen
  rw [walkBound]
  omega

theorem Blocks.usedMemory_le : s.heap.usedMemory ≤ heapSize := by
  rw [h.used, ← h.span_eq]
  exact usedBytes_le_span bs

/-! ## Allocation -/

/-- What `kmalloc` does when it finds a block. -/
theorem Blocks.kmalloc (sz : Nat) : (Kmalloc.kmalloc s.heap sz = (0, s.heap) ∧
      (sz = 0 ∨ ∀ b ∈ bs, ¬ FitsIn (alignedSize sz) b)) ∨
    ∃ pre b post, bs = pre ++ b :: post ∧ FitsIn (alignedSize sz) b ∧
      ∃ c, Kmalloc.kmalloc s.heap sz = (pl.base + span headerSize pre + headerSize, { s.heap with
            cells := c
            usedMemory := s.heap.usedMemory + (taken (alignedSize sz) b + headerSize) }) ∧
        Seg c pl.stop pl.base (pre ++ (carve (alignedSize sz) b ++ post)) pl.stop := by
  have hstop := pl.stop_lt
  have hsize : heapSize = 0x100000 := rfl
  have h24 : headerSize = 24 := rfl
  have h16 : blockSize = 16 := rfl
  have hused := h.usedMemory_le
  have hspan := h.span_eq
  have hbase : link pl.stop pl.base = pl.base := if_neg (by rw [Place.stop]; omega)
  have hfind := findFrom_seg hstop (alignedSize sz) pl.base_pos h.seg h.length_le
  rw [hbase, ← h.start] at hfind
  rw [Kmalloc.kmalloc]
  by_cases h0 : sz = 0
  · exact .inl ⟨if_pos h0, .inl h0⟩
  rw [if_neg h0, findFreeBlock]
  rcases hfind with ⟨hnull, hnone⟩ | ⟨pre, b, post, rfl, hfit, heq⟩
  · rw [hnull]
    exact .inl ⟨rfl, .inr hnone⟩
  refine .inr ⟨pre, b, post, rfl, hfit, ?_⟩
  -- the block that was found, and what is in front of it
  obtain ⟨hpre, hblock⟩ := seg_append.mp h.seg
  rw [span_append, span] at hspan
  have hle := hfit.2
  have htaken : taken (alignedSize sz) b ≤ b.size := by
    rw [taken]
    split <;> omega
  obtain ⟨hseg, hsz, hframe⟩ := splitBlock_seg hstop (alignedSize sz) hblock (by omega)
  rw [h.start] at heq
  have hpos := pl.base_pos
  have hend : pl.base + heapSize < 2 ^ 64 := hstop
  simp only [h.start, heq]
  rw [if_neg (by omega), hsz, u64_of_lt (n := pl.base + _ + headerSize) (by omega),
    u64_of_lt (n := taken _ b + headerSize) (by omega), u64_of_lt (by omega)]
  refine ⟨_, rfl, seg_append.mpr ⟨hpre.frame fun x _ hx => hframe x hx, hseg⟩⟩

omit h in
/-- Rounding up does not lose bytes unless it passes `2 ^ 64`. -/
theorem le_alignedSize (hsz : sz + blockSize ≤ 2 ^ 64) : sz ≤ alignedSize sz := by
  rw [blockSize] at hsz
  rw [alignedSize, blockSize, sub64, u64, u64]
  omega

theorem Blocks.malloc (hs : step s (.malloc sz) = some s') : ∃ bs', Blocks pl s' bs' := by
  rw [step] at hs
  split at hs
  swap
  · cases hs
  cases hs
  rcases h.kmalloc sz with ⟨heq, _⟩ | ⟨pre, b, post, rfl, ⟨hfree, hle⟩, c, heq, hseg⟩
  · rw [heq, if_pos rfl]
    exact ⟨bs, h⟩
  have h24 : headerSize = 24 := rfl
  have hshift : pl.base + span headerSize pre + span headerSize (carve (alignedSize sz) b) =
      pl.base + span headerSize pre + headerSize + b.size := by
    rw [span_carve]
    omega
  -- the payloads before and after: the new one in the middle
  have hold : payloads headerSize pl.base (pre ++ b :: post) = payloads headerSize pl.base pre ++
      payloads headerSize (pl.base + span headerSize pre + headerSize + b.size) post := by
    rw [payloads_append, payloads, if_pos hfree]
  have hnew : payloads headerSize pl.base (pre ++ (carve (alignedSize sz) b ++ post)) =
      payloads headerSize pl.base pre ++
        (pl.base + span headerSize pre + headerSize, taken (alignedSize sz) b) ::
        payloads headerSize (pl.base + span headerSize pre + headerSize + b.size) post := by
    rw [payloads_append, payloads_append, payloads_carve, hshift, List.singleton_append]
  have hmem : ∀ x, x ∈ payloads headerSize pl.base (pre ++ (carve (alignedSize sz) b ++ post)) ↔
      x = (pl.base + span headerSize pre + headerSize, taken (alignedSize sz) b) ∨
        x ∈ payloads headerSize pl.base (pre ++ b :: post) := by
    intro x
    rw [hnew, hold, List.mem_append, List.mem_cons, List.mem_append]
    exact or_left_comm
  rw [heq, if_neg (by omega)]
  refine ⟨_, h.start, h.base, hseg, separate_carve _ hfree h.separate, ?_, fun p => ?_, ?_,
    fun l hl => ?_⟩
  · show s.heap.usedMemory + (taken (alignedSize sz) b + headerSize) = _
    rw [h.used, usedBytes_append, usedBytes_append, usedBytes_append, usedBytes, usedBytes_carve,
      if_pos hfree]
    omega
  · rw [List.map_cons, List.mem_cons, h.live_iff, List.mem_map, List.mem_map]
    constructor
    · rintro (rfl | ⟨x, hx, rfl⟩)
      · exact ⟨_, (hmem _).mpr (.inl rfl), rfl⟩
      · exact ⟨x, (hmem x).mpr (.inr hx), rfl⟩
    · rintro ⟨x, hx, rfl⟩
      rcases (hmem x).mp hx with rfl | hx
      · exact .inl rfl
      · exact .inr ⟨x, hx, rfl⟩
  · refine List.nodup_cons.mpr ⟨fun hin => ?_, h.nodup⟩
    -- the new pointer is not among the old ones
    have hnd := payloads_nodup (h := headerSize) (by omega) pl.base
      (pre ++ (carve (alignedSize sz) b ++ post))
    rw [hnew, List.map_append, List.map_cons] at hnd
    have hout := (List.nodup_middle.mp hnd).notMem
    rw [← List.map_append, ← hold] at hout
    exact hout ((h.live_iff _).mp hin)
  · rcases List.mem_cons.mp hl with rfl | hl
    · refine ⟨_, (hmem _).mpr (.inl rfl), fun hfit => ?_⟩
      exact Nat.le_trans (le_alignedSize hfit) (le_taken hle)
    · obtain ⟨n, hn, hfit⟩ := h.room l hl
      exact ⟨n, (hmem _).mpr (.inr hn), hfit⟩

/-! ## Giving back -/

/-- `kfree` of a pointer that is out does not panic and frees its block. -/
theorem Blocks.kfree {ptr : Nat} (hptr : ptr ∈ s.live.map Prod.fst) :
    ∃ pre b post, bs = pre ++ b :: post ∧ b.free = false ∧
      ptr = pl.base + span headerSize pre + headerSize ∧
      ∃ c x xs, pre ++ ⟨b.size, true⟩ :: post = x :: xs ∧
        Kmalloc.kfree s.heap ptr = some { s.heap with
          cells := c
          usedMemory := s.heap.usedMemory - (b.size + headerSize) } ∧
        Seg c pl.stop pl.base (mergeInto headerSize x xs) pl.stop := by
  have hstop := pl.stop_lt
  have hsize : heapSize = 0x100000 := rfl
  have h24 : headerSize = 24 := rfl
  have hpos := pl.base_pos
  have hend : pl.base + heapSize < 2 ^ 64 := hstop
  obtain ⟨p, hp, rfl⟩ := List.mem_map.mp ((h.live_iff ptr).mp hptr)
  obtain ⟨pre, b, post, rfl, hused, rfl⟩ := exists_of_mem_payloads hp
  refine ⟨pre, b, post, rfl, hused, rfl, ?_⟩
  have hspan := h.span_eq
  have hlen := h.length_le
  have hle := h.usedMemory_le
  have hmine : b.size + headerSize ≤ s.heap.usedMemory := by
    rw [h.used, usedBytes_append, usedBytes, if_neg (by rw [hused]; decide)]
    omega
  rw [span_append, span] at hspan
  obtain ⟨hpre, hblock⟩ := seg_append.mp h.seg
  have hfree := hblock.1.isFree_eq hstop (by rw [Place.stop]; omega)
  obtain ⟨hset, hframe⟩ := setFree_seg hstop hblock
  have hall : Seg (setFree s.heap.cells (pl.base + span headerSize pre) 1) pl.stop pl.base
      (pre ++ ⟨b.size, true⟩ :: post) pl.stop :=
    seg_append.mpr ⟨hpre.frame fun x _ hx => hframe x hx, hset⟩
  obtain ⟨x, xs, hcons⟩ : ∃ x xs, pre ++ ⟨b.size, true⟩ :: post = x :: xs := by
    cases pre with
    | nil => exact ⟨_, _, rfl⟩
    | cons x pre => exact ⟨_, _, rfl⟩
  have hxs : xs.length ≤ walkBound := by
    have hl := congrArg List.length hcons
    rw [List.length_append, List.length_cons, List.length_cons] at hl
    rw [List.length_append, List.length_cons] at hlen
    omega
  rw [hcons] at hall
  refine ⟨_, x, xs, hcons, ?_, (mergeFrom_seg hstop pl.base_pos hall hxs).1⟩
  have hback : sub64 (pl.base + span headerSize pre + headerSize) headerSize =
      pl.base + span headerSize pre := by
    rw [sub64_of_le (by omega) (by omega)]
    omega
  simp only
  rw [Kmalloc.kfree, if_neg (by omega), hback, h.base,
    u64_of_lt (n := pl.base + heapSize) hend, if_neg (by omega), hfree, hused,
    if_neg (by decide), Kmalloc.size, hblock.1.size, u64_of_lt (by omega),
    sub64_of_le (by omega) hmine, mergeFreeBlocks, h.start]

theorem Blocks.free {ptr : Nat} (hs : step s (.free ptr) = some s') : ∃ bs', Blocks pl s' bs' := by
  rw [step] at hs
  split at hs
  swap
  · cases hs
  rename_i hptr
  obtain ⟨pre, b, post, rfl, hused, rfl, c, x, xs, hcons, heq, hseg⟩ := h.kfree hptr
  rw [heq] at hs
  cases hs
  have h24 : headerSize = 24 := rfl
  -- the payloads before and after: one less
  have hold : payloads headerSize pl.base (pre ++ b :: post) = payloads headerSize pl.base pre ++
      (pl.base + span headerSize pre + headerSize, b.size) ::
      payloads headerSize (pl.base + span headerSize pre + headerSize + b.size) post := by
    rw [payloads_append, payloads, if_neg (by rw [hused]; decide)]
  have hnew : payloads headerSize pl.base (mergeInto headerSize x xs) =
      payloads headerSize pl.base pre ++
        payloads headerSize (pl.base + span headerSize pre + headerSize + b.size) post := by
    rw [payloads_mergeInto, ← hcons, payloads_append, payloads, if_pos rfl]
  have hnd := payloads_nodup (h := headerSize) (by omega) pl.base (pre ++ b :: post)
  rw [hold, List.map_append, List.map_cons] at hnd
  have hout := (List.nodup_middle.mp hnd).notMem
  rw [← List.map_append, ← hnew] at hout
  have hmem : ∀ q, q ∈ payloads headerSize pl.base (mergeInto headerSize x xs) ↔
      q ∈ payloads headerSize pl.base (pre ++ b :: post) ∧
        q.1 ≠ pl.base + span headerSize pre + headerSize := by
    intro q
    refine ⟨fun hq => ⟨?_, fun heq => hout (List.mem_map.mpr ⟨q, hq, heq⟩)⟩, fun hq => ?_⟩
    · rw [hnew, List.mem_append] at hq
      rw [hold, List.mem_append, List.mem_cons]
      exact hq.imp id .inr
    · obtain ⟨hq, hne⟩ := hq
      rw [hold, List.mem_append, List.mem_cons] at hq
      rw [hnew, List.mem_append]
      rcases hq with hq | rfl | hq
      · exact .inl hq
      · exact absurd rfl hne
      · exact .inr hq
  have hlive : ∀ l, l ∈ s.live.filter (fun l => l.1 != pl.base + span headerSize pre + headerSize) ↔
      l ∈ s.live ∧ l.1 ≠ pl.base + span headerSize pre + headerSize := by
    intro l
    rw [List.mem_filter, bne_iff_ne]
  refine ⟨_, h.start, h.base, hseg, separate_mergeInto _ _, ?_, fun p => ?_, ?_, fun l hl => ?_⟩
  · show s.heap.usedMemory - (b.size + headerSize) = _
    rw [h.used, usedBytes_mergeInto, ← hcons, usedBytes_append, usedBytes_append, usedBytes,
      usedBytes, if_neg (by rw [hused]; decide), if_pos rfl]
    omega
  · have hp := h.live_iff p
    rw [List.mem_map, List.mem_map] at hp ⊢
    constructor
    · rintro ⟨l, hl, rfl⟩
      obtain ⟨hl, hne⟩ := (hlive l).mp hl
      obtain ⟨q, hq, heq⟩ := hp.mp ⟨l, hl, rfl⟩
      exact ⟨q, (hmem q).mpr ⟨hq, heq ▸ hne⟩, heq⟩
    · rintro ⟨q, hq, rfl⟩
      obtain ⟨hq, hne⟩ := (hmem q).mp hq
      obtain ⟨l, hl, heq⟩ := hp.mpr ⟨q, hq, rfl⟩
      exact ⟨l, (hlive l).mpr ⟨hl, heq ▸ hne⟩, heq⟩
  · exact h.nodup.sublist (List.filter_sublist.map Prod.fst)
  · obtain ⟨hl, hne⟩ := (hlive l).mp hl
    obtain ⟨n, hn, hfit⟩ := h.room l hl
    exact ⟨n, (hmem _).mpr ⟨hn, hne⟩, hfit⟩

end Blocks

variable {pl : Place} {s : Sys} {bs : List Block}

theorem blocks_step {op : Op} (h : ∃ bs, Blocks pl s bs) (hs : step s op = some s') :
    ∃ bs, Blocks pl s' bs := by
  obtain ⟨bs, h⟩ := h
  cases op with
  | malloc sz => exact h.malloc hs
  | free ptr => exact h.free hs

/-! ## What holds in every state -/

/-- The blocks fill the heap, free neighbours are joined, the counter counts the used
    ones, whose payloads do not overlap and start at the pointers that are out, and
    with no pointer out the heap is as it was at first. -/
def Sound (pl : Place) (s : Sys) : Prop :=
  ∃ bs, Seg s.heap.cells pl.stop pl.base bs pl.stop ∧ Separate bs ∧
    s.heap.usedMemory = usedBytes headerSize bs ∧
    (payloads headerSize pl.base bs).Pairwise (fun x y => x.1 + x.2 ≤ y.1) ∧
    (∀ p, p ∈ s.live.map Prod.fst ↔ p ∈ (payloads headerSize pl.base bs).map Prod.fst) ∧
    (s.live = [] → bs = [⟨heapSize - headerSize, true⟩] ∧ s.heap.usedMemory = 0)

theorem Blocks.sound (h : Blocks pl s bs) : Sound pl s := by
  refine ⟨bs, h.seg, h.separate, h.used, (payloads_pairwise _ _).imp fun hxy => by omega,
    h.live_iff, fun hlive => ?_⟩
  have hnone : payloads headerSize pl.base bs = [] := by
    refine List.eq_nil_iff_forall_not_mem.mpr fun x hx => ?_
    have hmem := (h.live_iff x.1).mpr (List.mem_map.mpr ⟨x, hx, rfl⟩)
    rw [hlive] at hmem
    cases hmem
  have hspan := h.span_eq
  have hsize : heapSize = 0x100000 := rfl
  cases bs with
  | nil => exact absurd hspan (by rw [hsize]; decide)
  | cons b bs =>
    obtain ⟨rfl, hfree⟩ := single_of_separate h.separate hnone
    rw [h.used, usedBytes, if_pos hfree]
    refine ⟨?_, rfl⟩
    rw [span, span] at hspan
    obtain ⟨sz, free⟩ := b
    simp only at hspan hfree
    rw [hfree, show sz = heapSize - headerSize by omega]

/-- The bytes asked for behind two pointers do not overlap. -/
def Apart (l l' : Nat × Nat) : Prop := l.1 + l.2 ≤ l'.1 ∨ l'.1 + l'.2 ≤ l.1

theorem Blocks.apart (h : Blocks pl s bs) (hfit : ∀ l ∈ s.live, l.2 + blockSize ≤ 2 ^ 64) :
    s.live.Pairwise Apart := by
  have hne : s.live.Pairwise fun l l' => l.1 ≠ l'.1 := List.pairwise_map.mp h.nodup
  refine hne.imp_of_mem fun {l l'} hl hl' hne => ?_
  obtain ⟨n, hn, hle⟩ := h.room l hl
  obtain ⟨n', hn', hle'⟩ := h.room l' hl'
  have hl := hle (hfit l hl)
  have hl' := hle' (hfit l' hl')
  rcases payloads_apart _ hn _ hn' with heq | hlow | hhigh
  · exact absurd (congrArg Prod.fst heq) hne
  · exact .inl (by omega)
  · exact .inr (by omega)

theorem sizes_step {op : Op} (h : ∀ l ∈ s.live, l.2 + blockSize ≤ 2 ^ 64)
    (hop : ∀ sz, op = .malloc sz → sz + blockSize ≤ 2 ^ 64) (hs : step s op = some s') :
    ∀ l ∈ s'.live, l.2 + blockSize ≤ 2 ^ 64 := by
  cases op with
  | malloc sz =>
    rw [step] at hs
    split at hs
    swap
    · cases hs
    cases hs
    intro l hl
    simp only at hl
    split at hl
    · exact h l hl
    · rcases List.mem_cons.mp hl with rfl | hl
      · exact hop sz rfl
      · exact h l hl
  | free ptr =>
    rw [step] at hs
    split at hs
    swap
    · cases hs
    obtain ⟨heap, _, rfl⟩ := Option.map_eq_some_iff.mp hs
    exact fun l hl => h l (List.mem_filter.mp hl).1

/-- **The heap invariant.**  After any sequence of `kmalloc` and of `kfree` of pointers
    that are out, the heap is sound and frees every pointer that is out without a
    panic; and if no size asked for passes `2 ^ 64` when it is rounded up, the bytes
    behind the pointers do not overlap. -/
theorem heap_invariant (pl : Place) (c : Cells) (pmm : Pmm.State) {ops : List Op} {s : Sys}
    (hrun : Steps step Any (boot pl c pmm) ops s) :
    Sound pl s ∧ (∀ ptr ∈ s.live.map Prod.fst, (kfree s.heap ptr).isSome) ∧
    ((∀ op ∈ ops, ∀ sz, op = .malloc sz → sz + blockSize ≤ 2 ^ 64) → s.live.Pairwise Apart) := by
  obtain ⟨bs, h⟩ : ∃ bs, Blocks pl s bs :=
    hrun.invariant (fun _ _ _ h _ hs => blocks_step h hs) ⟨_, blocks_boot pl c pmm⟩
  refine ⟨h.sound, fun ptr hptr => ?_, fun hops => h.apart ?_⟩
  · obtain ⟨_, _, _, _, _, _, _, _, _, _, heq, _⟩ := h.kfree hptr
    rw [heq]
    rfl
  · refine (hrun.of_labels hops).invariant (I := fun s => ∀ l ∈ s.live, l.2 + blockSize ≤ 2 ^ 64)
      (fun _ _ _ h hop hs => sizes_step h hop hs) fun l hl => nomatch hl

/-! ## The room behind a pointer -/

/-- The block behind the pointer is as large as the request, and the bytes asked for lie
    inside the heap. -/
def Roomy (pl : Place) (sz : Nat) (r : Nat × Heap) : Prop :=
  r.1 ≠ 0 → sz ≤ size r.2.cells (sub64 r.1 headerSize) ∧ pl.base ≤ r.1 ∧ r.1 + sz ≤ pl.stop

/-- No block of the heap is free. -/
def AllUsed (pl : Place) (s : Sys) : Prop :=
  ∃ bs, Seg s.heap.cells pl.stop pl.base bs pl.stop ∧ ∀ b ∈ bs, b.free = false

/-- A request that passes `2 ^ 64` is rounded to no bytes. -/
theorem alignedSize_wrapped (hsz : sz < 2 ^ 64) (hwrap : 2 ^ 64 < sz + blockSize) :
    alignedSize sz = 0 := by
  rw [blockSize] at hwrap
  rw [alignedSize, blockSize, sub64, u64, u64]
  omega

theorem seg_unique {c : Cells} {stop : Nat} {bs bs' : List Block} {a : Nat}
    (h : Seg c stop a bs stop) (h' : Seg c stop a bs' stop) : bs = bs' := by
  induction bs generalizing a bs' with
  | nil =>
    obtain rfl : a = stop := h
    cases bs' with
    | nil => rfl
    | cons b' bs' =>
      have := h'.2.end_eq
      have h24 : headerSize = 24 := rfl
      omega
  | cons b bs ih =>
    have hend := h.2.end_eq
    have h24 : headerSize = 24 := rfl
    cases bs' with
    | nil =>
      obtain rfl : a = stop := h'
      omega
    | cons b' bs' =>
      -- the header determines the block, and with it where the next one starts
      have hsize : b.size = b'.size := h.1.size.symm.trans h'.1.size
      have hflag := h.1.flag.symm.trans h'.1.flag
      have hb : b = b' := by
        obtain ⟨sz, free⟩ := b
        obtain ⟨sz', free'⟩ := b'
        obtain rfl : sz = sz' := hsize
        cases free <;> cases free' <;> first | rfl | exact absurd hflag (by simp)
      subst hb
      rw [ih h.2 h'.2]

/-- What a pointer of `kmalloc` has behind it. -/
theorem Blocks.kmalloc_room (h : Blocks pl s bs) (hne : (Kmalloc.kmalloc s.heap sz).1 ≠ 0) :
    ∃ n, alignedSize sz ≤ n ∧ pl.base ≤ (Kmalloc.kmalloc s.heap sz).1 ∧
      size (Kmalloc.kmalloc s.heap sz).2.cells
        (sub64 (Kmalloc.kmalloc s.heap sz).1 headerSize) = n ∧
      (Kmalloc.kmalloc s.heap sz).1 + n ≤ pl.stop := by
  rcases h.kmalloc sz with ⟨heq, _⟩ | ⟨pre, b, post, rfl, ⟨_, hle⟩, c, heq, hseg⟩
  · exact absurd (congrArg Prod.fst heq) hne
  have h24 : headerSize = 24 := rfl
  have hstop := pl.stop_lt
  obtain ⟨_, hseg⟩ := seg_append.mp hseg
  obtain ⟨rest, hcarve⟩ : ∃ rest, carve (alignedSize sz) b =
      ⟨taken (alignedSize sz) b, false⟩ :: rest := by
    rw [carve, taken]
    split
    · exact ⟨_, rfl⟩
    · exact ⟨_, rfl⟩
  rw [hcarve, List.cons_append] at hseg
  have hend := hseg.2.end_eq
  have hsize := hseg.1.size
  dsimp only at hend hsize
  rw [heq]
  dsimp only
  refine ⟨taken (alignedSize sz) b, le_taken hle, by omega, ?_, by omega⟩
  rw [sub64_of_le (by omega) (Nat.le_add_left _ _), Nat.add_sub_cancel]
  exact hsize

/-- **`kmalloc` returns enough room** unless the request passes `2 ^ 64` when it is
    rounded up and there is a free block. -/
theorem kmalloc_roomy_iff (pl : Place) (c : Cells) (pmm : Pmm.State) {ops : List Op} {s : Sys}
    (hrun : Steps step Any (boot pl c pmm) ops s) {sz : Nat} (hsz : sz < 2 ^ 64) :
    Roomy pl sz (kmalloc s.heap sz) ↔ sz + blockSize ≤ 2 ^ 64 ∨ AllUsed pl s := by
  obtain ⟨bs, h⟩ : ∃ bs, Blocks pl s bs :=
    hrun.invariant (fun _ _ _ h _ hs => blocks_step h hs) ⟨_, blocks_boot pl c pmm⟩
  have hstop := pl.stop_lt
  constructor
  · intro hroomy
    by_cases hfit : sz + blockSize ≤ 2 ^ 64
    · exact .inl hfit
    refine .inr ⟨bs, h.seg, fun b hb => ?_⟩
    have hzero := alignedSize_wrapped hsz (by omega)
    have h16 : blockSize = 16 := rfl
    rcases h.kmalloc sz with ⟨_, h0 | hnone⟩ | ⟨pre, b', post, _, _, c', heq, _⟩
    · omega
    · rw [hzero] at hnone
      cases hfree : b.free with
      | true => exact absurd ⟨hfree, Nat.zero_le _⟩ (hnone b hb)
      | false => rfl
    · -- the bytes asked for do not fit below `2 ^ 64` at all
      have h24 : headerSize = 24 := rfl
      have hptr : (kmalloc s.heap sz).1 ≠ 0 := by
        rw [heq]
        dsimp only
        omega
      have := (hroomy hptr).2.2
      rw [heq] at this
      dsimp only at this
      omega
  · rintro (hfit | ⟨bs', hseg, hused⟩) hne
    · obtain ⟨n, hle, hbase, hsize, hend⟩ := h.kmalloc_room hne
      have := le_alignedSize hfit
      exact ⟨by omega, hbase, by omega⟩
    · obtain rfl := seg_unique hseg h.seg
      rcases h.kmalloc sz with ⟨heq, _⟩ | ⟨pre, b, post, rfl, hb, _⟩
      · exact absurd (congrArg Prod.fst heq) hne
      · cases hb.1.symm.trans (hused b (by simp))

/-! ## A request of `2 ^ 64 - 1` bytes -/

/-- A kernel that ends at 2 MB. -/
def smallPlace : Place := ⟨0x200000, by decide, by decide⟩

/-- The heap there after `memory_init`. -/
def smallBoot : Sys := boot smallPlace (fun _ => 0) Pmm.allUsed

/-- The request is rounded to no bytes at all, so `kmalloc` succeeds, and the next
    pointer it hands out lies among the bytes asked for. -/
theorem kmalloc_overlaps : ∃ s, Steps step Any smallBoot [.malloc (2 ^ 64 - 1), .malloc 16] s ∧
    s.live = [(0x200030, 16), (0x200018, 2 ^ 64 - 1)] ∧ ¬ s.live.Pairwise Apart := by
  have hrun : (runWhile step Any smallBoot [.malloc (2 ^ 64 - 1), .malloc 16]).map Sys.live =
      some [(0x200030, 16), (0x200018, 2 ^ 64 - 1)] := by decide
  obtain ⟨s, hs, hlive⟩ := Option.map_eq_some_iff.mp hrun
  refine ⟨s, steps_of_runWhile hs, hlive, fun hp => ?_⟩
  rw [hlive] at hp
  have hapart := (List.pairwise_cons.mp hp).1 _ List.mem_cons_self
  rw [Apart] at hapart
  omega

/-- The first of two blocks is freed, and a smaller one put in its place. -/
def reuseCalls : List Op := [.malloc 64, .malloc 32, .free 0x200018, .malloc 16]

/-- After them two pointers are out, and their bytes apart. -/
theorem heap_invariant_reuse : ∃ s, Steps step Any smallBoot reuseCalls s ∧
    s.live = [(0x200018, 16), (0x200070, 32)] ∧ Sound smallPlace s ∧ s.live.Pairwise Apart := by
  have hrun : (runWhile step Any smallBoot reuseCalls).map Sys.live =
      some [(0x200018, 16), (0x200070, 32)] := by decide
  obtain ⟨s, hs, hlive⟩ := Option.map_eq_some_iff.mp hrun
  have hrun := steps_of_runWhile hs
  obtain ⟨hsound, _, hapart⟩ := heap_invariant smallPlace (fun _ => 0) Pmm.allUsed hrun
  refine ⟨s, hrun, hlive, hsound, hapart fun op hop sz heq => ?_⟩
  subst heq
  have hsz : ∀ op ∈ reuseCalls, ∀ n, op = .malloc n → n ≤ 64 := by simp [reuseCalls]
  have := hsz _ hop sz rfl
  have h16 : blockSize = 16 := rfl
  omega

/-- The block of a request that wraps around has no bytes. -/
theorem kmalloc_no_room : Steps step Any smallBoot [] smallBoot ∧
    (kmalloc smallBoot.heap (2 ^ 64 - 1)).1 = 0x200018 ∧
    ¬ Roomy smallPlace (2 ^ 64 - 1) (kmalloc smallBoot.heap (2 ^ 64 - 1)) := by
  have hptr : (kmalloc smallBoot.heap (2 ^ 64 - 1)).1 = 0x200018 := by decide
  refine ⟨.nil _, hptr, fun hroomy => ?_⟩
  have hend := (hroomy (by rw [hptr]; decide)).2.2
  have hstop := smallPlace.stop_lt
  rw [hptr] at hend
  omega

/-- A request of 100 bytes on the fresh heap gets its room. -/
theorem kmalloc_roomy_hundred :
    (kmalloc smallBoot.heap 100).1 = 0x200018 ∧ Roomy smallPlace 100 (kmalloc smallBoot.heap 100) :=
  ⟨by decide, (kmalloc_roomy_iff smallPlace (fun _ => 0) Pmm.allUsed (.nil _) (by decide)).mpr
    (.inl (by decide))⟩

end HeapRuns
