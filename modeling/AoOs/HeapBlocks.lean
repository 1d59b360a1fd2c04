import AoOs.Kmalloc

/-! # The block list of the heap in memory

    `Seg c stop a bs e`: the headers of the blocks `bs` stand in memory one behind the
    other from `a` to `e`, each pointing to the next, the one that ends at `stop` to
    nothing.  Each loop over the list is described by what it does to the blocks:
    `find_free_block` finds the first that fits, `split_block` and the store behind it
    carve it, `merge_free_blocks` joins free neighbours. -/

namespace HeapBlocks

open BlockList Kmalloc

variable {post : List Block}

/-- The `next` field of a block that ends at `a`. -/
def link (stop a : Nat) : Nat := if a = stop then 0 else a

/-- The header at `a` is that of block `b`. -/
structure HeaderAt (c : Cells) (stop a : Nat) (b : Block) : Prop where
  size : c a = b.size
  flag : c (a + 8) = if b.free then 1 else 0
  next : c (a + 16) = link stop (a + headerSize + b.size)

def Seg (c : Cells) (stop : Nat) : Nat → List Block → Nat → Prop
  | a, [], e => a = e
  | a, b :: bs, e => HeaderAt c stop a b ∧ Seg c stop (a + headerSize + b.size) bs e

section Seg

variable {c c' : Cells} {stop a e : Nat} {b : Block} {bs : List Block}

theorem Seg.end_eq (h : Seg c stop a bs e) : e = a + span headerSize bs := by
  induction bs generalizing a with
  | nil => exact h.symm
  | cons b bs ih =>
    have := ih h.2
    rw [span]
    omega

theorem seg_append {xs ys : List Block} : Seg c stop a (xs ++ ys) e ↔
    Seg c stop a xs (a + span headerSize xs) ∧ Seg c stop (a + span headerSize xs) ys e := by
  induction xs generalizing a with
  | nil => exact ⟨fun h => ⟨rfl, h⟩, fun h => h.2⟩
  | cons b bs ih =>
    have hshift : a + headerSize + b.size + span headerSize bs =
        a + span headerSize (b :: bs) := by
      rw [span]
      omega
    rw [List.cons_append, Seg, Seg, ih, hshift, and_assoc]

/-- The headers are all that a segment says about memory. -/
theorem Seg.frame (h : Seg c stop a bs e) (hc : ∀ x, a ≤ x → x < e → c' x = c x) :
    Seg c' stop a bs e := by
  induction bs generalizing a with
  | nil => exact h
  | cons b bs ih =>
    have hend := h.2.end_eq
    have h24 : headerSize = 24 := rfl
    obtain ⟨⟨hsize, hflag, hnext⟩, hrest⟩ := h
    refine ⟨⟨?_, ?_, ?_⟩, ih hrest fun x hx hxe => hc x (by omega) hxe⟩
    · rw [hc a (by omega) (by omega), hsize]
    · rw [hc (a + 8) (by omega) (by omega), hflag]
    · rw [hc (a + 16) (by omega) (by omega), hnext]

variable (hstop : stop < 2 ^ 64) (sz : Nat)

include hstop

theorem HeaderAt.isFree_eq (h : HeaderAt c stop a b) (ha : a + headerSize ≤ stop) :
    isFree c a = b.free := by
  rw [headerSize] at ha
  rw [isFree, u64_of_lt (by omega), h.flag]
  cases b.free <;> rfl

theorem HeaderAt.next_eq (h : HeaderAt c stop a b) (ha : a + headerSize ≤ stop) :
    Kmalloc.next c a = link stop (a + headerSize + b.size) := by
  rw [headerSize] at ha
  rw [Kmalloc.next, u64_of_lt (by omega), h.next]

theorem setFree_eq {a : Nat} (ha : a + headerSize ≤ stop) (w : Nat) :
    setFree c a w = store c (a + 8) w := by
  rw [headerSize] at ha
  rw [setFree, u64_of_lt (by omega)]

theorem setNext_eq {a : Nat} (ha : a + headerSize ≤ stop) (w : Nat) :
    setNext c a w = store c (a + 16) w := by
  rw [headerSize] at ha
  rw [setNext, u64_of_lt (by omega)]

/-! ## Finding -/

/-- The block can hold `sz` bytes. -/
def FitsIn (sz : Nat) (b : Block) : Prop := b.free ∧ sz ≤ b.size

/-- `find_free_block` finds the first block that fits, or none does. -/
theorem findFrom_seg (hpos : 0 < a) (h : Seg c stop a bs stop) {n : Nat} (hn : bs.length ≤ n) :
    (findFrom c sz n (link stop a) = 0 ∧ ∀ b ∈ bs, ¬ FitsIn sz b) ∨
      ∃ pre b post, bs = pre ++ b :: post ∧ FitsIn sz b ∧
        findFrom c sz n (link stop a) = a + span headerSize pre := by
  induction bs generalizing a n with
  | nil =>
    have hnull : findFrom c sz n 0 = 0 := by cases n <;> rfl
    obtain rfl : a = stop := h
    rw [link, if_pos rfl]
    exact .inl ⟨hnull, fun b hb => nomatch hb⟩
  | cons b bs ih =>
    obtain ⟨hhead, hrest⟩ := h
    have hend := hrest.end_eq
    have h24 : headerSize = 24 := rfl
    obtain ⟨m, rfl⟩ : ∃ m, n = m + 1 := ⟨n - 1, by rw [List.length_cons] at hn; omega⟩
    rw [link, if_neg (by omega), findFrom, if_neg (by omega), hhead.isFree_eq hstop (by omega),
      hhead.next_eq hstop (by omega), Kmalloc.size, hhead.size]
    by_cases hfit : (b.free && decide (sz ≤ b.size))
    · rw [if_pos hfit]
      obtain ⟨hfree, hsz⟩ := Bool.and_eq_true_iff.mp hfit
      exact .inr ⟨[], b, bs, rfl, ⟨hfree, of_decide_eq_true hsz⟩, rfl⟩
    · rw [if_neg hfit]
      rcases ih (by omega) hrest (Nat.le_of_succ_le_succ hn) with
        ⟨hnull, hnone⟩ | ⟨pre, b', post, rfl, hb, heq⟩
      · refine .inl ⟨hnull, fun x hx => ?_⟩
        rcases List.mem_cons.mp hx with rfl | hx
        · exact fun hx => hfit (Bool.and_eq_true_iff.mpr ⟨hx.1, decide_eq_true hx.2⟩)
        · exact hnone x hx
      · refine .inr ⟨b :: pre, b', post, rfl, hb, heq.trans ?_⟩
        rw [span]
        omega

/-! ## Carving -/

/-- What becomes of a free block of which `sz` bytes are taken. -/
def carve (sz : Nat) (b : Block) : List Block :=
  if sz + headerSize + blockSize ≤ b.size then
    [⟨sz, false⟩, ⟨b.size - sz - headerSize, true⟩]
  else [⟨b.size, false⟩]

/-- The bytes of the block that is taken. -/
def taken (sz : Nat) (b : Block) : Nat :=
  if sz + headerSize + blockSize ≤ b.size then sz else b.size

omit hstop in
theorem le_taken {sz : Nat} {b : Block} (h : sz ≤ b.size) : sz ≤ taken sz b := by
  rw [taken]
  split
  · exact Nat.le_refl sz
  · exact h

omit hstop in
theorem usedBytes_carve (b : Block) :
    usedBytes headerSize (carve sz b) = taken sz b + headerSize := by
  rw [carve, taken]
  split <;> rfl

omit hstop in
theorem payloads_carve (b : Block) (a : Nat) :
    payloads headerSize a (carve sz b) = [(a + headerSize, taken sz b)] := by
  rw [carve, taken]
  split <;> rfl

omit hstop in
theorem separate_carve {pre : List Block} {b : Block} (hb : b.free)
    (hs : Separate (pre ++ b :: post)) : Separate (pre ++ (carve sz b ++ post)) := by
  have hpost : Separate (b :: post) := (List.isChain_append.mp hs).2.1
  rw [carve]
  split
  · refine hs.splice rfl (.cons_cons (fun hboth => nomatch hboth.1) ?_)
    exact hpost.head fun _ => hb
  · exact hs.splice rfl (hpost.head fun hc => nomatch hc)

omit hstop in
theorem span_carve (b : Block) : span headerSize (carve sz b) = headerSize + b.size := by
  rw [carve]
  split
  · rename_i hsz
    simp only [span]
    omega
  · rfl

/-- The six stores of a split: the header at `new`, then the one at `a`. -/
def splitCells (c : Cells) (a new sz w l : Nat) : Cells :=
  store (store (store (store (store (store c new w) (new + 8) 1) (new + 16) l) a sz) (a + 16) new)
    (a + 8) 0

omit hstop in
theorem splitCells_spec (c : Cells) {a new : Nat} (h : a + 24 ≤ new) (sz w l : Nat) :
    (splitCells c a new sz w l a = sz ∧ splitCells c a new sz w l (a + 8) = 0 ∧
      splitCells c a new sz w l (a + 16) = new) ∧
    (splitCells c a new sz w l new = w ∧ splitCells c a new sz w l (new + 8) = 1 ∧
      splitCells c a new sz w l (new + 16) = l) ∧
    ∀ x, x < a ∨ new + 24 ≤ x → splitCells c a new sz w l x = c x := by
  refine ⟨⟨?_, store_same .., ?_⟩, ⟨?_, ?_, ?_⟩, fun x hx => ?_⟩
  · rw [splitCells, store_other _ _ (by omega), store_other _ _ (by omega), store_same]
  · rw [splitCells, store_other _ _ (by omega), store_same]
  · simp (disch := omega) only [splitCells, store_other, store_same]
  · simp (disch := omega) only [splitCells, store_other, store_same]
  · simp (disch := omega) only [splitCells, store_other, store_same]
  · simp (disch := omega) only [splitCells, store_other]

/-- `split_block` where there is room for another block, and the mark behind it. -/
theorem splitBlock_eq {sz : Nat} (h : Seg c stop a (b :: post) stop)
    (hsz : sz + headerSize + blockSize ≤ b.size) :
    setFree (splitBlock c a sz) a 0 = splitCells c a (a + headerSize + sz) sz
      (b.size - sz - headerSize) (link stop (a + headerSize + b.size)) := by
  obtain ⟨hhead, hrest⟩ := h
  have hend := hrest.end_eq
  have h24 : headerSize = 24 := rfl
  have h16 : blockSize = 16 := rfl
  have hnext : next (store (store c (a + headerSize + sz) (b.size - sz - headerSize))
      (a + headerSize + sz + 8) 1) a = link stop (a + headerSize + b.size) := by
    rw [next, u64_of_lt (by omega), store_other _ _ (by omega), store_other _ _ (by omega),
      hhead.next]
  rw [splitBlock, setFree_eq hstop (by omega), Kmalloc.size, hhead.size,
    u64_of_lt (n := sz + headerSize) (by omega), u64_of_lt (by omega), if_pos hsz,
    u64_of_lt (n := a + headerSize) (by omega), u64_of_lt (n := a + headerSize + sz) (by omega),
    sub64_of_le (m := b.size) (by omega) (by omega), sub64_of_le (by omega) (by omega)]
  simp only [setSize, setFree_eq hstop (show a + headerSize + sz + headerSize ≤ stop by omega),
    setNext_eq hstop (show a + headerSize + sz + headerSize ≤ stop by omega),
    setNext_eq hstop (show a + headerSize ≤ stop by omega), hnext]
  rfl

/-- A block that is taken is carved. -/
theorem splitBlock_seg (h : Seg c stop a (b :: post) stop)
    (hbig : sz + headerSize + blockSize < 2 ^ 64) :
    Seg (setFree (splitBlock c a sz) a 0) stop a (carve sz b ++ post) stop ∧
    Kmalloc.size (setFree (splitBlock c a sz) a 0) a = taken sz b ∧
    ∀ x, x < a → setFree (splitBlock c a sz) a 0 x = c x := by
  have ⟨hhead, hrest⟩ := h
  have hend := hrest.end_eq
  have h24 : headerSize = 24 := rfl
  rw [carve, taken]
  by_cases hsplit : sz + headerSize + blockSize ≤ b.size
  · -- the new header lies in the payload of the old block
    have h16 : blockSize = 16 := rfl
    rw [if_pos hsplit, if_pos hsplit, splitBlock_eq hstop h hsplit]
    obtain ⟨⟨hsize, hflag, hnext⟩, ⟨hsize', hflag', hnext'⟩, hframe⟩ :=
      splitCells_spec c (show a + 24 ≤ a + headerSize + sz by omega) sz
        (b.size - sz - headerSize) (link stop (a + headerSize + b.size))
    have hfrom : a + headerSize + sz + headerSize + (b.size - sz - headerSize) =
        a + headerSize + b.size := by omega
    have hlink : link stop (a + headerSize + sz) = a + headerSize + sz := if_neg (by omega)
    refine ⟨⟨⟨hsize, hflag, hnext.trans hlink.symm⟩, ⟨hsize', hflag', hnext'.trans ?_⟩, ?_⟩,
      hsize, fun x hx => hframe x (.inl hx)⟩
    · rw [hfrom]
    · simp only [hfrom]
      exact hrest.frame fun x hx _ => hframe x (.inr (by omega))
  · have hstay : splitBlock c a sz = c := by
      rw [splitBlock, Kmalloc.size, hhead.size, u64_of_lt (n := sz + headerSize) (by omega),
        u64_of_lt (by omega), if_neg hsplit]
    rw [if_neg hsplit, if_neg hsplit, hstay, setFree_eq hstop (by omega)]
    refine ⟨⟨⟨?_, ?_, ?_⟩, ?_⟩, ?_, fun x hx => store_other _ _ (by omega)⟩
    · rw [store_other _ _ (by omega), hhead.size]
    · rw [store_same]
      rfl
    · rw [store_other _ _ (by omega), hhead.next]
    · exact hrest.frame fun x hx _ => store_other _ _ (by omega)
    · rw [Kmalloc.size, store_other _ _ (by omega), hhead.size]

/-! ## Giving back -/

theorem setFree_seg (h : Seg c stop a (b :: post) stop) :
    Seg (setFree c a 1) stop a (⟨b.size, true⟩ :: post) stop ∧
    ∀ x, x < a → setFree c a 1 x = c x := by
  obtain ⟨hhead, hrest⟩ := h
  have hend := hrest.end_eq
  have h24 : headerSize = 24 := rfl
  rw [setFree_eq hstop (by omega)]
  refine ⟨⟨⟨?_, ?_, ?_⟩, hrest.frame fun x hx _ => store_other _ _ (by omega)⟩,
    fun x hx => store_other _ _ (by omega)⟩
  · rw [store_other _ _ (by omega), hhead.size]
  · rw [store_same]
    rfl
  · rw [store_other _ _ (by omega), hhead.next]

/-! ## Joining -/

/-- One round of `merge_free_blocks` on two free blocks. -/
theorem merge_round {b' : Block} (h : Seg c stop a (b :: b' :: bs) stop) (hb : b.free) :
    Seg (setNext (setSize c a (u64 (b.size + u64 (headerSize + b'.size)))) a
        (next (setSize c a (u64 (b.size + u64 (headerSize + b'.size))))
          (next (setSize c a (u64 (b.size + u64 (headerSize + b'.size)))) a)))
      stop a (⟨b.size + headerSize + b'.size, true⟩ :: bs) stop := by
  obtain ⟨hhead, hhead', hrest⟩ := h
  have hend := hrest.end_eq
  have h24 : headerSize = 24 := rfl
  rw [u64_of_lt (n := headerSize + b'.size) (by omega), u64_of_lt (by omega)]
  generalize hw : b.size + (headerSize + b'.size) = w
  have hnext : next (setSize c a w) a = a + headerSize + b.size := by
    rw [next, u64_of_lt (by omega), setSize, store_other _ _ (by omega), hhead.next, link,
      if_neg (by omega)]
  have hnext' : next (setSize c a w) (a + headerSize + b.size) =
      link stop (a + headerSize + b.size + headerSize + b'.size) := by
    rw [next, u64_of_lt (by omega), setSize, store_other _ _ (by omega), hhead'.next]
  rw [hnext, hnext', setNext_eq hstop (by omega), setSize]
  have hfrom : a + headerSize + (b.size + headerSize + b'.size) =
      a + headerSize + b.size + headerSize + b'.size := by omega
  refine ⟨⟨?_, ?_, ?_⟩, ?_⟩
  · rw [store_other _ _ (by omega), store_same]
    simp only
    omega
  · rw [store_other _ _ (by omega), store_other _ _ (by omega), hhead.flag, hb]
  · rw [store_same]
    simp only [hfrom]
  · simp only [hfrom]
    refine hrest.frame fun x hx _ => ?_
    rw [store_other _ _ (by omega), store_other _ _ (by omega)]

/-- `merge_free_blocks` joins the free neighbours and touches nothing else. -/
theorem mergeFrom_seg (hpos : 0 < a) (h : Seg c stop a (b :: bs) stop) {n : Nat}
    (hn : bs.length ≤ n) : Seg (mergeFrom n a c) stop a (mergeInto headerSize b bs) stop ∧
    ∀ x, x < a → mergeFrom n a c x = c x := by
  have h24 : headerSize = 24 := rfl
  induction bs generalizing a b c n with
  | nil =>
    have hend : a + headerSize + b.size = stop := h.2
    have hstay : mergeFrom n a c = c := by
      cases n with
      | zero => rfl
      | succ n =>
        rw [mergeFrom, h.1.next_eq hstop (by omega), link, if_pos hend]
        exact if_neg fun hc => hc.2 rfl
    rw [hstay]
    exact ⟨h, fun _ _ => rfl⟩
  | cons b' bs ih =>
    obtain ⟨m, rfl⟩ : ∃ m, n = m + 1 := ⟨n - 1, by rw [List.length_cons] at hn; omega⟩
    have ⟨hhead, hhead', hrest⟩ := h
    have hend := hrest.end_eq
    have hnext : next c a = a + headerSize + b.size := by
      rw [hhead.next_eq hstop (by omega), link, if_neg (by omega)]
    rw [mergeFrom, if_pos ⟨by omega, by rw [hnext]; omega⟩, hnext,
      hhead.isFree_eq hstop (by omega), hhead'.isFree_eq hstop (by omega), mergeInto]
    by_cases hfree : (b.free && b'.free)
    · rw [if_pos hfree, if_pos hfree]
      have hround := merge_round hstop h (Bool.and_eq_true_iff.mp hfree).1
      simp only [Kmalloc.size, hhead.size, hhead'.size]
      obtain ⟨hseg, hframe⟩ := ih hpos hround (Nat.le_of_succ_le_succ hn)
      refine ⟨hseg, fun x hx => (hframe x hx).trans ?_⟩
      rw [setNext_eq hstop (by omega), setSize, store_other _ _ (by omega),
        store_other _ _ (by omega)]
    · rw [if_neg hfree, if_neg hfree]
      obtain ⟨hseg, hframe⟩ := ih (by omega) h.2 (Nat.le_of_succ_le_succ hn)
      refine ⟨⟨?_, hseg⟩, fun x hx => hframe x (by omega)⟩
      exact ⟨by rw [hframe a (by omega), hhead.size], by rw [hframe _ (by omega), hhead.flag],
        by rw [hframe _ (by omega), hhead.next]⟩

end Seg

end HeapBlocks
