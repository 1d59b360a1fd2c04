import AoOs.BlockList
import AoOs.Pmm

/-! # The kernel heap — `memory.c`

    The heap is one megabyte of memory behind the kernel.  Memory is modelled as
    64-bit words by address; a `memory_block_t` at `b` has its size in the word at
    `b`, `is_free` in the word at `b + 8` and `next` in the word at `b + 16`.  All
    arithmetic on sizes and pointers is modulo `2 ^ 64`. -/

namespace Kmalloc

/-- `HEAP_SIZE`. -/
def heapSize : Nat := 0x100000

/-- `BLOCK_SIZE`. -/
def blockSize : Nat := 16

/-- `sizeof(memory_block_t)`. -/
def headerSize : Nat := 24

def u64 (n : Nat) : Nat := n % 2 ^ 64

theorem u64_of_lt {n : Nat} (h : n < 2 ^ 64) : u64 n = n := Nat.mod_eq_of_lt h

/-- The difference of two 64-bit numbers. -/
def sub64 (m n : Nat) : Nat := u64 (m + (2 ^ 64 - n))

theorem sub64_of_le {m n : Nat} (hm : m < 2 ^ 64) (h : n ≤ m) : sub64 m n = m - n := by
  rw [sub64, u64]
  omega

/-! ## Memory -/

abbrev Cells := Nat → Nat

def store (c : Cells) (a w : Nat) : Cells := fun a' => if a' = a then w else c a'

@[simp] theorem store_same (c : Cells) (a w : Nat) : store c a w a = w := if_pos rfl

theorem store_other (c : Cells) {a a' : Nat} (w : Nat) (h : a' ≠ a) : store c a w a' = c a' :=
  if_neg h

def size (c : Cells) (b : Nat) : Nat := c b
def isFree (c : Cells) (b : Nat) : Bool := c (u64 (b + 8)) != 0
def next (c : Cells) (b : Nat) : Nat := c (u64 (b + 16))

def setSize (c : Cells) (b w : Nat) : Cells := store c b w
def setFree (c : Cells) (b w : Nat) : Cells := store c (u64 (b + 8)) w
def setNext (c : Cells) (b w : Nat) : Cells := store c (u64 (b + 16)) w

/-- The heap's static variables and the memory they point into. -/
structure Heap where
  cells : Cells
  heapStart : Nat
  heapBase : Nat
  totalMemory : Nat
  usedMemory : Nat

/-! ## The functions -/

/-- `memory_init`, which also reserves the heap's pages. -/
def memoryInit (kernelEnd : Nat) (c : Cells) (s : Pmm.State) : Heap × Pmm.State :=
  let base := u64 (kernelEnd + 0xFFF) / 0x1000 * 0x1000
  let c := setNext (setFree (setSize c base (heapSize - headerSize)) base 1) base 0
  (⟨c, base, base, heapSize, 0⟩,
    Pmm.markRegionUsed (BitVec.ofNat 64 base) (BitVec.ofNat 64 heapSize) s)

/-- Rounds of a loop over the block list: more than there can be blocks. -/
def walkBound : Nat := heapSize

/-- The loop of `find_free_block` from `cur` on; 0 for `NULL`. -/
def findFrom (c : Cells) (sz : Nat) : Nat → Nat → Nat
  | 0, _ => 0
  | n + 1, cur =>
    if cur = 0 then 0
    else if isFree c cur && decide (sz ≤ size c cur) then cur
    else findFrom c sz n (next c cur)

def findFreeBlock (hp : Heap) (sz : Nat) : Nat := findFrom hp.cells sz walkBound hp.heapStart

def splitBlock (c : Cells) (block sz : Nat) : Cells :=
  if u64 (u64 (sz + headerSize) + blockSize) ≤ size c block then
    let new := u64 (u64 (block + headerSize) + sz)
    let c := setSize c new (sub64 (sub64 (size c block) sz) headerSize)
    let c := setFree c new 1
    let c := setNext c new (next c block)
    let c := setSize c block sz
    setNext c block new
  else c

/-- The loop of `merge_free_blocks` from `cur` on. -/
def mergeFrom : Nat → Nat → Cells → Cells
  | 0, _, c => c
  | n + 1, cur, c =>
    if cur ≠ 0 ∧ next c cur ≠ 0 then
      if isFree c cur && isFree c (next c cur) then
        let c := setSize c cur (u64 (size c cur + u64 (headerSize + size c (next c cur))))
        mergeFrom n cur (setNext c cur (next c (next c cur)))
      else mergeFrom n (next c cur) c
    else c

def mergeFreeBlocks (hp : Heap) : Heap :=
  { hp with cells := mergeFrom walkBound hp.heapStart hp.cells }

/-- `(size + BLOCK_SIZE - 1) & ~(BLOCK_SIZE - 1)`. -/
def alignedSize (sz : Nat) : Nat := sub64 (u64 (sz + blockSize)) 1 / blockSize * blockSize

/-- `kmalloc`; 0 for `NULL`. -/
def kmalloc (hp : Heap) (sz : Nat) : Nat × Heap :=
  if sz = 0 then (0, hp)
  else
    let block := findFreeBlock hp (alignedSize sz)
    if block = 0 then (0, hp)
    else
      let c := splitBlock hp.cells block (alignedSize sz)
      let c := setFree c block 0
      (u64 (block + headerSize),
        { hp with cells := c, usedMemory := u64 (hp.usedMemory + u64 (size c block + headerSize)) })

/-- `kfree`; `none` for a panic. -/
def kfree (hp : Heap) (ptr : Nat) : Option Heap :=
  if ptr = 0 then some hp
  else
    let block := sub64 ptr headerSize
    if block < hp.heapBase ∨ u64 (hp.heapBase + heapSize) ≤ block then none
    else if isFree hp.cells block then none
    else
      some (mergeFreeBlocks { hp with
        cells := setFree hp.cells block 1
        usedMemory := sub64 hp.usedMemory (u64 (size hp.cells block + headerSize)) })

end Kmalloc
