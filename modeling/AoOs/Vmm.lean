import AoOs.Paging

/-! # Frames and address spaces — `pmm.c` and `vmm.c`

    The two memory managers work on one state: physical memory, the bitmap of
    page frames and the kernel's page-map root.  Functions that can fail after
    having stored something return their result together with the state they
    leave behind.

    TLB invalidation has no counterpart: translation is read from the tables. -/

namespace Vmm

open Paging

/-- Physical memory, the frame allocator and `kernel_pml4_phys`. -/
structure KState where
  mem : Mem
  /-- `page_bitmap`. -/
  used : Nat → Bool
  freePages : Word
  kernelPml4 : Word

/-! ## The frame allocator -/

/-- `MAX_PAGES`. -/
def maxPages : Nat := 2 ^ 20

/-- The first page `pmm_alloc_page` considers: 1 MB. -/
def firstPage : Nat := 0x100000 / pageSize

/-- The first clear bit among the `n` from `i` on. -/
def findFree (used : Nat → Bool) : Nat → Nat → Option Nat
  | 0, _ => none
  | n + 1, i => if used i then findFree used n (i + 1) else some i

/-- The address of a page frame. -/
def frameAddr (i : Nat) : Word := BitVec.ofNat 64 (i * pageSize)

/-- `pmm_alloc_page`; 0 when memory is exhausted. -/
def pmmAllocPage (s : KState) : Word × KState :=
  match findFree s.used (maxPages - firstPage) firstPage with
  | none => (0#64, s)
  | some i =>
    (frameAddr i,
      { s with used := fun j => if j = i then true else s.used j, freePages := s.freePages - 1 })

/-- `pmm_free_page`. -/
def pmmFreePage (addr : Word) (s : KState) : KState :=
  let page := addr.toNat / pageSize
  if maxPages ≤ page then s
  else if s.used page then
    { s with used := fun j => if j = page then false else s.used j, freePages := s.freePages + 1 }
  else s

/-! ## Reading the tables -/

/-- `vmm_get_physical_in`; 0 when the address is not mapped. -/
def vmmGetPhysicalIn (m : Mem) (cr3 virt : Word) : Word :=
  let cr3 := addrOf cr3
  if cr3 = 0#64 then 0#64 else
  let e4 := m cr3 (pml4Index virt)
  if !has e4 ptePresent then 0#64 else
  let e3 := m (addrOf e4) (pdptIndex virt)
  if !has e3 ptePresent then 0#64 else
  let e2 := m (addrOf e3) (pdIndex virt)
  if !has e2 ptePresent then 0#64 else
  if has e2 pteHuge then addrOf e2 + (virt &&& 0x1FFFFF#64) else
  let e1 := m (addrOf e2) (ptIndex virt)
  if !has e1 ptePresent then 0#64 else addrOf e1 + (virt &&& 0xFFF#64)

/-- The test for `PTE_PRESENT | PTE_USER`. -/
def presentUser (e : Word) : Bool :=
  e &&& (ptePresent ||| pteUser) == ptePresent ||| pteUser

/-- `vmm_user_page_ok`. -/
def vmmUserPageOk (m : Mem) (cr3 virt : Word) : Bool :=
  let cr3 := addrOf cr3
  if cr3 = 0#64 then false else
  let e4 := m cr3 (pml4Index virt)
  if !presentUser e4 then false else
  let e3 := m (addrOf e4) (pdptIndex virt)
  if !presentUser e3 then false else
  let e2 := m (addrOf e3) (pdIndex virt)
  if !presentUser e2 then false else
  if has e2 pteHuge then true else
  presentUser (m (addrOf e2) (ptIndex virt))

/-- The loop of `vmm_user_range_ok`.  The cursor wraps after the last page; it
    takes at most `2 ^ 52` values, and a loop that comes back to one of them
    does not end (`none`). -/
def rangeLoop (m : Mem) (cr3 stop : Word) : Nat → Word → Option Bool
  | 0, _ => none
  | n + 1, page =>
    if page < stop then
      if !vmmUserPageOk m cr3 page then some false
      else rangeLoop m cr3 stop n (page + BitVec.ofNat 64 pageSize)
    else some true

/-- `vmm_user_range_ok`. -/
def vmmUserRangeOk (m : Mem) (cr3 virt size : Word) : Option Bool :=
  if size = 0#64 then some false
  else if virt + size < virt then some false
  else rangeLoop m cr3 (virt + size) (2 ^ 52 + 1) (pageOf virt)

/-- A byte read through the address space. -/
def loadByte (m : Mem) (cr3 a : Word) : BitVec 8 :=
  let p := vmmGetPhysicalIn m cr3 a
  (m (pageOf p) (((p >>> 3) &&& 0x1FF#64).setWidth 9) >>> (8 * (p.toNat % 8))).setWidth 8

/-- Bytes `lo` to `lo + n` of a page are replaced by `src`: what becomes of word
    number `i` of the page. -/
def patchWord (w : Word) (i lo n : Nat) (src : Nat → BitVec 8) : Word :=
  (List.range 8).foldl (fun acc b =>
    let j := 8 * i + b
    let byte := if lo ≤ j ∧ j < lo + n then src (j - lo) else (w >>> (8 * b)).setWidth 8
    acc ||| (byte.setWidth 64 <<< (8 * b))) 0#64

/-- `memcpy` of `n` bytes to the physical address `a`, within one page. -/
def copyBytes (m : Mem) (a : Word) (n : Nat) (src : Nat → BitVec 8) : Mem := fun t i =>
  if t = pageOf a then patchWord (m t i) i.toNat (a.toNat % pageSize) n src else m t i

theorem copyBytes_other (m : Mem) {a t : Word} (n : Nat) (src : Nat → BitVec 8)
    (h : t ≠ pageOf a) : copyBytes m a n src t = m t :=
  funext fun _ => if_neg h

/-- The loop of `vmm_user_strlen`: `n` bytes may still be looked at, the next one
    is the `i`-th, and `page` has been validated. -/
def strlenLoop (m : Mem) (cr3 virt : Word) : Nat → Nat → Word → Option Nat
  | 0, _, _ => none
  | n + 1, i, page =>
    let addr := virt + BitVec.ofNat 64 i
    if pageOf addr ≠ page ∧ vmmUserPageOk m cr3 (pageOf addr) = false then none
    else if loadByte m cr3 addr = 0#8 then some i
    else strlenLoop m cr3 virt n (i + 1) (pageOf addr)

/-- `vmm_user_strlen`; `none` is the result -1. -/
def vmmUserStrlen (m : Mem) (cr3 virt : Word) (maxLen : Nat) : Option Nat :=
  if !vmmUserPageOk m cr3 (pageOf virt) then none
  else strlenLoop m cr3 virt maxLen 0 (pageOf virt)

/-! ## Changing the tables -/

/-- One entry stored. -/
def KState.store (s : KState) (t : Word) (i : Index) (e : Word) : KState :=
  { s with mem := s.mem.set t i e }

/-- `alloc_table_page`. -/
def allocTablePage (s : KState) : Word × KState :=
  let (page, s) := pmmAllocPage s
  if page = 0#64 then (0#64, s) else (page, { s with mem := s.mem.setPage page fun _ => 0#64 })

/-- `copy_table_page`. -/
def copyTablePage (src : Word) (s : KState) : Word × KState :=
  let (dst, s) := pmmAllocPage s
  if dst = 0#64 then (0#64, s) else (dst, { s with mem := s.mem.setPage dst (s.mem src) })

/-- `vmm_create_address_space`. -/
def vmmCreateAddressSpace (s : KState) : Word × KState :=
  let (pml4Page, s) := allocTablePage s
  if pml4Page = 0#64 then (0#64, s)
  else (pml4Page, { s with mem := s.mem.setPage pml4Page (s.mem s.kernelPml4) })

/-- `ensure_private_entry`; `false` is the result -1. -/
def ensurePrivateEntry (cr3 table : Word) (idx : Index) (flags : Word) (s : KState) :
    Bool × KState :=
  let e := s.mem table idx
  if addrOf cr3 = s.kernelPml4 then (true, s)
  else if !has e ptePresent then (true, s)
  else if has e ptePrivateTable then (true, s)
  else
    let (copy, s) := copyTablePage (addrOf e) s
    if copy = 0#64 then (false, s)
    else (true, s.store table idx (copy ||| ((e ||| flags ||| ptePrivateTable) &&& ~~~pteAddrMask)))

/-- The second half of each level of `vmm_map_page_in`: a missing table is
    allocated, an existing one is opened to user mode if asked for.  The result
    is the table below, `none` when no frame is left. -/
def presentEntry (table : Word) (idx : Index) (parentFlags flags : Word) (s : KState) :
    Option Word × KState :=
  let e := s.mem table idx
  if !has e ptePresent then
    let (page, s) := allocTablePage s
    if page = 0#64 then (none, s)
    else
      let e := page ||| parentFlags ||| ptePrivateTable
      (some (addrOf e), s.store table idx e)
  else if has flags pteUser then
    (some (addrOf (e ||| pteUser)), s.store table idx (e ||| pteUser))
  else (some (addrOf e), s)

/-- Levels 4 and 3 of `vmm_map_page_in`. -/
def nextTable (cr3 table : Word) (idx : Index) (parentFlags flags : Word) (s : KState) :
    Option Word × KState :=
  let (ok, s) := ensurePrivateEntry cr3 table idx parentFlags s
  if !ok then (none, s) else presentEntry table idx parentFlags flags s

/-- The 512 entries that replace a 2 MB page. -/
def splitTable (e : Word) : Table := fun i =>
  (addrOf e + BitVec.ofNat 64 (i.toNat * pageSize)) ||| (e &&& ~~~pteAddrMask &&& ~~~pteHuge)

/-- The splitting of a 2 MB page at level 2; `false` when no frame is left. -/
def splitHuge (pd : Word) (idx : Index) (parentFlags : Word) (s : KState) : Bool × KState :=
  let e := s.mem pd idx
  if has e ptePresent && has e pteHuge then
    let (ptPage, s) := allocTablePage s
    if ptPage = 0#64 then (false, s)
    else
      let s := { s with mem := s.mem.setPage ptPage (splitTable e) }
      (true, s.store pd idx (ptPage ||| parentFlags ||| ptePrivateTable))
  else (true, s)

/-- Level 2 of `vmm_map_page_in`. -/
def pdTable (pd : Word) (idx : Index) (parentFlags flags : Word) (s : KState) :
    Option Word × KState :=
  match splitHuge pd idx parentFlags s with
  | (false, s) => (none, s)
  | (true, s) => presentEntry pd idx parentFlags flags s

/-- The flags `vmm_map_page_in` gives to the tables above a page. -/
def parentFlags (flags : Word) : Word :=
  if has flags pteUser then ptePresent ||| pteWritable ||| pteUser else ptePresent ||| pteWritable

/-- `vmm_map_page_in`; `false` is the result -1. -/
def vmmMapPageIn (cr3 virt phys flags : Word) (s : KState) : Bool × KState :=
  let virt := addrOf virt
  let phys := addrOf phys
  let flags := flags &&& ~~~pteAddrMask
  let cr3 := addrOf cr3
  if cr3 = 0#64 then (false, s) else
  let up := parentFlags flags
  match nextTable cr3 cr3 (pml4Index virt) up flags s with
  | (none, s) => (false, s)
  | (some pdpt, s) =>
  match nextTable cr3 pdpt (pdptIndex virt) up flags s with
  | (none, s) => (false, s)
  | (some pd, s) =>
  match pdTable pd (pdIndex virt) up flags s with
  | (none, s) => (false, s)
  | (some pt, s) => (true, s.store pt (ptIndex virt) (phys ||| flags ||| ptePresent))

/-- All indices in order. -/
def allIndices : List Index := (List.range 512).map (BitVec.ofNat 9)

/-- The loop of `free_private_tables` over the entries of one table, with the addresses that
    it passes to `pmm_free_page`. -/
def freeEntries (freeChild : Word → KState → List Word × KState) (table : Word) :
    List Index → KState → List Word × KState
  | [], s => ([], s)
  | i :: is, s =>
    let e := s.mem table i
    if !has e ptePresent || !has e ptePrivateTable || has e pteHuge then
      freeEntries freeChild table is s
    else
      let below := freeChild (addrOf e) s
      let s := pmmFreePage (addrOf e) below.2
      let rest := freeEntries freeChild table is (s.store table i 0#64)
      (below.1 ++ addrOf e :: rest.1, rest.2)

/-- `free_private_tables`.  At level 1 the children are page tables, whose
    entries are not looked at: that is level 0 here. -/
def freePrivateTables : Nat → Word → KState → List Word × KState
  | 0, _, s => ([], s)
  | level + 1, table, s => freeEntries (freePrivateTables level) table allIndices s

/-- `vmm_destroy_address_space`. -/
def vmmDestroyAddressSpace (cr3 : Word) (s : KState) : KState :=
  let cr3 := addrOf cr3
  if cr3 = 0#64 ∨ cr3 = s.kernelPml4 then s
  else pmmFreePage cr3 (freePrivateTables 3 cr3 s).2

/-- The addresses that `vmm_destroy_address_space` passes to `pmm_free_page`. -/
def freedBy (cr3 : Word) (s : KState) : List Word :=
  let cr3 := addrOf cr3
  if cr3 = 0#64 ∨ cr3 = s.kernelPml4 then [] else (freePrivateTables 3 cr3 s).1 ++ [cr3]

end Vmm
