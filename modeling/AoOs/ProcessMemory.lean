import AoOs.Process
import AoOs.Vmm

/-! # Processes and their memory — `process.c`

    The functions of `process.c` that create address spaces, map user pages and
    clean up, on the frame allocator and the page tables.  A step of the system
    is one call of one of them.

    `vmm_user_range_ok` need not end, so the functions that call it return an
    `Option`: `none` is a call that does not come back. -/

namespace ProcessMemory

open Paging Vmm Process

/-- The fields of `process_t` that concern memory and clean-up.  `pages` holds
    the first `user_page_count` entries of `user_pages`. -/
structure UProc where
  pid : Word
  state : PState
  isUser : Bool
  cr3 : Word
  detached : Bool
  pages : List Word

/-- `PROCESS_MAX_USER_PAGES`. -/
def processMaxUserPages : Nat := 256

/-- `PROCESS_USER_STACK_PAGES`. -/
def processUserStackPages : Nat := 4

def userCodeBase : Word := 0x00200000#64
def userStackBase : Word := 0x00800000#64
def userApiBase : Word := 0x00090000#64
def userArgvBase : Word := 0x00091000#64

/-- `process_cleanup`, without the file handles. -/
def processCleanup (p : UProc) (k : KState) : UProc × KState :=
  if p.pid = 0#64 then (p, k)
  else
    let k := p.pages.foldl (fun k f => if f ≠ 0#64 then pmmFreePage f k else k) k
    let k := if p.cr3 ≠ 0#64 ∧ p.cr3 ≠ k.kernelPml4 then vmmDestroyAddressSpace p.cr3 k else k
    ({ p with pages := [], cr3 := 0#64 }, k)

/-- `process_map_user_page`; `false` is the result -1. -/
def processMapUserPage (p : UProc) (virt flags : Word) (k : KState) :
    Option (Bool × UProc × KState) :=
  if !p.isUser || p.cr3 == 0#64 then some (false, p, k)
  else
    (vmmUserRangeOk k.mem p.cr3 (pageOf virt) 1#64).map fun ok =>
      if ok then (true, p, k)
      else if processMaxUserPages ≤ p.pages.length then (false, p, k)
      else
        let (phys, k) := pmmAllocPage k
        if phys = 0#64 then (false, p, k)
        else
          let k := { k with mem := k.mem.setPage phys fun _ => 0#64 }
          match vmmMapPageIn p.cr3 virt phys (flags ||| pteUser) k with
          | (false, k) => (false, p, pmmFreePage phys k)
          | (true, k) => (true, { p with pages := p.pages ++ [phys] }, k)

/-- A sequence of `process_map_user_page` calls, up to the first that fails. -/
def mapAll (flags : Word) : List Word → UProc → KState → Option (Bool × UProc × KState)
  | [], p, k => some (true, p, k)
  | v :: vs, p, k =>
    (processMapUserPage p v flags k).bind fun r =>
      if r.1 then mapAll flags vs r.2.1 r.2.2 else some (false, r.2.1, r.2.2)

/-- The pages `process_create` maps: the stack, the API page and the argument
    page. -/
def fixedPages : List Word :=
  (List.range processUserStackPages).map
    (fun i => userStackBase + BitVec.ofNat 64 (i * pageSize)) ++
    [userApiBase, userArgvBase]

/-- The process table, the memory managers and `nx_available`. -/
structure PSys where
  k : KState
  procs : Nat → UProc
  nextPid : Word
  nx : Bool

namespace PSys

def setProc (s : PSys) (i : Nat) (p : UProc) : PSys := { s with procs := upd s.procs i p }

end PSys

/-- The first unused slot among the `n` from `i` on. -/
def findUnused (procs : Nat → UProc) : Nat → Nat → Option Nat
  | 0, _ => none
  | n + 1, i => if (procs i).state = .unused then some i else findUnused procs n (i + 1)

/-- The flags of the stack, API and argument pages. -/
def dataFlags (nx : Bool) : Word := pteWritable ||| if nx then pteNx else 0#64

/-- `process_create` for a user process: the slot, if it succeeds. -/
def processCreate (s : PSys) : Option (Option Nat × PSys) :=
  match findUnused s.procs (maxProcesses - 1) 1 with
  | none => some (none, s)
  | some i =>
    let (cr3, k) := vmmCreateAddressSpace s.k
    let p := { s.procs i with pid := s.nextPid, isUser := true, cr3 := cr3 }
    let s := { s with k := k, nextPid := s.nextPid + 1 }
    if cr3 = 0#64 then some (none, s.setProc i p)
    else
      (mapAll (dataFlags s.nx) fixedPages { p with detached := false, pages := [] } k).map
        fun (ok, p, k) =>
          if ok then (some i, { s with k := k }.setProc i { p with state := .loading })
          else
            let (p, k) := processCleanup p k
            (none, { s with k := k }.setProc i { p with state := .unused })

/-- A process is cleaned up and its slot freed, as `process_waitpid` and
    `process_reap_terminated` do it. -/
def release (s : PSys) (i : Nat) : PSys :=
  let (p, k) := processCleanup (s.procs i) s.k
  { s with k := k }.setProc i { p with state := .unused, pid := 0#64 }

/-- The body of the loop of `process_reap_terminated`. -/
def reapSlot (s : PSys) (i : Nat) : PSys :=
  if (s.procs i).state = .terminated ∧ (s.procs i).detached then
    let s := release s i
    s.setProc i { s.procs i with detached := false }
  else s

/-- `process_reap_terminated`. -/
def processReapTerminated (s : PSys) : PSys :=
  ((List.range maxProcesses).drop 1).foldl reapSlot s

/-- What can happen to the processes' memory. -/
inductive PLabel where
  /-- `process_create` of a user process. -/
  | create
  /-- `process_map_user_page` on a live process. -/
  | map (i : Nat) (virt flags : Word)
  /-- The program of a live process stores a byte in user mode. -/
  | store (i : Nat) (virt : Word) (b : BitVec 8)
  /-- A process ends. -/
  | terminate (i : Nat)
  /-- `process_detach`. -/
  | detach (i : Nat)
  /-- The clean-up in `process_waitpid`. -/
  | waitpid (i : Nat)
  /-- `process_reap_terminated`. -/
  | reap

/-- Slot `i` holds a process other than the kernel's. -/
def live (s : PSys) (i : Nat) : Bool :=
  decide (1 ≤ i ∧ i < maxProcesses) && (s.procs i).state != .unused

/-- One step of the system. -/
def pstep (s : PSys) : PLabel → Option PSys
  | .create => (processCreate s).map (·.2)
  | .map i virt flags =>
    if live s i then
      (processMapUserPage (s.procs i) virt flags s.k).map fun (_, p, k) =>
        { s with k := k }.setProc i p
    else none
  | .store i virt b =>
    if live s i && (walk s.k.mem (s.procs i).cr3 virt).all presentUser then
      (translate s.k.mem (s.procs i).cr3 virt).map fun (a, _) =>
        { s with k := { s.k with mem := copyBytes s.k.mem a 1 fun _ => b } }
    else none
  | .terminate i =>
    if live s i then some (s.setProc i { s.procs i with state := .terminated }) else none
  | .detach i => if live s i then some (s.setProc i { s.procs i with detached := true }) else none
  | .waitpid i =>
    if live s i && (s.procs i).state == .terminated then some (release s i) else none
  | .reap => some (processReapTerminated s)

end ProcessMemory
