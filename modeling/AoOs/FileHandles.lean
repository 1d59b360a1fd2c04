import AoOs.Process

/-! # File handles — `fd_table` in `syscall.c`

    Eight slots are shared by all processes; a slot is tagged with the pid of the process
    that opened it and holds a copy of the whole file.  `SYS_OPEN` is two steps, since a
    system call runs with interrupts enabled: it chooses a free slot and lets `fs_read`
    fill it, and later marks it as used.  `SYS_READ` and `SYS_CLOSE` are single steps.

    The ledger of a run is what the handles mean to the processes, read off the calls and
    their results alone: who has opened which slot and not closed it, with which contents,
    and what was read from it since. -/

namespace FileHandles

open Process (PState maxProcesses upd)

/-! ## The table -/

/-- `MAX_FD`. -/
def maxFd : Nat := 8

/-- `sizeof(fd_table[i].data)`. -/
def maxData : Nat := 16384

/-- An entry of `fd_table`. -/
structure Fd where
  data : Nat → UInt8
  size : Nat
  pos : Nat
  used : Bool
  ownerPid : Nat

/-- What `fs_read` leaves behind: the buffer, `*size`, and whether it returned 0.  No
    backend returns 0 with more than it was given room for. -/
structure FsAnswer where
  data : Nat → UInt8
  size : Nat
  ok : Bool
  fits : ok → size ≤ maxData

/-- The contents of the file, if it was read. -/
def FsAnswer.file (a : FsAnswer) : Option (List UInt8) :=
  if a.ok then some ((List.range a.size).map a.data) else none

/-- The fields of `process_t` that handles depend on. -/
structure Owner where
  pid : Nat
  state : PState

/-- The handle table and the process table.  `pending k` is the slot that the process in
    process slot `k` has chosen in a `SYS_OPEN` it is inside of. -/
structure Sys where
  fds : Nat → Fd
  procs : Nat → Owner
  nextPid : Nat
  pending : Nat → Option (Nat × FsAnswer)

/-- After `fd_table_init` and `process_init`. -/
def init : Sys where
  fds := fun _ => ⟨fun _ => 0, 0, 0, false, 0⟩
  procs := fun k => ⟨0, if k = 0 then .running else .unused⟩
  nextPid := 1
  pending := fun _ => none

/-- The search of `SYS_OPEN` among the `n` slots from `i` on. -/
def findFree (fds : Nat → Fd) : Nat → Nat → Option Nat
  | 0, _ => none
  | n + 1, i => if (fds i).used = false then some i else findFree fds n (i + 1)

/-- `syscall_close_process_fds`. -/
def closeProcessFds (fds : Nat → Fd) (pid : Nat) : Nat → Fd := fun i =>
  if i < maxFd ∧ (fds i).used ∧ (fds i).ownerPid = pid then { fds i with used := false }
  else fds i

/-- What `process_cleanup` does to the table. -/
def cleanupFds (fds : Nat → Fd) (pid : Nat) : Nat → Fd :=
  if pid = 0 then fds else closeProcessFds fds pid

/-- The copying loop of `SYS_READ`. -/
def bytesAt (fd : Fd) (len : Nat) : List UInt8 := (List.range len).map fun j => fd.data (fd.pos + j)

/-- `SYS_READ`: the table and the bytes that were read, `none` for -1.  `bufOk` stands
    for both tests of the buffer. -/
def sysRead (fds : Nat → Fd) (pid : Nat) (fd : Int) (len : Nat) (bufOk : Bool) :
    (Nat → Fd) × Option (List UInt8) :=
  let e := fds fd.toNat
  if fd < 0 ∨ maxFd ≤ fd ∨ e.used = false ∨ bufOk = false then (fds, none)
  else if e.ownerPid ≠ pid then (fds, none)
  else if e.size ≤ e.pos then (fds, some [])
  else
    let n := if e.size - e.pos < len then e.size - e.pos else len
    (upd fds fd.toNat { e with pos := e.pos + n }, some (bytesAt e n))

/-- `SYS_CLOSE`; whether it returned 0. -/
def sysClose (fds : Nat → Fd) (pid : Nat) (fd : Int) : (Nat → Fd) × Bool :=
  let e := fds fd.toNat
  if fd < 0 ∨ maxFd ≤ fd ∨ e.used = false then (fds, false)
  else if e.ownerPid ≠ pid then (fds, false)
  else (upd fds fd.toNat { e with used := false }, true)

/-! ## Steps -/

/-- What can happen, with the results of the calls.  `k` is the process slot. -/
inductive Label where
  /-- `SYS_OPEN` up to the answer of `fs_read` into the slot it has chosen. -/
  | openBegin (k : Nat) (answer : FsAnswer)
  /-- `SYS_OPEN` finds no free slot. -/
  | openFull (k : Nat)
  /-- The rest of `SYS_OPEN`: it returns the slot if the file was read. -/
  | openCommit (k pid slot : Nat) (file : Option (List UInt8))
  | read (k pid : Nat) (fd : Int) (len : Nat) (bufOk : Bool) (result : Option (List UInt8))
  | close (k pid : Nat) (fd : Int) (result : Bool)
  /-- `process_create`. -/
  | create (k : Nat) (state : PState)
  /-- `process_create` fails, before or after there is something to clean up. -/
  | createFails (k pid : Nat) (cleanup : Bool)
  /-- Any other change of a process state. -/
  | become (k : Nat) (state : PState)
  /-- The end of `process_waitpid`, or a round of `process_reap_terminated`. -/
  | cleanup (k pid : Nat)

/-- The process in slot `k` can execute. -/
def Sys.canRun (s : Sys) (k : Nat) : Prop :=
  k < maxProcesses ∧ (s.procs k).state ≠ .unused ∧ (s.procs k).state ≠ .terminated

instance (s : Sys) (k : Nat) : Decidable (s.canRun k) := inferInstanceAs (Decidable (_ ∧ _ ∧ _))

def step (s : Sys) : Label → Option Sys
  | .openBegin k answer =>
    if s.canRun k ∧ s.pending k = none then
      (findFree s.fds maxFd 0).map fun i =>
        { s with
          fds := upd s.fds i { s.fds i with data := answer.data }
          pending := upd s.pending k (some (i, answer)) }
    else none
  | .openFull k =>
    if s.canRun k ∧ s.pending k = none ∧ findFree s.fds maxFd 0 = none then some s else none
  | .openCommit k pid slot file =>
    if s.canRun k ∧ (s.procs k).pid = pid then
      match s.pending k with
      | none => none
      | some (i, a) =>
        if i = slot ∧ a.file = file then
          some { s with
            fds :=
              if a.ok then
                upd s.fds i { s.fds i with size := a.size, pos := 0, used := true, ownerPid := pid }
              else s.fds
            pending := upd s.pending k none }
        else none
    else none
  | .read k pid fd len bufOk result =>
    if s.canRun k ∧ s.pending k = none ∧ (s.procs k).pid = pid ∧
        (sysRead s.fds pid fd len bufOk).2 = result then
      some { s with fds := (sysRead s.fds pid fd len bufOk).1 }
    else none
  | .close k pid fd result =>
    if s.canRun k ∧ s.pending k = none ∧ (s.procs k).pid = pid ∧
        (sysClose s.fds pid fd).2 = result then
      some { s with fds := (sysClose s.fds pid fd).1 }
    else none
  | .create k state =>
    if 1 ≤ k ∧ k < maxProcesses ∧ (s.procs k).state = .unused ∧ state ≠ .unused then
      some { s with procs := upd s.procs k ⟨s.nextPid, state⟩, nextPid := (s.nextPid + 1) % 2 ^ 64 }
    else none
  | .createFails k pid cleanup =>
    if 1 ≤ k ∧ k < maxProcesses ∧ (s.procs k).state = .unused ∧ s.nextPid = pid then
      some { s with
        fds := if cleanup then cleanupFds s.fds pid else s.fds
        procs := upd s.procs k ⟨pid, .unused⟩
        nextPid := (s.nextPid + 1) % 2 ^ 64 }
    else none
  | .become k state =>
    if k < maxProcesses ∧ (s.procs k).state ≠ .unused ∧ (s.procs k).state ≠ .terminated ∧
        state ≠ .unused then
      some { s with procs := upd s.procs k ⟨(s.procs k).pid, state⟩ }
    else none
  | .cleanup k pid =>
    if 1 ≤ k ∧ k < maxProcesses ∧ (s.procs k).state = .terminated ∧ (s.procs k).pid = pid then
      some { s with
        fds := cleanupFds s.fds pid
        procs := upd s.procs k ⟨0, .unused⟩
        pending := upd s.pending k none }
    else none

/-! ## The ledger -/

/-- A handle as the process that was given it sees it. -/
structure Handle where
  slot : Nat
  pid : Nat
  /-- The file as it was at `SYS_OPEN`. -/
  file : List UInt8
  /-- The lengths of the reads since, added up. -/
  requested : Nat
  /-- The bytes that the reads returned. -/
  got : List UInt8
  deriving DecidableEq

/-- The process reads from the handle. -/
def Handle.read (h : Handle) (pid : Nat) (fd : Int) (len : Nat) (bytes : List UInt8) : Handle :=
  if (h.slot : Int) = fd ∧ h.pid = pid then
    { h with requested := h.requested + len, got := h.got ++ bytes }
  else h

/-- The processes' view of one step. -/
def note (hs : List Handle) : Label → List Handle
  | .openCommit _ pid slot (some file) => hs ++ [⟨slot, pid, file, 0, []⟩]
  | .read _ pid fd len _ (some bytes) => hs.map fun h => h.read pid fd len bytes
  | .close _ pid fd true => hs.filter fun h => ¬ ((h.slot : Int) = fd ∧ h.pid = pid)
  | .createFails _ pid true => if pid = 0 then hs else hs.filter fun h => h.pid ≠ pid
  | .cleanup _ pid => if pid = 0 then hs else hs.filter fun h => h.pid ≠ pid
  | _ => hs

/-- The handles that are open after a run. -/
def ledger (ls : List Label) : List Handle := ls.foldl note []

end FileHandles
