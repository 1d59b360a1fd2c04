import AoOs.ProcessMemory

/-! # Filling a new process — `process.c`

    The functions of `process.c` the two program loaders call between
    `process_create` and the first run of the process: copying into its pages,
    the argument page, and what becomes of the process in the table. -/

namespace ProcessMemory

open Paging Vmm Process

abbrev Byte := BitVec 8

/-! ## Copying into the pages of a process -/

/-- The loop of `process_write_user` and `process_zero_user`: the part of each
    page is written through its physical address.  `size` falls in every round,
    so it bounds their number. -/
def writeLoop (cr3 : Word) (src : Nat → Byte) : Nat → Word → Nat → Word → KState → Bool × KState
  | 0, _, _, size, k => (size == 0#64, k)
  | fuel + 1, virt, done, size, k =>
    if size = 0#64 then (true, k)
    else
      let phys := vmmGetPhysicalIn k.mem cr3 virt
      if phys = 0#64 then (false, k)
      else
        let pageLeft := BitVec.ofNat 64 pageSize - (virt &&& 0xFFF#64)
        let n := if size < pageLeft then size else pageLeft
        writeLoop cr3 src fuel (virt + n) (done + n.toNat) (size - n)
          { k with mem := copyBytes k.mem phys n.toNat fun j => src (done + j) }

/-- `process_write_user`; `false` is the result -1. -/
def processWriteUser (p : UProc) (virt : Word) (src : Nat → Byte) (size : Word) (k : KState) :
    Bool × KState :=
  if p.cr3 = 0#64 then (false, k) else writeLoop p.cr3 src size.toNat virt 0 size k

/-- `process_zero_user`. -/
def processZeroUser (p : UProc) (virt size : Word) (k : KState) : Bool × KState :=
  if p.cr3 = 0#64 then (false, k) else writeLoop p.cr3 (fun _ => 0#8) size.toNat virt 0 size k

/-! ## The argument page -/

/-- `page` of `process_setup_user_args` while it is filled: `argc`, the pointers
    stored behind it, and the first `strbuf_pos` bytes of `strbuf`. -/
structure ArgPage where
  argc : Nat
  ptrs : List Word
  strbuf : List Byte

/-- The size of `strbuf`. -/
def strbufSize : Nat := pageSize - 8 - 16 * 8

/-- The loop of `process_setup_user_args` over the words of the command line, a
    string without its terminator. -/
def argsLoop : Nat → List Byte → ArgPage → ArgPage
  | 0, _, g => g
  | fuel + 1, s, g =>
    if s ≠ [] ∧ g.argc < 16 ∧ g.strbuf.length < strbufSize - 1 then
      let s := s.dropWhile (· == 0x20#8)
      if s = [] then g
      else
        let tok := s.takeWhile (· != 0x20#8)
        if strbufSize ≤ g.strbuf.length + tok.length + 1 then g
        else
          argsLoop fuel (s.dropWhile (· != 0x20#8))
            { argc := g.argc + 1
              ptrs := g.ptrs ++
                [userArgvBase + BitVec.ofNat 64 (8 + 16 * 8) + BitVec.ofNat 64 g.strbuf.length]
              strbuf := g.strbuf ++ tok ++ [0#8] }
    else g

/-- Byte `j` of a word in memory. -/
def wordByte (w : Word) (j : Nat) : Byte := (w >>> (8 * j)).setWidth 8

/-- The bytes of the argument page. -/
def argBytes (g : ArgPage) (j : Nat) : Byte :=
  if j < 8 then wordByte (BitVec.ofNat 64 g.argc) j
  else if j < 8 + 16 * 8 then wordByte (g.ptrs.getD ((j - 8) / 8) 0#64) (j % 8)
  else g.strbuf.getD (j - (8 + 16 * 8)) 0#8

/-- `process_setup_user_args`. -/
def processSetupUserArgs (p : UProc) (fullCmd : List Byte) (k : KState) : Bool × KState :=
  let page := argsLoop (fullCmd.length + 1) fullCmd ⟨0, [], []⟩
  processWriteUser p userArgvBase (argBytes page) (BitVec.ofNat 64 pageSize) k

/-! ## The process table -/

/-- The first of the `n` slots from `i` on that is in use and has this pid. -/
def findPid (procs : Nat → UProc) (pid : Word) : Nat → Nat → Option Nat
  | 0, _ => none
  | n + 1, i =>
    if (procs i).state ≠ .unused ∧ (procs i).pid = pid then some i else findPid procs pid n (i + 1)

/-- `process_get`. -/
def processGet (s : PSys) (pid : Word) : Option Nat := findPid s.procs pid maxProcesses 0

/-- `process_activate`. -/
def processActivate (s : PSys) (pid : Word) : PSys :=
  match processGet s pid with
  | some i =>
    if (s.procs i).state = .loading then s.setProc i { s.procs i with state := .ready } else s
  | none => s

/-- `process_terminate`: the process ends and everybody who waits is woken. -/
def processTerminate (s : PSys) (pid : Word) : PSys :=
  match processGet s pid with
  | some i =>
    if (s.procs i).pid = 0#64 then s
    else
      let s := s.setProc i { s.procs i with state := .terminated }
      { s with procs := fun j =>
          if j < maxProcesses ∧ (s.procs j).state = .blocked then
            { s.procs j with state := .ready }
          else s.procs j }
  | none => s

/-- `process_wait` for a process that has ended. -/
def processWait (s : PSys) (pid : Word) : PSys :=
  match processGet s pid with
  | some i => if pid ≠ 0#64 ∧ (s.procs i).state = .terminated then release s i else s
  | none => s

/-- `process_detach`. -/
def processDetach (s : PSys) (pid : Word) : PSys :=
  match processGet s pid with
  | some i =>
    if (s.procs i).pid ≠ 0#64 then s.setProc i { s.procs i with detached := true } else s
  | none => s

end ProcessMemory
