import AoOs.StepSystem

/-! # Processes — `process.c` as interleaved statements

    The process table, the functions that put processes to sleep and wake them,
    and the timer interrupt.  A process that is inside one of these functions has
    a program point `Pc` naming the statement it will execute next; a timer tick
    may arrive between any two statements, except inside the `cli … sti` sections
    of `process_exit` and `process_terminate`, which are single steps here.

    The table has `N` slots; the kernel's is `maxProcesses`.  Slot 0 is the
    kernel process (the shell), with pid 0. -/

namespace Process

/-- `MAX_PROCESSES`. -/
def maxProcesses : Nat := 16

/-- `TIME_QUANTUM`. -/
def timeQuantum : Nat := 5

/-- `process_state_t`. -/
inductive PState where
  | unused
  | loading
  | ready
  | running
  | blocked
  | sleeping
  | terminated
  deriving DecidableEq, Repr

/-- The fields of `process_t` that scheduling and waiting use. -/
structure Proc where
  pid : Nat
  state : PState
  waitTarget : Nat
  wakeTick : Nat
  exitCode : Int

/-- Where a process stands: outside the modelled functions, or before a
    statement of one of them.  `t` is the slot of the local variable `target`. -/
inductive Pc where
  | out
  /-- `process_get(pid)` in `process_waitpid`, about to look at slot `i`. -/
  | waitGet (pid : Nat) (noHang : Bool) (i : Nat)
  /-- `if (!target || target->state == PROC_UNUSED || pid == 0)`. -/
  | waitCheck (pid : Nat) (noHang : Bool) (t : Nat)
  /-- `current_process->wait_target = pid`. -/
  | waitTarget (pid t : Nat)
  /-- `current_process->state = PROC_BLOCKED`. -/
  | waitBlock (pid t : Nat)
  /-- `while (target->state != …)`, around `sti; hlt`. -/
  | waitLoop (t : Nat)
  /-- `current_process->state = PROC_RUNNING`. -/
  | waitRunning (t : Nat)
  /-- `current_process->wait_target = 0`. -/
  | waitClear (t : Nat)
  /-- `if (target->state == PROC_UNUSED) return -1`, then the exit code is read. -/
  | waitStatus (t : Nat)
  /-- `process_cleanup(target)`. -/
  | waitCleanup (t : Nat)
  /-- `target->state = PROC_UNUSED`. -/
  | waitUnused (t : Nat)
  /-- `target->pid = 0`. -/
  | waitPid (t : Nat)
  /-- `process_exit`, before its `cli`. -/
  | exit (code : Int)
  /-- The final `while (1)` of `process_exit`. -/
  | spin
  /-- `current_process->wake_tick = …`. -/
  | sleepTick (ticks : Nat)
  /-- `current_process->state = PROC_SLEEPING`. -/
  | sleepState
  /-- `while (current_process->state == PROC_SLEEPING)`. -/
  | sleepLoop
  /-- `process_get(pid)` in `process_terminate`, about to look at slot `i`. -/
  | termGet (pid i : Nat)
  /-- `if (!p || p->pid == 0) return`. -/
  | termCheck (t : Nat)
  /-- The `cli … sti` section of `process_terminate`. -/
  | termKill (t : Nat)
  deriving DecidableEq

/-- The process table and the scheduler's variables. -/
structure Sys where
  procs : Nat → Proc
  pc : Nat → Pc
  current : Nat
  ticks : Nat
  ticksRemaining : Nat
  schedulingEnabled : Bool

/-- One function value replaced. -/
def upd {α : Type} (f : Nat → α) (i : Nat) (a : α) : Nat → α := fun j => if j = i then a else f j

@[simp] theorem upd_same {α : Type} (f : Nat → α) (i : Nat) (a : α) : upd f i a i = a := if_pos rfl

theorem upd_other {α : Type} (f : Nat → α) {i j : Nat} (a : α) (h : j ≠ i) : upd f i a j = f j :=
  if_neg h

namespace Sys

/-- The current process moves on to `p`. -/
def goto (s : Sys) (p : Pc) : Sys := { s with pc := upd s.pc s.current p }

/-- One slot's record replaced. -/
def setProc (s : Sys) (i : Nat) (p : Proc) : Sys := { s with procs := upd s.procs i p }

/-- The store `processes[i].state = st`. -/
def setState (s : Sys) (i : Nat) (st : PState) : Sys :=
  s.setProc i { s.procs i with state := st }

/-- A change made to every slot below `N`. -/
def mapProcs (s : Sys) (N : Nat) (f : Proc → Proc) : Sys :=
  { s with procs := fun i => if i < N then f (s.procs i) else s.procs i }

end Sys

open Sys

/-! ## The wake-up sweeps -/

/-- The body of `process_exit`'s sweep: a waiter for `pid` becomes ready. -/
def exitWake (pid : Nat) (p : Proc) : Proc :=
  if p.state = .blocked ∧ (p.waitTarget = 0 ∨ p.waitTarget = pid) then
    { p with state := .ready, waitTarget := 0 }
  else p

/-- The body of `process_terminate`'s sweep: every blocked process becomes
    ready. -/
def termWake (p : Proc) : Proc :=
  if p.state = .blocked then { p with state := .ready } else p

/-- The `cli … sti` section of `process_exit`. -/
def exitSection (N : Nat) (s : Sys) (code : Int) : Sys :=
  let me := s.procs s.current
  (s.setProc s.current { me with state := .terminated, exitCode := code }).mapProcs N
    (exitWake me.pid)

/-- The `cli … sti` section of `process_terminate`. -/
def termSection (N : Nat) (s : Sys) (t : Nat) : Sys :=
  (s.setState t .terminated).mapProcs N termWake

/-! ## The timer interrupt -/

/-- `wake_sleepers`, which leaves slot 0 out. -/
def wakeSleepers (N : Nat) (s : Sys) : Sys :=
  { s with
    procs := fun i =>
      let p := s.procs i
      if 1 ≤ i ∧ i < N ∧ p.state = .sleeping ∧ p.wakeTick ≤ s.ticks then
        { p with wakeTick := 0, state := .ready }
      else p }

/-- The round-robin search: the first ready slot among the `n` after `idx`. -/
def findReady (N : Nat) (procs : Nat → Proc) (start : Nat) : Nat → Nat → Option Nat
  | 0, _ => none
  | n + 1, i =>
    if (procs ((start + i) % N)).state = .ready then some ((start + i) % N)
    else findReady N procs start n (i + 1)

/-- The search takes the first ready slot it comes to. -/
theorem findReady_spec {N : Nat} {procs : Nat → Proc} {start n i next : Nat}
    (h : findReady N procs start n i = some next) : ∃ d, i ≤ d ∧ next = (start + d) % N ∧
      (procs next).state = .ready ∧
      ∀ e, i ≤ e → e < d → (procs ((start + e) % N)).state ≠ .ready := by
  induction n generalizing i with
  | zero => cases h
  | succ n ih =>
    rw [findReady] at h
    by_cases hr : (procs ((start + i) % N)).state = .ready
    · cases (if_pos hr).symm.trans h
      exact ⟨i, le_rfl, rfl, hr, fun e he hlt => absurd he (by omega)⟩
    · rw [if_neg hr] at h
      obtain ⟨d, hd, hnext, hready, hskip⟩ := ih h
      refine ⟨d, by omega, hnext, hready, fun e he hlt => ?_⟩
      rcases Nat.lt_or_eq_of_le he with he | rfl
      · exact hskip e he hlt
      · exact hr

/-- `schedule_tick`'s test whether the current process cannot go on. -/
def mustSwitch (p : Proc) : Bool :=
  p.state == .terminated || p.state == .blocked || p.state == .sleeping

/-- The second half of `schedule_tick`: the switch itself. -/
def switchProcess (N : Nat) (s : Sys) : Sys :=
  let s := if (s.procs s.current).state = .running then s.setState s.current .ready else s
  match findReady N s.procs s.current N 1 with
  | none =>
    -- no ready process: continue with the current one if possible
    if (s.procs s.current).state = .ready then s.setState s.current .running else s
  | some next =>
    { s.setState next .running with current := next, ticksRemaining := timeQuantum }

/-- `schedule_tick`. -/
def scheduleTick (N : Nat) (s : Sys) : Sys :=
  let s := wakeSleepers N { s with ticks := (s.ticks + 1) % 2 ^ 32 }
  if !s.schedulingEnabled then s
  else if mustSwitch (s.procs s.current) then switchProcess N s
  else
    let left := s.ticksRemaining - 1
    if left = 0 then switchProcess N { s with ticksRemaining := timeQuantum }
    else { s with ticksRemaining := left }

/-! ## The statements -/

/-- One statement of the current process. -/
def statement (N : Nat) (s : Sys) : Sys :=
  let me := s.procs s.current
  match s.pc s.current with
  | .out => s
  | .waitGet pid noHang i =>
    if i < N then
      if (s.procs i).state ≠ .unused ∧ (s.procs i).pid = pid then
        s.goto (.waitCheck pid noHang i)
      else s.goto (.waitGet pid noHang (i + 1))
    else s.goto .out
  | .waitCheck pid noHang t =>
    if (s.procs t).state = .unused ∨ pid = 0 then s.goto .out
    else if noHang then
      if (s.procs t).state ≠ .terminated then s.goto .out else s.goto (.waitStatus t)
    else s.goto (.waitTarget pid t)
  | .waitTarget pid t =>
    (s.setProc s.current { me with waitTarget := pid }).goto (.waitBlock pid t)
  | .waitBlock _ t => (s.setState s.current .blocked).goto (.waitLoop t)
  | .waitLoop t =>
    if (s.procs t).state ≠ .terminated ∧ (s.procs t).state ≠ .unused then s
    else s.goto (.waitRunning t)
  | .waitRunning t => (s.setState s.current .running).goto (.waitClear t)
  | .waitClear t => (s.setProc s.current { me with waitTarget := 0 }).goto (.waitStatus t)
  | .waitStatus t =>
    if (s.procs t).state = .unused then s.goto .out else s.goto (.waitCleanup t)
  | .waitCleanup t => s.goto (.waitUnused t)
  | .waitUnused t => (s.setState t .unused).goto (.waitPid t)
  | .waitPid t => (s.setProc t { s.procs t with pid := 0 }).goto .out
  | .exit code => if me.pid = 0 then s.goto .out else (exitSection N s code).goto .spin
  | .spin => s
  | .sleepTick ticks =>
    if me.pid = 0 ∨ ticks = 0 then s.goto .out
    else (s.setProc s.current { me with wakeTick := s.ticks + ticks }).goto .sleepState
  | .sleepState => (s.setState s.current .sleeping).goto .sleepLoop
  | .sleepLoop => if me.state = .sleeping then s else s.goto .out
  | .termGet pid i =>
    if i < N then
      if (s.procs i).state ≠ .unused ∧ (s.procs i).pid = pid then s.goto (.termCheck i)
      else s.goto (.termGet pid (i + 1))
    else s.goto .out
  | .termCheck t => if (s.procs t).pid = 0 then s.goto .out else s.goto (.termKill t)
  | .termKill t => (termSection N s t).goto .out

/-- The functions a process may call. -/
inductive Call where
  | waitpid (pid : Nat) (noHang : Bool)
  | exit (code : Int)
  | sleep (ticks : Nat)
  | terminate (pid : Nat)

/-- The first statement of a call. -/
def Call.entry : Call → Pc
  | .waitpid pid noHang => .waitGet pid noHang 0
  | .exit code => .exit code
  | .sleep ticks => .sleepTick ticks
  | .terminate pid => .termGet pid 0

/-- No system call reaches `process_terminate`: only the shell calls it. -/
def Call.allowed (s : Sys) : Call → Bool
  | .terminate _ => s.current == 0
  | _ => true

/-- What can happen next. -/
inductive Label where
  /-- The current process calls a function. -/
  | call (c : Call)
  /-- The current process executes its next statement. -/
  | run
  /-- A timer tick. -/
  | tick

/-- One step of the system. -/
def step (N : Nat) (s : Sys) : Label → Option Sys
  | .call c => if s.pc s.current = .out ∧ c.allowed s then some (s.goto c.entry) else none
  | .run => some (statement N s)
  | .tick => some (scheduleTick N s)

end Process
