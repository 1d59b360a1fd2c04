import AoOs.WakeUp

/-! # Sleeping — does every sleeper wake on time?

    `process_sleep_ticks` computes its deadline as a 64-bit sum of the 32-bit tick counter
    and the number of ticks, stores it, and only then stores `PROC_SLEEPING`;
    `wake_sleepers` compares the deadline with the counter.  A deadline of 2^32 or more is
    never met (`sleep_past_wrap`), and a tick that comes between the two stores finds nobody
    to wake.  Apart from that every tick before the n-th leaves the sleeper alone and the n-th
    wakes it, whatever happens in the rest of the table (`wakes_iff`). -/

namespace SleepTicks

open StepSystem Process Sys
open WakeUp (Gone)

variable {s' : Sys}

/-- A statement or a tick of the process model, or any change of the slots but `i`: what
    `process_create`, `process_activate` and `process_reap_terminated` do for the others. -/
inductive Label where
  | proc (l : Process.Label)
  | other (procs : Nat → Proc) (pc : Nat → Pc) (schedulingEnabled : Bool)

def step (N i : Nat) (s : Sys) : Label → Option Sys
  | .proc l => Process.step N s l
  | .other procs pc enabled =>
    some { s with
      procs := upd procs i (s.procs i)
      pc := upd pc i (s.pc i)
      schedulingEnabled := enabled }

/-- The number of ticks, one label further. -/
def countTick (k : Nat) : Label → Nat
  | .proc .tick => k + 1
  | _ => k

theorem le_countTick (k : Nat) (l : Label) : k ≤ countTick k l := by
  match l with
  | .proc .tick => exact Nat.le_succ k
  | .proc .run | .proc (.call _) | .other .. => exact le_rfl

/-- The ticks of a run. -/
def ticks (ls : List Label) : Nat := ls.foldl countTick 0

/-- The process in slot `i` has not been terminated. -/
def Alive (i : Nat) (s : Sys) (_ : Label) : Prop := ¬ Gone (s.procs i)

/-- The next tick makes the process in slot `i` READY. -/
def Wakes (N i : Nat) (s : Sys) : Prop :=
  (s.procs i).state = .sleeping ∧
    ((wakeSleepers N { s with ticks := (s.ticks + 1) % 2 ^ 32 }).procs i).state = .ready

instance (p : Proc) : Decidable (Gone p) := inferInstanceAs (Decidable (_ ∨ _))

instance (i : Nat) (s : Sys) (l : Label) : Decidable (Alive i s l) :=
  inferInstanceAs (Decidable (¬ _))

instance (N i : Nat) (s : Sys) : Decidable (Wakes N i s) := inferInstanceAs (Decidable (_ ∧ _))

/-- The running process in slot `i` is at the first statement of `process_sleep_ticks(n)`. -/
structure Calls (N i n : Nat) (s : Sys) : Prop where
  slot : i < N
  current : s.current = i
  point : s.pc i = .sleepTick n
  running : (s.procs i).state = .running
  kernel : (s.procs i).pid = 0 ↔ i = 0
  clock : s.ticks < 2 ^ 32
  pos : 0 < n
  bound : n < 2 ^ 32

/-! ## What the others can do to a record -/

def Runnable (p : Proc) : Prop := p.state = .running ∨ p.state = .ready

/-- Dispatching and waking other processes: the deadline stays, a sleeper sleeps, and what
    can run can run. -/
structure Like (p q : Proc) : Prop where
  alarm : q.wakeTick = p.wakeTick
  runnable : Runnable p → Runnable q
  sleeping : p.state = .sleeping → q.state = .sleeping

theorem Like.refl (p : Proc) : Like p p := ⟨rfl, id, id⟩

theorem Like.trans {p q r : Proc} (h : Like p q) (h' : Like q r) : Like p r :=
  ⟨h'.alarm.trans h.alarm, h'.runnable ∘ h.runnable, h'.sleeping ∘ h.sleeping⟩

/-- A blocked process that becomes ready. -/
theorem like_of_blocked {p q : Proc} (hp : p.state = .blocked) (ha : q.wakeTick = p.wakeTick) :
    Like p q := by
  refine ⟨ha, fun h => ?_, fun h => ?_⟩
  · rcases h with h | h <;> rw [hp] at h <;> cases h
  · cases hp.symm.trans h

theorem like_exitWake (pid : Nat) (p : Proc) : Like p (exitWake pid p) := by
  rw [exitWake]
  split
  · exact like_of_blocked (And.left ‹_›) rfl
  · exact .refl p

theorem like_termWake (p : Proc) : Like p (termWake p) := by
  rw [termWake]
  split
  · exact like_of_blocked ‹_› rfl
  · exact .refl p

variable {N i : Nat} {s : Sys}

/-- A process that can run is made running or ready. -/
theorem like_setState {j : Nat} {st : PState} (hj : Runnable (s.procs j))
    (hst : st = .running ∨ st = .ready) : Like (s.procs i) ((s.setState j st).procs i) := by
  by_cases hij : i = j
  · subst hij
    have hrec : (s.setState i st).procs i = { s.procs i with state := st } := upd_same _ _ _
    rw [hrec]
    refine ⟨rfl, fun _ => hst, fun h => ?_⟩
    rcases hj with hj | hj <;> rw [hj] at h <;> cases h
  · have hrec : (s.setState j st).procs i = s.procs i := upd_other _ _ hij
    rw [hrec]
    exact .refl _

theorem like_mapProcs {f : Proc → Proc} (hf : ∀ p, Like p (f p)) :
    Like (s.procs i) ((s.mapProcs N f).procs i) := by
  show Like (s.procs i) (if i < N then f (s.procs i) else s.procs i)
  split
  · exact hf _
  · exact .refl _

/-! ## A statement of another process -/

/-- Slot `i` is gone, or goes on as before. -/
structure Elsewhere (i : Nat) (s s' : Sys) : Prop where
  clock : s'.ticks = s.ticks
  point : s'.pc i = s.pc i
  record : Gone (s'.procs i) ∨ Like (s.procs i) (s'.procs i)

theorem Elsewhere.refl (i : Nat) (s : Sys) : Elsewhere i s s := ⟨rfl, rfl, .inr (.refl _)⟩

/-- The other process moves on. -/
theorem Elsewhere.goto (h : Elsewhere i s s') (hi : i ≠ s'.current) (p : Pc) :
    Elsewhere i s (s'.goto p) :=
  ⟨h.clock, (upd_other _ _ hi).trans h.point, h.record⟩

theorem elsewhere_setProc {j : Nat} (p : Proc) (hij : i ≠ j) : Elsewhere i s (s.setProc j p) := by
  refine ⟨rfl, rfl, .inr ?_⟩
  have hrec : (s.setProc j p).procs i = s.procs i := upd_other _ _ hij
  rw [hrec]
  exact .refl _

/-- Terminating and freeing a slot. -/
theorem elsewhere_gone (j : Nat) {st : PState} (hst : st = .terminated ∨ st = .unused) :
    Elsewhere i s (s.setState j st) := by
  by_cases hij : i = j
  · subst hij
    refine ⟨rfl, rfl, .inl ?_⟩
    have hrec : (s.setState i st).procs i = { s.procs i with state := st } := upd_same _ _ _
    rw [hrec]
    exact hst
  · exact elsewhere_setProc _ hij

theorem Elsewhere.mapProcs {f : Proc → Proc} (h : Elsewhere i s s') (hf : ∀ p, Like p (f p))
    (hgone : ∀ p, Gone p → Gone (f p)) : Elsewhere i s (s'.mapProcs N f) := by
  refine ⟨h.clock, h.point, ?_⟩
  rcases h.record with hg | hl
  · refine .inl ?_
    show Gone (if i < N then f (s'.procs i) else s'.procs i)
    split
    · exact hgone _ hg
    · exact hg
  · exact .inr (hl.trans (like_mapProcs hf))

theorem gone_exitWake (pid : Nat) (p : Proc) (h : Gone p) : Gone (exitWake pid p) := by
  rw [exitWake, if_neg]
  · exact h
  · rintro ⟨hb, -⟩
    rcases h with h | h <;> rw [hb] at h <;> cases h

theorem gone_termWake (p : Proc) (h : Gone p) : Gone (termWake p) := by
  rw [termWake, if_neg]
  · exact h
  · intro hb
    rcases h with h | h <;> rw [hb] at h <;> cases h

/-- Clearing a pid. -/
theorem elsewhere_pid (t : Nat) : Elsewhere i s (s.setProc t { s.procs t with pid := 0 }) := by
  by_cases hit : i = t
  · subst hit
    refine ⟨rfl, rfl, .inr ?_⟩
    have hrec : (s.setProc i { s.procs i with pid := 0 }).procs i = { s.procs i with pid := 0 } :=
      upd_same _ _ _
    rw [hrec]
    exact ⟨rfl, id, id⟩
  · exact elsewhere_setProc _ hit

theorem elsewhere_statement (hi : i ≠ s.current) : Elsewhere i s (statement N s) := by
  have hgo : ∀ p, Elsewhere i s (s.goto p) := fun p => (Elsewhere.refl i s).goto hi p
  have hset : ∀ q p, Elsewhere i s ((s.setProc s.current q).goto p) :=
    fun q p => (elsewhere_setProc q hi).goto hi p
  rw [statement]
  dsimp only
  cases s.pc s.current with
  | out | spin => exact .refl i s
  | waitGet pid noHang j =>
    dsimp only
    split_ifs <;> exact hgo _
  | waitCheck pid noHang t =>
    dsimp only
    split_ifs <;> exact hgo _
  | waitTarget pid t | waitClear t => exact hset _ _
  | waitBlock pid t | waitRunning t | sleepState => exact hset _ _
  | waitLoop t =>
    dsimp only
    split_ifs
    · exact .refl i s
    · exact hgo _
  | waitStatus t =>
    dsimp only
    split_ifs <;> exact hgo _
  | waitCleanup t => exact hgo _
  | waitUnused t => exact (elsewhere_gone t (.inr rfl)).goto hi _
  | waitPid t => exact (elsewhere_pid t).goto hi _
  | exit code =>
    dsimp only
    split_ifs
    · exact hgo _
    · exact ((elsewhere_setProc _ hi).mapProcs (like_exitWake _) (gone_exitWake _)).goto hi _
  | sleepTick n =>
    dsimp only
    split_ifs
    · exact hgo _
    · exact hset _ _
  | sleepLoop =>
    dsimp only
    split_ifs
    · exact .refl i s
    · exact hgo _
  | termGet pid j =>
    dsimp only
    split_ifs <;> exact hgo _
  | termCheck t =>
    dsimp only
    split_ifs <;> exact hgo _
  | termKill t =>
    exact ((elsewhere_gone t (.inl rfl)).mapProcs like_termWake gone_termWake).goto hi _

/-! ## A tick -/

/-- The switch moves processes between running and ready. -/
theorem switchProcess_spec :
    (switchProcess N s).ticks = s.ticks ∧ (switchProcess N s).pc = s.pc ∧
    Like (s.procs i) ((switchProcess N s).procs i) := by
  rw [switchProcess]
  generalize hs₁ : (if (s.procs s.current).state = .running then s.setState s.current .ready
    else s) = s₁
  have h₁ : s₁.ticks = s.ticks ∧ s₁.pc = s.pc ∧ Like (s.procs i) (s₁.procs i) := by
    rw [← hs₁]
    split
    · exact ⟨rfl, rfl, like_setState (.inl ‹_›) (.inr rfl)⟩
    · exact ⟨rfl, rfl, .refl _⟩
  obtain ⟨ht, hp, hl⟩ := h₁
  dsimp only
  split
  · split
    · exact ⟨ht, hp, hl.trans (like_setState (.inr ‹_›) (.inl rfl))⟩
    · exact ⟨ht, hp, hl⟩
  · rename_i next hnext
    refine ⟨ht, hp, hl.trans (like_setState (.inr ?_) (.inl rfl))⟩
    obtain ⟨_, _, _, hready, _⟩ := findReady_spec hnext
    exact hready

/-- After `wake_sleepers`, a tick changes no deadline and no sleeper. -/
theorem scheduleTick_spec :
    (scheduleTick N s).ticks = (s.ticks + 1) % 2 ^ 32 ∧ (scheduleTick N s).pc = s.pc ∧
    Like ((wakeSleepers N { s with ticks := (s.ticks + 1) % 2 ^ 32 }).procs i)
      ((scheduleTick N s).procs i) := by
  rw [scheduleTick]
  have ht : (wakeSleepers N { s with ticks := (s.ticks + 1) % 2 ^ 32 }).ticks =
    (s.ticks + 1) % 2 ^ 32 := rfl
  have hp : (wakeSleepers N { s with ticks := (s.ticks + 1) % 2 ^ 32 }).pc = s.pc := rfl
  generalize wakeSleepers N { s with ticks := (s.ticks + 1) % 2 ^ 32 } = s₁ at ht hp
  rw [← ht, ← hp]
  dsimp only
  split
  · exact ⟨rfl, rfl, .refl _⟩
  · split
    · exact switchProcess_spec
    · split
      · exact switchProcess_spec (s := { s₁ with ticksRemaining := timeQuantum })
      · exact ⟨rfl, rfl, .refl _⟩

/-! ## The sleeper -/

/-- `k` ticks after the counter was `now`, the process in slot `i` is about to store
    `PROC_SLEEPING`, or sleeps, until `now + n`. -/
structure Asleep (i now n k : Nat) (s : Sys) : Prop where
  clock : s.ticks = (now + k) % 2 ^ 32
  alarm : (s.procs i).wakeTick = now + n
  point : s.pc i = .sleepState ∧ Runnable (s.procs i) ∨
    s.pc i = .sleepLoop ∧ (s.procs i).state = .sleeping

variable {now n k : Nat}

section Asleep

variable (h : Asleep i now n k s)

include h

theorem Asleep.like {k' : Nat} (hp : s'.pc i = s.pc i) (hl : Like (s.procs i) (s'.procs i))
    (hc : s'.ticks = (now + k') % 2 ^ 32) : Asleep i now n k' s' := by
  refine ⟨hc, hl.alarm.trans h.alarm, ?_⟩
  rw [hp]
  exact h.point.imp (And.imp_right hl.runnable) (And.imp_right hl.sleeping)

/-- **The sleeper is woken at its deadline, and not by the wrapped counter.** -/
theorem Asleep.woken_iff (hi : i < N) :
    Wakes N i s ↔ 1 ≤ i ∧ s.pc i = .sleepLoop ∧ now + n ≤ (now + k + 1) % 2 ^ 32 := by
  have hclock : (s.ticks + 1) % 2 ^ 32 = (now + k + 1) % 2 ^ 32 := by
    rw [h.clock]
    omega
  rw [Wakes, wakeSleepers]
  dsimp only
  rw [hclock, h.alarm]
  constructor
  · rintro ⟨hs, hr⟩
    have hpc : s.pc i = .sleepLoop := by
      rcases h.point with ⟨_, hrun⟩ | ⟨hpc, _⟩
      · rcases hrun with hrun | hrun <;> rw [hs] at hrun <;> cases hrun
      · exact hpc
    split at hr
    · rename_i hc
      exact ⟨hc.1, hpc, hc.2.2.2⟩
    · cases hs.symm.trans hr
  · rintro ⟨h1, hpc, hle⟩
    have hs : (s.procs i).state = .sleeping := by
      rcases h.point with ⟨hpc', _⟩ | ⟨_, hs⟩
      · cases hpc.symm.trans hpc'
      · exact hs
    exact ⟨hs, by rw [if_pos ⟨h1, hi, hs, hle⟩]⟩

/-- A tick before the deadline. -/
theorem Asleep.tick (hk : k + 1 < n) : Asleep i now n (k + 1) (scheduleTick N s) := by
  obtain ⟨hc, hp, hl⟩ := scheduleTick_spec (N := N) (i := i) (s := s)
  have hclock : (s.ticks + 1) % 2 ^ 32 = (now + (k + 1)) % 2 ^ 32 := by
    rw [h.clock]
    omega
  -- the counter is at most `now + k + 1`
  have hsame : (wakeSleepers N { s with ticks := (s.ticks + 1) % 2 ^ 32 }).procs i = s.procs i := by
    rw [wakeSleepers]
    refine if_neg fun hw => ?_
    have hle := hw.2.2.2
    rw [h.alarm] at hle
    dsimp only at hle
    have := Nat.mod_le (now + (k + 1)) (2 ^ 32)
    omega
  rw [hsame] at hl
  exact h.like (congrFun hp i) hl (hc.trans hclock)

/-- The sleeper's own statements. -/
theorem Asleep.statement (hi : s.current = i) : Asleep i now n k (Process.statement N s) := by
  subst hi
  rw [Process.statement]
  rcases h.point with ⟨hpc, _⟩ | ⟨hpc, hs⟩
  · have hrec : (s.setState s.current .sleeping).procs s.current =
        { s.procs s.current with state := .sleeping } := upd_same _ _ _
    rw [hpc]
    refine ⟨h.clock, ?_, .inr ⟨upd_same _ _ _, ?_⟩⟩
    · exact (congrArg Proc.wakeTick hrec).trans h.alarm
    · exact congrArg Proc.state hrec
  · rw [hpc]
    dsimp only
    rw [if_pos hs]
    exact h

/-- **One step** of the process, of the others, or of the timer. -/
theorem Asleep.step {l : Label} (hstep : SleepTicks.step N i s l = some s') (hk : countTick k l < n)
    : Gone (s'.procs i) ∨ Asleep i now n (countTick k l) s' := by
  match l with
  | .other procs pc enabled =>
    cases hstep
    refine .inr (h.like (upd_same _ _ _) ?_ h.clock)
    show Like _ (upd procs i (s.procs i) i)
    rw [upd_same]
    exact .refl _
  | .proc .tick =>
    cases hstep
    exact .inr (h.tick hk)
  | .proc .run =>
    cases hstep
    by_cases hc : s.current = i
    · exact .inr (h.statement hc)
    · have he := elsewhere_statement (N := N) (Ne.symm hc)
      exact he.record.imp id fun hl => h.like he.point hl (he.clock.trans h.clock)
  | .proc (.call c) =>
    change (if s.pc s.current = .out ∧ c.allowed s then some (s.goto c.entry) else none) =
      some s' at hstep
    split at hstep
    · rename_i hout
      cases hstep
      have hc : i ≠ s.current := by
        rintro rfl
        rcases h.point with ⟨hpc, _⟩ | ⟨hpc, _⟩ <;> rw [hpc] at hout <;> cases hout.1
      exact .inr (h.like (upd_other _ _ hc) (.refl _) h.clock)
    · cases hstep

end Asleep

/-- The statement that reads the counter. -/
theorem Calls.asleep (h : Calls N i n s) (hi : i ≠ 0) :
    Asleep i s.ticks n 0 (Process.statement N s) := by
  obtain rfl := h.current
  have hpid : ¬ ((s.procs s.current).pid = 0 ∨ n = 0) := by
    rintro (h0 | h0)
    · exact hi (h.kernel.mp h0)
    · exact absurd h0 h.pos.ne'
  have hrec : (s.setProc s.current { s.procs s.current with wakeTick := s.ticks + n }).procs
      s.current = { s.procs s.current with wakeTick := s.ticks + n } := upd_same _ _ _
  rw [Process.statement, h.point]
  dsimp only
  rw [if_neg hpid]
  refine ⟨(Nat.mod_eq_of_lt h.clock).symm, congrArg Proc.wakeTick hrec, .inl ⟨upd_same _ _ _, ?_⟩⟩
  exact .inl ((congrArg Proc.state hrec).trans h.running)

/-- A run of fewer than `n` ticks. -/
theorem Calls.asleep_run {s₁ : Sys} {ls : List Label} (h : Calls N i n s) (hi : i ≠ 0)
    (hrun : Steps (step N i) (Alive i) (Process.statement N s) ls s₁) (halive : ¬ Gone (s₁.procs i))
    (hk : ticks ls < n) : Asleep i s.ticks n (ticks ls) s₁ := by
  have hinv : Gone (s₁.procs i) ∨ (ticks ls < n → Asleep i s.ticks n (ticks ls) s₁) := by
    refine hrun.simulates (R := fun t k => Gone (t.procs i) ∨ (k < n → Asleep i s.ticks n k t))
      ?_ (.inr fun _ => h.asleep hi)
    intro t l t' k hR hC hstep
    by_cases hlt : countTick k l < n
    · have ht := hR.resolve_left hC (Nat.lt_of_le_of_lt (le_countTick k l) hlt)
      exact (ht.step hstep hlt).imp id fun ha _ => ha
    · exact .inr fun h => absurd h hlt
  exact hinv.resolve_left halive hk

/-- **When the sleeper is woken**: no tick before the n-th makes it READY, and the n-th does
    exactly if the deadline is below 2^32 and `PROC_SLEEPING` has been stored by then; the
    kernel process is not put to sleep. -/
theorem wakes_iff {s₁ : Sys} {ls : List Label} (h : Calls N i n s)
    (hrun : Steps (step N i) (Alive i) (Process.statement N s) ls s₁)
    (halive : ¬ Gone (s₁.procs i)) :
    (ticks ls + 1 < n → ¬ Wakes N i s₁) ∧
    (ticks ls + 1 = n → (Wakes N i s₁ ↔ i ≠ 0 ∧ s.ticks + n < 2 ^ 32 ∧ s₁.pc i ≠ .sleepState)) := by
  by_cases hi : i = 0
  · -- `wake_sleepers` starts at slot 1
    have hno : ¬ Wakes N i s₁ := by
      rintro ⟨hs, hr⟩
      rw [wakeSleepers] at hr
      dsimp only at hr
      rw [if_neg (fun hw => by have := hw.1; omega), hs] at hr
      cases hr
    exact ⟨fun _ => hno, fun _ => ⟨fun hw => absurd hw hno, fun hc => absurd hi hc.1⟩⟩
  refine ⟨fun hk => ?_, fun hk => ?_⟩
  · have ha := h.asleep_run hi hrun halive (by omega)
    rw [ha.woken_iff h.slot]
    rintro ⟨_, _, hle⟩
    have := Nat.mod_le (s.ticks + ticks ls + 1) (2 ^ 32)
    omega
  · have ha := h.asleep_run hi hrun halive (by omega)
    rw [ha.woken_iff h.slot]
    have hpc : s₁.pc i = .sleepLoop ↔ s₁.pc i ≠ .sleepState := by
      rcases ha.point with ⟨hp, _⟩ | ⟨hp, _⟩ <;> rw [hp] <;> decide
    rw [hpc]
    have harith : s.ticks + n ≤ (s.ticks + ticks ls + 1) % 2 ^ 32 ↔ s.ticks + n < 2 ^ 32 := by
      have := h.bound
      have := h.clock
      omega
    rw [harith]
    exact ⟨fun ⟨h1, hp, hlt⟩ => ⟨hi, hlt, hp⟩, fun ⟨h1, hlt, hp⟩ => ⟨by omega, hp, hlt⟩⟩

/-! ## The wrap of the counter -/

/-- Process 1 runs and calls `process_sleep_ticks(n)`; the counter is `now`. -/
def sleepStart (now n : Nat) : Sys where
  procs i :=
    { pid := i, state := if i = 0 then .ready else if i = 1 then .running else .unused
      waitTarget := 0, wakeTick := 0, exitCode := 0 }
  pc i := if i = 1 then .sleepTick n else .out
  current := 1
  ticks := now
  ticksRemaining := timeQuantum
  schedulingEnabled := true

theorem sleepStart_calls {now n : Nat} (hnow : now < 2 ^ 32) (hpos : 0 < n) (hn : n < 2 ^ 32) :
    Calls maxProcesses 1 n (sleepStart now n) :=
  ⟨by decide, rfl, rfl, rfl, Iff.rfl, hnow, hpos, hn⟩

/-- **Past the wrap**: a process that sleeps for one tick when the counter is 2^32 - 1 is not
    woken by that tick. -/
theorem sleep_past_wrap : ∃ s₁, Calls maxProcesses 1 1 (sleepStart (2 ^ 32 - 1) 1) ∧
      Steps (step maxProcesses 1) (Alive 1) (Process.statement maxProcesses
        (sleepStart (2 ^ 32 - 1) 1)) [.proc .run] s₁ ∧
      ¬ Gone (s₁.procs 1) ∧ ¬ Wakes maxProcesses 1 s₁ := by
  refine ⟨_, sleepStart_calls (by decide) (by decide) (by decide), .cons rfl ?_ (.nil _), ?_, ?_⟩
  · decide
  · decide
  · decide

/-- Two ticks from the start: the shell runs meanwhile, and the second tick wakes. -/
theorem wakes_second_tick :
    ∃ s₁, Steps (step maxProcesses 1) (Alive 1) (Process.statement maxProcesses (sleepStart 0 2))
        [.proc .run, .proc .tick] s₁ ∧ Wakes maxProcesses 1 s₁ := by
  have hrun : Steps (step maxProcesses 1) (Alive 1)
      (Process.statement maxProcesses (sleepStart 0 2)) [.proc .run, .proc .tick] _ :=
    .cons rfl (by decide) (.cons rfl (by decide) (.nil _))
  refine ⟨_, hrun, ((wakes_iff (sleepStart_calls (by decide) (by decide) (by decide)) hrun ?_).2
    rfl).mpr ⟨by decide, by decide, ?_⟩⟩
  · decide
  · decide

end SleepTicks
