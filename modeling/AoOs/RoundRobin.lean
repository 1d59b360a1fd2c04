import AoOs.Process
import AoOs.CyclicScan

/-! # Nobody overtakes — the order in which `schedule_tick` dispatches

    `schedule_tick` looks for the next ready process from behind the current one on.  While
    a process waits in the state READY, every dispatch of another one moves
    `current_process` to a slot that lies nearer before the waiting one, so no slot can
    have its turn twice.  Whatever happens to the other processes between two ticks plays
    no part: only `schedule_tick` moves `current_process`. -/

namespace RoundRobin

open StepSystem Process Sys CyclicScan

variable {s : Sys} {j i : Nat}

variable {N : Nat}

/-! ## What a tick dispatches -/

/-- `if (current_process->state == PROC_RUNNING) current_process->state = PROC_READY`. -/
def preempt (s : Sys) : Sys :=
  if (s.procs s.current).state = .running then s.setState s.current .ready else s

/-- The state in which `schedule_tick` starts to search, if it comes to that. -/
def scanned (N : Nat) (s : Sys) : Option Sys :=
  let s := wakeSleepers N { s with ticks := (s.ticks + 1) % 2 ^ 32 }
  if !s.schedulingEnabled then none
  else if mustSwitch (s.procs s.current) then some (preempt s)
  else if s.ticksRemaining - 1 = 0 then some (preempt { s with ticksRemaining := timeQuantum })
  else none

/-- The process that a tick chooses as `next`. -/
def dispatched (N : Nat) (s : Sys) : Option Nat :=
  (scanned N s).bind fun m => findReady N m.procs m.current N 1

/-- The search itself and what follows it. -/
def search (N : Nat) (m : Sys) : Sys :=
  match findReady N m.procs m.current N 1 with
  | none => if (m.procs m.current).state = .ready then m.setState m.current .running else m
  | some next => { m.setState next .running with current := next, ticksRemaining := timeQuantum }

theorem switchProcess_eq (s : Sys) : switchProcess N s = search N (preempt s) := rfl

theorem scheduleTick_of_scanned {m : Sys} (h : scanned N s = some m) :
    scheduleTick N s = search N m := by
  rw [scanned] at h
  rw [scheduleTick]
  dsimp only at h ⊢
  split_ifs at h ⊢
  · rw [switchProcess_eq, Option.some.inj h]
  · rw [switchProcess_eq, Option.some.inj h]

theorem scheduleTick_of_none (h : scanned N s = none) : (scheduleTick N s).current = s.current := by
  rw [scanned] at h
  rw [scheduleTick]
  dsimp only at h ⊢
  split_ifs at h ⊢
  · rfl
  · rfl

theorem preempt_current (s : Sys) : (preempt s).current = s.current := by
  rw [preempt]
  split <;> rfl

theorem scanned_current {m : Sys} (h : scanned N s = some m) : m.current = s.current := by
  rw [scanned] at h
  split_ifs at h
  · rw [← Option.some.inj h, preempt_current]
    rfl
  · rw [← Option.some.inj h, preempt_current]
    rfl

/-- Only a dispatch moves `current_process`. -/
theorem scheduleTick_current (s : Sys) :
    (scheduleTick N s).current = (dispatched N s).getD s.current := by
  rw [dispatched]
  cases h : scanned N s with
  | none => exact scheduleTick_of_none h
  | some m =>
    rw [scheduleTick_of_scanned h, Option.bind_some, search]
    cases findReady N m.procs m.current N 1 with
    | none =>
      have hcur : m.current = s.current := scanned_current h
      dsimp only
      split
      · exact hcur
      · exact hcur
    | some next => rfl

/-- A dispatched process runs. -/
theorem scheduleTick_running (h : dispatched N s = some j) :
    ((scheduleTick N s).procs j).state = .running := by
  obtain ⟨m, hm, hj⟩ := Option.bind_eq_some_iff.mp h
  rw [scheduleTick_of_scanned hm, search, hj]
  exact congrArg Proc.state (upd_same _ _ _)

/-- The process in slot `i` is READY when the tick searches, if it does. -/
def ReadyAtScan (N i : Nat) (s : Sys) : Prop :=
  ∀ m, scanned N s = some m → (m.procs i).state = .ready

theorem preempt_ready (h : (s.procs i).state = .ready) : ((preempt s).procs i).state = .ready := by
  rw [preempt]
  split
  · rename_i hrun
    have hne : i ≠ s.current := fun he => by
      rw [← he, h] at hrun
      cases hrun
    exact (congrArg Proc.state (upd_other _ _ hne)).trans h
  · exact h

/-- A process that is READY when the tick comes is so when it searches. -/
theorem readyAtScan_of_ready (h : (s.procs i).state = .ready) : ReadyAtScan N i s := by
  intro m hm
  have hwake : ((wakeSleepers N { s with ticks := (s.ticks + 1) % 2 ^ 32 }).procs i).state =
      .ready := by
    rw [wakeSleepers]
    dsimp only
    split
    · rfl
    · exact h
  rw [scanned] at hm
  split_ifs at hm
  · rw [← Option.some.inj hm]
    exact preempt_ready hwake
  · rw [← Option.some.inj hm]
    exact preempt_ready hwake

/-- **Every dispatch of another process brings the turn nearer.** -/
theorem dispatched_nearer (hi : i < N) (hready : ReadyAtScan N i s) (h : dispatched N s = some j)
    (hji : j ≠ i) : ahead N j i < ahead N s.current i := by
  obtain ⟨m, hm, hfind⟩ := Option.bind_eq_some_iff.mp h
  obtain ⟨d, hd, rfl, -, hskip⟩ := findReady_spec hfind
  rw [scanned_current hm] at hskip hji ⊢
  refine ahead_lt hi hd ?_
  -- the search would have stopped at the waiting process
  rcases Nat.lt_trichotomy d (ahead N s.current i) with hlt | heq | hgt
  · exact hlt
  · rw [heq, add_ahead _ hi] at hji
    exact absurd rfl hji
  · refine absurd ?_ (hskip _ (ahead_pos hi) hgt)
    rw [add_ahead _ hi]
    exact hready m hm

/-! ## Runs -/

/-- A timer tick, or any other change: of the table, the clock or the variables of the
    scheduler, but not of `current_process`. -/
inductive Label where
  | tick
  | other (s : Sys)

def step (N : Nat) (s : Sys) : Label → Option Sys
  | .tick => some (scheduleTick N s)
  | .other t => if t.current = s.current then some t else none

/-- The slots that are dispatched along a run. -/
def dispatches (N : Nat) : Sys → List Label → List Nat
  | _, [] => []
  | s, .tick :: ls => (dispatched N s).toList ++ dispatches N (scheduleTick N s) ls
  | _, .other t :: ls => dispatches N t ls

/-- The process in slot `i` is READY before the step. -/
def Ready (i : Nat) (s : Sys) (_ : Label) : Prop := (s.procs i).state = .ready

/-- The dispatches of a run, for a process that waits. -/
structure InTurn (N i : Nat) (s : Sys) (js : List Nat) : Prop where
  nearer : ∀ j ∈ js, j ≠ i → ahead N j i < ahead N s.current i
  once : ∀ j, j ≠ i → js.count j ≤ 1

/-- A tick in front of a run. -/
theorem InTurn.tick {js : List Nat} (hi : i < N) (hready : ReadyAtScan N i s)
    (hend : dispatched N s = some i → js = []) (h : InTurn N i (scheduleTick N s) js) :
    InTurn N i s ((dispatched N s).toList ++ js) := by
  have hcur := scheduleTick_current (N := N) s
  cases hd : dispatched N s with
  | none =>
    rw [hd] at hcur
    refine ⟨fun j hj hji => ?_, h.once⟩
    have hj' := h.nearer j hj hji
    rwa [hcur] at hj'
  | some k =>
    rw [hd] at hcur
    by_cases hki : k = i
    · subst hki
      rw [hend hd]
      refine ⟨fun j hj hji => absurd (List.mem_singleton.mp hj) hji, fun j hji => ?_⟩
      rw [Option.toList_some, List.append_nil, List.count_singleton]
      split <;> omega
    · have hk := dispatched_nearer hi hready hd hki
      have hjs : ∀ j ∈ js, j ≠ i → ahead N j i < ahead N k i := fun j hj hji => by
        have hj' := h.nearer j hj hji
        rwa [hcur] at hj'
      refine ⟨fun j hj hji => ?_, fun j hji => ?_⟩
      · rcases List.mem_cons.mp hj with rfl | hj
        · exact hk
        · exact (hjs j hj hji).trans hk
      · rw [Option.toList_some, List.singleton_append]
        by_cases hjk : j = k
        · -- a second turn of the same slot would lie nearer than itself
          subst hjk
          have hnot : j ∉ js := fun hj => Nat.lt_irrefl _ (hjs j hj hji)
          rw [List.count_cons_self, List.count_eq_zero_of_not_mem hnot]
        · rw [List.count_cons_of_ne (Ne.symm hjk)]
          exact h.once j hji

theorem InTurn.nil (s : Sys) : InTurn N i s [] := ⟨nofun, fun _ _ => Nat.zero_le _⟩

/-- After its dispatch a process is not READY, so the run is over. -/
theorem dispatches_nil {s' : Sys} {ls : List Label}
    (hrun : Steps (step N) (Ready i) (scheduleTick N s) ls s') (h : dispatched N s = some i) :
    dispatches N (scheduleTick N s) ls = [] := by
  cases hrun with
  | nil => rfl
  | cons _ hr _ =>
    rw [Ready, scheduleTick_running h] at hr
    cases hr

theorem run_inTurn (hi : i < N) {s' : Sys} {ls : List Label}
    (hrun : Steps (step N) (Ready i) s ls s') : InTurn N i s (dispatches N s ls) := by
  induction hrun with
  | nil s => exact .nil s
  | cons hstep hr hrest ih =>
    rename_i l ls
    cases l with
    | tick =>
      cases hstep
      exact .tick hi (readyAtScan_of_ready hr) (dispatches_nil hrest) ih
    | other t =>
      rw [step] at hstep
      split at hstep
      · rename_i hcur
        cases hstep
        exact ⟨fun j hj hji => hcur ▸ ih.nearer j hj hji, ih.once⟩
      · cases hstep

/-- **NOBODY OVERTAKES**: while the process in slot `i` is READY, no other slot is
    dispatched twice; its wait may begin before a step or in the middle of a tick that
    wakes or preempts it. -/
theorem no_overtaking {i : Nat} (hi : i < N) (s s' : Sys) (ls : List Label) :
    (Steps (step N) (Ready i) s ls s' → ∀ j, j ≠ i → (dispatches N s ls).count j ≤ 1) ∧
    (ReadyAtScan N i s → Steps (step N) (Ready i) (scheduleTick N s) ls s' →
      ∀ j, j ≠ i → (dispatches N s (.tick :: ls)).count j ≤ 1) :=
  ⟨fun hrun => (run_inTurn hi hrun).once, fun hfirst hrun =>
    (InTurn.tick hi hfirst (dispatches_nil hrun) (run_inTurn hi hrun)).once⟩

instance (i : Nat) (s : Sys) (l : Label) : Decidable (Ready i s l) :=
  inferInstanceAs (Decidable (_ = _))

/-- A process that runs with its time almost used up, and two that wait. -/
def threeProcs : Sys where
  procs := fun i => ⟨i, if i = 0 then .running else .ready, 0, 0, 0⟩
  pc := fun _ => .out
  current := 0
  ticks := 0
  ticksRemaining := 1
  schedulingEnabled := true

/-- The process in slot 2 waits for one turn of slot 1. -/
theorem no_overtaking_three :
    (runWhile (step 3) (Ready 2) threeProcs (List.replicate 6 .tick)).isSome ∧
      dispatches 3 threeProcs (List.replicate 6 .tick) = [1, 2] ∧
      (dispatches 3 threeProcs (List.replicate 6 .tick)).count 1 ≤ 1 := by
  have hsome : (runWhile (step 3) (Ready 2) threeProcs (List.replicate 6 .tick)).isSome := by
    decide
  obtain ⟨s, hs⟩ := Option.isSome_iff_exists.mp hsome
  exact ⟨hsome, by decide,
    (no_overtaking (show 2 < 3 by decide) threeProcs s _).1 (steps_of_runWhile hs) 1 (by decide)⟩

end RoundRobin
