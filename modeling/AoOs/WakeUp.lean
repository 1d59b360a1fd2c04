import AoOs.Process

/-! # Waiting for a process — when is a wake-up lost?

    `process_waitpid` looks its target up, publishes `PROC_BLOCKED` and only then
    tests whether the target is still there; `process_exit` and
    `process_terminate` sweep the blocked processes in one step with the state
    change.  A process is stuck when it is blocked, not running, and the process
    it waits for is terminated or gone: nobody will sweep for that pid again.

    The window is between the look-up and the store.  A waiter that publishes
    while its target is already terminated, and is switched out before its loop
    test, is stuck (`waitpid_loses_wakeup`); a run in which every publication
    finds its target alive never gets there (`no_lost_wakeup`). -/

namespace WakeUp

open StepSystem Process Sys

variable {p : Pc} {t i pid k : Nat} {f : Nat → Proc} {q : Proc}

/-- Some slot holds `pid` and is not unused. -/
def Live (N : Nat) (procs : Nat → Proc) (pid : Nat) : Prop :=
  ∃ j < N, (procs j).state ≠ .unused ∧ (procs j).pid = pid

/-- Some slot holds `pid` and is terminated. -/
def Ended (N : Nat) (procs : Nat → Proc) (pid : Nat) : Prop :=
  ∃ j < N, (procs j).state = .terminated ∧ (procs j).pid = pid

/-- A process is blocked and not current while the process it waits for is
    terminated, or while no live process has that pid. -/
def LostWakeup (N : Nat) (s : Sys) : Prop :=
  ∃ i < N, (s.procs i).state = .blocked ∧ i ≠ s.current ∧
    (Ended N s.procs (s.procs i).waitTarget ∨ ¬ Live N s.procs (s.procs i).waitTarget)

/-- Any table of processes, all of them outside the modelled functions and none
    blocked, with slot 0 the kernel's and some process running. -/
structure Init (N : Nat) (s : Sys) : Prop where
  current_lt : s.current < N
  running : (s.procs s.current).state = .running
  outside : ∀ i, s.pc i = .out
  noneBlocked : ∀ i < N, (s.procs i).state ≠ .blocked
  kernel : (s.procs 0).pid = 0

/-- The condition on a step: a waiter stores `PROC_BLOCKED` only while the
    process it waits for is live and has not terminated. -/
def PublishesAlive (N : Nat) (s : Sys) : Label → Prop
  | .run =>
    match s.pc s.current with
    | .waitBlock pid _ => Live N s.procs pid ∧ ¬ Ended N s.procs pid
    | _ => True
  | _ => True

instance (N : Nat) (procs : Nat → Proc) (pid : Nat) : Decidable (Live N procs pid) :=
  inferInstanceAs (Decidable (∃ j < N, _))

instance (N : Nat) (procs : Nat → Proc) (pid : Nat) : Decidable (Ended N procs pid) :=
  inferInstanceAs (Decidable (∃ j < N, _))

instance (N : Nat) (s : Sys) : Decidable (LostWakeup N s) :=
  inferInstanceAs (Decidable (∃ i < N, _))

instance (N : Nat) (s : Sys) (l : Label) : Decidable (PublishesAlive N s l) :=
  match l with
  | .run => by
    dsimp only [PublishesAlive]
    split <;> infer_instance
  | .call _ | .tick => isTrue trivial

/-! ## The invariant -/

/-- The slot a program point refers to. -/
def target : Pc → Option Nat
  | .waitCheck _ _ t | .waitTarget _ t | .waitBlock _ t | .waitLoop t | .waitRunning t
  | .waitClear t | .waitStatus t | .waitCleanup t | .waitUnused t | .waitPid t
  | .termCheck t | .termKill t => some t
  | _ => none

/-- The target of a waiter that has left its wait loop. -/
def reaping : Pc → Option Nat
  | .waitRunning t | .waitClear t | .waitStatus t | .waitCleanup t | .waitUnused t
  | .waitPid t => some t
  | _ => none

theorem target_of_reaping (h : reaping p = some t) : target p = some t := by
  cases p <;> simp_all [reaping, target]

/-- The points at which a process may find itself blocked. -/
def mayBlock : Pc → Bool
  | .waitLoop _ | .waitRunning _ => true
  | _ => false

/-- The pid a waiter is about to wait for. -/
def waitingFor : Pc → Option Nat
  | .waitTarget pid _ | .waitBlock pid _ => some pid
  | _ => none

/-- The points of `process_terminate`. -/
def terminating : Pc → Bool
  | .termGet _ _ | .termCheck _ | .termKill _ => true
  | _ => false

/-- A slot that no longer takes part in scheduling. -/
def Gone (p : Proc) : Prop := p.state = .terminated ∨ p.state = .unused

/-- What is known of process `i` when it is at the program point `p`. -/
structure Point (N : Nat) (s : Sys) (i : Nat) (p : Pc) : Prop where
  target_lt : ∀ t, target p = some t → t < N
  pid_ne : ∀ pid, waitingFor p = some pid → pid ≠ 0
  /-- `wait_target` is in place when the state is about to be published. -/
  published : ∀ pid t, p = .waitBlock pid t → (s.procs i).waitTarget = pid
  /-- Only a process in its wait loop is blocked. -/
  blocked_pc : (s.procs i).state = .blocked → mayBlock p
  /-- What a waiter is cleaning up is gone, and is not running. -/
  reaped : ∀ t, reaping p = some t → Gone (s.procs t) ∧ t ≠ s.current
  /-- Only the shell terminates processes, and never itself. -/
  shell : terminating p → i = 0
  victim_ne : ∀ t, p = .termKill t → t ≠ 0

structure Inv (N : Nat) (s : Sys) : Prop where
  current_lt : s.current < N
  kernel : (s.procs 0).pid = 0
  point : ∀ i < N, Point N s i (s.pc i)
  /-- A blocked process waits for a live process that has not terminated. -/
  waits : ∀ i < N, (s.procs i).state = .blocked →
    (s.procs i).waitTarget ≠ 0 ∧ Live N s.procs (s.procs i).waitTarget ∧
      ¬ Ended N s.procs (s.procs i).waitTarget
  /-- The running process is alive, or spins at the end of `process_exit`. -/
  alive : ¬ Gone (s.procs s.current) ∨ s.pc s.current = .spin

variable {N : Nat} {s : Sys}

/-- Outside the modelled functions only the state matters. -/
theorem Point.out (hb : (s.procs i).state ≠ .blocked) : Point N s i .out :=
  ⟨nofun, nofun, nofun, fun h => absurd h hb, nofun, nofun, nofun⟩

/-- The initial states meet the invariant. -/
theorem Init.inv (h : Init N s) : Inv N s := by
  refine ⟨h.current_lt, h.kernel, ?_, ?_, Or.inl (by simp [Gone, h.running])⟩
  · intro i hi
    rw [h.outside i]
    exact Point.out (h.noneBlocked i hi)
  · intro i hi hb
    exact absurd hb (h.noneBlocked i hi)

/-! ## Moving the program counter -/

/-- A move of the current process that changes no record. -/
theorem Inv.goto (h : Inv N s) (hp : Point N s s.current p)
    (ha : ¬ Gone (s.procs s.current) ∨ p = .spin) : Inv N (s.goto p) := by
  have hsame : (s.goto p).pc s.current = p := upd_same s.pc s.current p
  refine ⟨h.current_lt, h.kernel, ?_, h.waits, ha.imp id hsame.trans⟩
  intro i hi
  by_cases hc : i = s.current
  · rw [hc, hsame]
    exact ⟨hp.1, hp.2, hp.3, hp.4, hp.5, hp.6, hp.7⟩
  · rw [show (s.goto p).pc i = s.pc i from upd_other s.pc p hc]
    obtain ⟨h1, h2, h3, h4, h5, h6, h7⟩ := h.point i hi
    exact ⟨h1, h2, h3, h4, h5, h6, h7⟩

/-- Outside its wait loop a process is not blocked. -/
theorem Inv.not_blocked (h : Inv N s) (hi : i < N) (hp : s.pc i = p) (hm : mayBlock p = false) :
    (s.procs i).state ≠ .blocked := by
  intro hb
  cases hm.symm.trans (hp ▸ (h.point i hi).blocked_pc hb)

/-- What is known at the program point of the running process. -/
theorem Inv.here (h : Inv N s) (hp : s.pc s.current = p) : Point N s s.current p :=
  hp ▸ h.point _ h.current_lt

theorem Inv.not_gone (h : Inv N s) (hp : s.pc s.current = p) (hspin : p ≠ .spin) :
    ¬ Gone (s.procs s.current) :=
  h.alive.resolve_right (hp ▸ hspin)

/-! ## Changing the records -/

/-- A change of the records, judged by its effect on the blocked processes, on
    those that are being cleaned up and on the running one. -/
theorem Inv.withProcs (h : Inv N s) (hk : (f 0).pid = 0)
    (hp : ∀ i < N, ∀ pid t, s.pc i = .waitBlock pid t → (f i).waitTarget = pid)
    (hb : ∀ i < N, (f i).state = .blocked → mayBlock (s.pc i) ∧ (f i).waitTarget ≠ 0 ∧
      Live N f (f i).waitTarget ∧
      ¬ Ended N f (f i).waitTarget) (hr : ∀ i < N, ∀ t, reaping (s.pc i) = some t → Gone (f t))
    (ha : ¬ Gone (f s.current) ∨ s.pc s.current = .spin) : Inv N { s with procs := f } := by
  refine ⟨h.current_lt, hk, ?_, fun i hi hbi => (hb i hi hbi).2, ha⟩
  intro i hi
  obtain ⟨h1, h2, -, -, h5, h6, h7⟩ := h.point i hi
  exact ⟨h1, h2, hp i hi, fun hbi => (hb i hi hbi).1,
    fun t ht => ⟨hr i hi t ht, (h5 t ht).2⟩, h6, h7⟩

/-- The pid stays and nobody ends or goes away. -/
structure Kept (p q : Proc) : Prop where
  pid : q.pid = p.pid
  ended : q.state = .terminated ↔ p.state = .terminated
  unused : q.state = .unused ↔ p.state = .unused

namespace Kept

theorem refl (p : Proc) : Kept p p := ⟨rfl, Iff.rfl, Iff.rfl⟩

theorem gone {p : Proc} (h : Kept p q) : Gone q ↔ Gone p := or_congr h.ended h.unused

/-- A process that is not gone before and after is kept. -/
theorem of_not_gone {p : Proc} (hp : ¬ Gone p) (hpid : q.pid = p.pid) (hq : ¬ Gone q) : Kept p q :=
  ⟨hpid, iff_of_false (fun h => hq (.inl h)) (fun h => hp (.inl h)),
    iff_of_false (fun h => hq (.inr h)) (fun h => hp (.inr h))⟩

theorem live (h : ∀ j, Kept (s.procs j) (f j)) : Live N f pid ↔ Live N s.procs pid :=
  exists_congr fun j => and_congr_right fun _ =>
    and_congr (not_congr (h j).unused) (by rw [(h j).pid])

theorem ended_iff (h : ∀ j, Kept (s.procs j) (f j)) : Ended N f pid ↔ Ended N s.procs pid :=
  exists_congr fun j => and_congr_right fun _ => and_congr (h j).ended (by rw [(h j).pid])

/-- One record changed. -/
theorem upd (h : Kept (s.procs k) q) (j : Nat) : Kept (s.procs j) (Process.upd s.procs k q j) := by
  by_cases hj : j = k
  · subst hj
    rw [upd_same]
    exact h
  · rw [upd_other _ _ hj]
    exact refl _

end Kept

/-- A process that is blocked after the change was so before, for the same
    target. -/
def NotBlocked (p q : Proc) : Prop :=
  q.state = .blocked → p.state = .blocked ∧ q.waitTarget = p.waitTarget

/-- A change under which every record is kept and nobody becomes blocked keeps
    the invariant. -/
theorem Inv.calm (h : Inv N s) (hf : ∀ j, Kept (s.procs j) (f j))
    (hb : ∀ j, NotBlocked (s.procs j) (f j))
    (hp : ∀ i < N, ∀ pid t, s.pc i = .waitBlock pid t → (f i).waitTarget = pid) :
    Inv N { s with procs := f } := by
  refine h.withProcs ((hf 0).pid.trans h.kernel) hp ?_ ?_ ?_
  · intro i hi hbi
    obtain ⟨hb', hw⟩ := hb i hbi
    obtain ⟨hne, hl, he⟩ := h.waits i hi hb'
    rw [hw]
    exact ⟨(h.point i hi).blocked_pc hb', hne, (Kept.live hf).mpr hl, mt (Kept.ended_iff hf).mp he⟩
  · intro i hi t ht
    exact (hf t).gone.mpr ((h.point i hi).reaped t ht).1
  · exact h.alive.imp_left (mt (hf _).gone.mp)

/-- The same for one record. -/
theorem Inv.setProc (h : Inv N s) (hq : Kept (s.procs k) q) (hb : NotBlocked (s.procs k) q)
    (hp : ∀ pid t, s.pc k = .waitBlock pid t → q.waitTarget = pid) : Inv N (s.setProc k q) := by
  refine h.calm (Kept.upd hq) ?_ ?_
  · intro j
    by_cases hj : j = k
    · subst hj
      rw [upd_same]
      exact hb
    · rw [upd_other _ _ hj]
      exact fun hbj => ⟨hbj, rfl⟩
  · intro i hi pid t hpi
    by_cases hk : i = k
    · subst hk
      rw [upd_same]
      exact hp pid t hpi
    · rw [upd_other _ _ hk]
      exact (h.point i hi).published pid t hpi

/-- The store of a state that is neither final nor blocked to a process that is
    not gone. -/
theorem Inv.setState (h : Inv N s) {st : PState} (hkN : k < N) (hk : ¬ Gone (s.procs k))
    (hst : st = .ready ∨ st = .running ∨ st = .sleeping) : Inv N (s.setState k st) := by
  refine h.setProc (Kept.of_not_gone hk rfl ?_) ?_ (h.point k hkN).published
  · rcases hst with rfl | rfl | rfl <;> simp [Gone]
  · rcases hst with rfl | rfl | rfl <;> exact nofun

/-! ## The stores that publish, end or clean up -/

/-- `current_process->state = PROC_BLOCKED`, under the condition. -/
theorem Inv.publish (h : Inv N s) (hpc : s.pc s.current = .waitBlock pid t)
    (hlive : Live N s.procs pid) (hend : ¬ Ended N s.procs pid) :
    Inv N ((s.setState s.current .blocked).goto (.waitLoop t)) := by
  have hnot := h.not_gone hpc nofun
  have hpid : pid ≠ 0 := (h.here hpc).pid_ne pid rfl
  have hwt : (s.procs s.current).waitTarget = pid := (h.here hpc).published pid t rfl
  have ht : t < N := (h.here hpc).target_lt t rfl
  -- the program counter moves first: at the loop the process may be blocked
  have h' : Inv N (s.goto (.waitLoop t)) :=
    h.goto ⟨fun u hu => by cases hu; exact ht, nofun, nofun, fun _ => rfl, nofun, nofun, nofun⟩
      (.inl hnot)
  have hloop : (s.goto (.waitLoop t)).pc s.current = .waitLoop t := upd_same _ _ _
  let f := upd s.procs s.current { s.procs s.current with state := .blocked }
  have hme : f s.current = { s.procs s.current with state := .blocked } := upd_same _ _ _
  have hrest : ∀ {i : Nat}, i ≠ s.current → f i = s.procs i := fun hi => upd_other _ _ hi
  have hkept : ∀ j, Kept (s.procs j) (f j) :=
    Kept.upd (Kept.of_not_gone hnot rfl (by simp [Gone]))
  show Inv N { s.goto (.waitLoop t) with procs := f }
  refine h'.withProcs ((hkept 0).pid.trans h.kernel) ?_ ?_ ?_ ?_
  · intro i hi p u hpi
    by_cases hi' : i = s.current
    · rw [hi', hloop] at hpi
      exact Pc.noConfusion hpi
    · rw [hrest hi']
      exact (h'.point i hi).published p u hpi
  · intro i hi hbi
    by_cases hi' : i = s.current
    · rw [hi', hme, hloop]
      refine ⟨rfl, hwt ▸ hpid, (Kept.live hkept).mpr ?_, mt (Kept.ended_iff hkept).mp ?_⟩
      · exact hwt.symm ▸ hlive
      · exact hwt.symm ▸ hend
    · rw [hrest hi'] at hbi ⊢
      obtain ⟨hne, hl, he⟩ := h.waits i hi hbi
      exact ⟨(h'.point i hi).blocked_pc hbi, hne, (Kept.live hkept).mpr hl,
        mt (Kept.ended_iff hkept).mp he⟩
  · intro i hi u hu
    exact (hkept u).gone.mpr ((h'.point i hi).reaped u hu).1
  · exact .inl (mt (hkept _).gone.mp hnot)

theorem exitWake_of_not_blocked {p : Proc} (h : p.state ≠ .blocked) :
    exitWake pid p = p := if_neg fun hc => h hc.1

/-- Who is still blocked after `process_exit`'s sweep waits for another pid. -/
theorem exitWake_blocked {p : Proc} (h : (exitWake pid p).state = .blocked) :
    exitWake pid p = p ∧ p.waitTarget ≠ pid := by
  by_cases hc : p.state = .blocked ∧ (p.waitTarget = 0 ∨ p.waitTarget = pid)
  · rw [exitWake, if_pos hc] at h
    exact PState.noConfusion h
  · rw [exitWake, if_neg hc] at h ⊢
    exact ⟨rfl, fun hw => hc ⟨h, .inr hw⟩⟩

/-- The sweep neither ends nor frees anybody. -/
theorem exitWake_kept (pid : Nat) (p : Proc) : Kept p (exitWake pid p) := by
  by_cases hb : p.state = .blocked ∧ (p.waitTarget = 0 ∨ p.waitTarget = pid)
  · rw [exitWake, if_pos hb]
    exact Kept.of_not_gone (by simp [Gone, hb.1]) rfl (by simp [Gone])
  · rw [exitWake, if_neg hb]
    exact Kept.refl p

/-- The `cli … sti` section of `process_exit`: whoever waits for the caller is
    woken in the same step. -/
theorem Inv.exitSection (h : Inv N s) {code : Int} (hpc : s.pc s.current = .exit code) :
    Inv N ((Process.exitSection N s code).goto .spin) := by
  have hlt := h.current_lt
  have hnot := h.not_gone hpc nofun
  have hnb := h.not_blocked hlt hpc rfl
  have h' : Inv N (s.goto .spin) :=
    h.goto ⟨nofun, nofun, nofun, fun hb => absurd hb hnb, nofun, nofun, nofun⟩ (.inr rfl)
  let f := (Process.exitSection N s code).procs
  let dead : Proc := { s.procs s.current with state := .terminated, exitCode := code }
  have hme : f s.current = dead := by
    have : f s.current = exitWake (s.procs s.current).pid dead := by
      simp [f, dead, Process.exitSection, Sys.mapProcs, Sys.setProc, hlt]
    rw [this, exitWake_of_not_blocked (by simp [dead])]
  have hrest : ∀ {i : Nat}, i < N → i ≠ s.current →
      f i = exitWake (s.procs s.current).pid (s.procs i) := by
    intro i hi hic
    simp [f, Process.exitSection, Sys.mapProcs, Sys.setProc, hi, upd_other _ _ hic]
  have hpid : ∀ {i : Nat}, i < N → (f i).pid = (s.procs i).pid := by
    intro i hi
    by_cases hic : i = s.current
    · rw [hic, hme]
    · rw [hrest hi hic, (exitWake_kept _ _).pid]
  -- the section frees no slot, and ends nobody but the caller
  have hlive : ∀ {q : Nat}, Live N s.procs q → Live N f q := by
    rintro q ⟨j, hj, hu, hq⟩
    refine ⟨j, hj, ?_, (hpid hj).trans hq⟩
    by_cases hjc : j = s.current
    · simp [hjc, hme, dead]
    · rw [hrest hj hjc]
      exact mt (exitWake_kept _ _).unused.mp hu
  have hend : ∀ {q : Nat}, Ended N f q →
      Ended N s.procs q ∨ q = (s.procs s.current).pid := by
    rintro q ⟨j, hj, hu, hq⟩
    by_cases hjc : j = s.current
    · exact .inr (by rw [← hq, ← hjc]; exact hpid hj)
    · rw [hrest hj hjc] at hu
      exact .inl ⟨j, hj, (exitWake_kept _ _).ended.mp hu, (hpid hj).symm.trans hq⟩
  show Inv N { s.goto .spin with procs := f }
  refine h'.withProcs ((hpid (Nat.zero_lt_of_lt hlt)).trans h.kernel) ?_ ?_ ?_
    (.inr (upd_same _ _ _))
  · intro i hi pid t hpi
    have hic : i ≠ s.current := by
      rintro rfl
      rw [show (s.goto .spin).pc s.current = .spin from upd_same _ _ _] at hpi
      exact Pc.noConfusion hpi
    have hb : (s.procs i).state ≠ .blocked := h'.not_blocked hi hpi rfl
    rw [hrest hi hic, exitWake_of_not_blocked hb]
    exact (h'.point i hi).published pid t hpi
  · intro i hi hb
    have hic : i ≠ s.current := by
      rintro rfl
      rw [hme] at hb
      exact PState.noConfusion hb
    rw [hrest hi hic] at hb
    obtain ⟨heq, hw⟩ := exitWake_blocked hb
    rw [heq] at hb
    obtain ⟨hne, hl, he⟩ := h.waits i hi hb
    rw [hrest hi hic, heq]
    exact ⟨(h'.point i hi).blocked_pc hb, hne, hlive hl, fun hc => (hend hc).elim he hw⟩
  · intro i hi t ht
    obtain ⟨hg, htc⟩ := (h'.point i hi).reaped t ht
    rw [hrest ((h'.point i hi).target_lt t (target_of_reaping ht)) htc]
    exact (exitWake_kept _ _).gone.mpr hg

theorem termWake_not_blocked (p : Proc) : (termWake p).state ≠ .blocked := by
  by_cases hb : p.state = .blocked
  · simp [termWake, hb]
  · rwa [termWake, if_neg hb]

theorem termWake_eq (p : Proc) : (termWake p).pid = p.pid ∧ (termWake p).waitTarget = p.waitTarget ∧
      (Gone (termWake p) ↔ Gone p) := by
  by_cases hb : p.state = .blocked <;> simp [termWake, hb, Gone]

/-- The `cli … sti` section of `process_terminate`: everybody who waits is
    woken. -/
theorem Inv.termSection (h : Inv N s) (htc : t ≠ s.current) (hpc : s.pc s.current ≠ .spin) :
    Inv N (Process.termSection N s t) := by
  have hlt := h.current_lt
  let f := (Process.termSection N s t).procs
  have hf : ∀ {i : Nat}, i < N →
      f i = termWake (upd s.procs t { s.procs t with state := .terminated } i) := by
    intro i hi
    simp [f, Process.termSection, Sys.mapProcs, Sys.setState, Sys.setProc, hi]
  have hrest : ∀ {i : Nat}, i < N → i ≠ t → f i = termWake (s.procs i) := by
    intro i hi hit
    rw [hf hi, upd_other _ _ hit]
  have hsame : ∀ {i : Nat}, i < N →
      (f i).pid = (s.procs i).pid ∧ (f i).waitTarget = (s.procs i).waitTarget := by
    intro i hi
    by_cases hit : i = t
    · subst hit
      rw [hf hi, upd_same, (termWake_eq _).1, (termWake_eq _).2.1]
      exact ⟨rfl, rfl⟩
    · rw [hrest hi hit, (termWake_eq _).1, (termWake_eq _).2.1]
      exact ⟨rfl, rfl⟩
  show Inv N { s with procs := f }
  refine h.withProcs ((hsame (Nat.zero_lt_of_lt hlt)).1.trans h.kernel) ?_ ?_ ?_ (.inl ?_)
  · intro i hi pid u hpi
    rw [(hsame hi).2]
    exact (h.point i hi).published pid u hpi
  · intro i hi hb
    rw [hf hi] at hb
    exact absurd hb (termWake_not_blocked _)
  · intro i hi u hu
    have hul := (h.point i hi).target_lt u (target_of_reaping hu)
    by_cases hut : u = t
    · subst hut
      rw [hf hul, upd_same, (termWake_eq _).2.2]
      exact .inl rfl
    · rw [hrest hul hut, (termWake_eq _).2.2]
      exact ((h.point i hi).reaped u hu).1
  · rw [hrest hlt (Ne.symm htc), (termWake_eq _).2.2]
    exact h.alive.resolve_right hpc

/-- The stores that free the slot of a process that is gone: whoever is blocked
    waits for somebody else. -/
theorem Inv.free (h : Inv N s) (hg : Gone (s.procs t)) (htc : t ≠ s.current)
    (hpc : s.pc s.current ≠ .spin) (hq : Gone q) (hpid : q.pid = 0 ∨ q.pid = (s.procs t).pid)
    (hend : q.state = .terminated → (s.procs t).state = .terminated)
    (hwt : q.waitTarget = (s.procs t).waitTarget) : Inv N (s.setProc t q) := by
  have hrest : ∀ {i : Nat}, i ≠ t → upd s.procs t q i = s.procs i := fun hi => upd_other _ _ hi
  show Inv N { s with procs := upd s.procs t q }
  refine h.withProcs ?_ ?_ ?_ ?_ (.inl ?_)
  · by_cases ht : 0 = t
    · subst ht
      rw [upd_same]
      exact hpid.elim id (·.trans h.kernel)
    · rw [hrest ht]
      exact h.kernel
  · intro i hi pid u hpi
    by_cases hit : i = t
    · subst hit
      rw [upd_same, hwt]
      exact (h.point i hi).published pid u hpi
    · rw [hrest hit]
      exact (h.point i hi).published pid u hpi
  · intro i hi hb
    have hit : i ≠ t := by
      rintro rfl
      rw [upd_same] at hb
      simp [Gone, hb] at hq
    rw [hrest hit] at hb ⊢
    obtain ⟨hne, ⟨j, hj, hju, hjp⟩, he⟩ := h.waits i hi hb
    -- the live process is not the freed one: that has ended
    have hjt : j ≠ t := by
      rintro rfl
      exact he ⟨j, hj, hg.resolve_right hju, hjp⟩
    refine ⟨(h.point i hi).blocked_pc hb, hne, ⟨j, hj, ?_⟩, ?_⟩
    · rw [hrest hjt]
      exact ⟨hju, hjp⟩
    · rintro ⟨k, hk, hke, hkp⟩
      by_cases hkt : k = t
      · subst hkt
        rw [upd_same] at hke hkp
        rcases hpid with h0 | h1
        · exact hne (hkp.symm.trans h0)
        · exact he ⟨k, hk, hend hke, h1.symm.trans hkp⟩
      · rw [hrest hkt] at hke hkp
        exact he ⟨k, hk, hke, hkp⟩
  · intro i hi u hu
    by_cases hut : u = t
    · subst hut
      rw [upd_same]
      exact hq
    · rw [hrest hut]
      exact ((h.point i hi).reaped u hu).1
  · rw [hrest (Ne.symm htc)]
    exact h.alive.resolve_right hpc

/-! ## The timer tick -/

/-- The invariant does not look at the timer. -/
theorem Inv.timer (h : Inv N s) (ticks left : Nat) :
    Inv N { s with ticks := ticks, ticksRemaining := left } :=
  ⟨h.current_lt, h.kernel, fun i hi =>
    have p := h.point i hi
    ⟨p.1, p.2, p.3, p.4, p.5, p.6, p.7⟩, h.waits, h.alive⟩

theorem Inv.wakeSleepers (h : Inv N s) : Inv N (Process.wakeSleepers N s) := by
  refine h.calm (fun j => ?_) (fun j => ?_) (fun i hi pid t hpi => ?_)
  · dsimp only
    split
    · rename_i hc
      exact Kept.of_not_gone (by simp [Gone, hc.2.2.1]) rfl (by simp [Gone])
    · exact Kept.refl _
  · dsimp only
    split
    · exact nofun
    · exact fun hb => ⟨hb, rfl⟩
  · dsimp only
    split <;> exact (h.point i hi).published pid t hpi

/-- Dispatching a process that is not gone. -/
theorem Inv.dispatch (h : Inv N s) {next left : Nat} (hn : next < N) (hg : ¬ Gone (s.procs next)) :
    Inv N { s with current := next, ticksRemaining := left } := by
  refine ⟨hn, h.kernel, ?_, h.waits, .inl hg⟩
  intro i hi
  obtain ⟨h1, h2, h3, h4, h5, h6, h7⟩ := h.point i hi
  refine ⟨h1, h2, h3, h4, ?_, h6, h7⟩
  intro t ht
  obtain ⟨hgt, -⟩ := h5 t ht
  refine ⟨hgt, ?_⟩
  rintro rfl
  exact hg hgt

theorem Inv.switchProcess (h : Inv N s) : Inv N (Process.switchProcess N s) := by
  have hN : 0 < N := Nat.zero_lt_of_lt h.current_lt
  rw [Process.switchProcess]
  generalize hs₁ : (if (s.procs s.current).state = .running then s.setState s.current .ready
    else s) = s₁
  have h₁ : Inv N s₁ := by
    rw [← hs₁]
    split
    · rename_i hrun
      exact h.setState h.current_lt (by simp [Gone, hrun]) (.inl rfl)
    · exact h
  dsimp only
  split
  · split
    · rename_i hready
      exact h₁.setState h₁.current_lt (by simp [Gone, hready]) (.inr (.inl rfl))
    · exact h₁
  · rename_i next hnext
    obtain ⟨d, -, rfl, hready, -⟩ := findReady_spec hnext
    have hlt := Nat.mod_lt (s₁.current + d) hN
    refine (h₁.setState hlt (by simp [Gone, hready]) (.inr (.inl rfl))).dispatch hlt ?_
    simp [Gone, Sys.setState, Sys.setProc]

/-- A timer tick keeps the invariant. -/
theorem Inv.scheduleTick (h : Inv N s) : Inv N (Process.scheduleTick N s) := by
  have hw : Inv N (Process.wakeSleepers N { s with ticks := (s.ticks + 1) % 2 ^ 32 }) :=
    (h.timer _ s.ticksRemaining).wakeSleepers
  rw [Process.scheduleTick]
  generalize Process.wakeSleepers N { s with ticks := (s.ticks + 1) % 2 ^ 32 } = s₁ at hw
  dsimp only
  split
  · exact hw
  · split
    · exact hw.switchProcess
    · split
      · exact (hw.timer s₁.ticks timeQuantum).switchProcess
      · exact hw.timer s₁.ticks _

/-! ## One step, and every run -/

/-- A call moves the program counter of a process that is outside. -/
theorem Inv.call (h : Inv N s) (hpc : s.pc s.current = .out) {c : Call} (hc : c.allowed s) :
    Inv N (s.goto c.entry) := by
  have hnb := h.not_blocked h.current_lt hpc rfl
  refine h.goto ?_ (.inl (h.not_gone hpc nofun))
  cases c with
  | terminate pid =>
    have hz : s.current = 0 := by simpa [Call.allowed] using hc
    exact ⟨nofun, nofun, nofun, fun hb => absurd hb hnb, nofun, fun _ => hz, nofun⟩
  | waitpid | exit | sleep =>
    exact ⟨nofun, nofun, nofun, fun hb => absurd hb hnb, nofun, nofun, nofun⟩

variable {q : Pc}

/-- A waiter that has left its loop goes on to the next clean-up point. -/
theorem Point.reap (h : Point N s i p) (hp : reaping p = some t) (hq : reaping q = some t)
    (hb : (s.procs i).state = .blocked → mayBlock q) : Point N s i q := by
  have ht : ∀ u, reaping q = some u → u = t := fun u hu => Option.mem_unique hu hq
  refine ⟨?_, ?_, ?_, hb, ?_, ?_, ?_⟩
  · intro u hu
    rw [target_of_reaping hq] at hu
    exact h.target_lt u (target_of_reaping (hp.trans hu))
  · intro pid hw
    cases q <;> simp_all [reaping, waitingFor]
  · rintro pid u rfl
    simp [reaping] at hq
  · intro u hu
    exact ht u hu ▸ h.reaped t hp
  · intro hq'
    cases q <;> simp_all [reaping, terminating]
  · rintro u rfl
    simp [reaping] at hq

section Statements

variable (h : Inv N s)

include h

/-- A process outside its wait loop moves on without a store. -/
theorem Inv.move (hq : s.pc s.current = q) (hspin : q ≠ .spin) (hm : mayBlock q = false)
    (hp : (s.procs s.current).state ≠ .blocked → Point N s s.current p) : Inv N (s.goto p) :=
  h.goto (hp (h.not_blocked h.current_lt hq hm)) (.inl (h.not_gone hq hspin))

/-- A process outside its wait loop goes on, or leaves, without a target. -/
theorem Inv.leave (hq : s.pc s.current = q) (hspin : q ≠ .spin) (hm : mayBlock q = false) :
    Inv N (s.goto .out) :=
  h.move hq hspin hm Point.out

/-- A store of the current process to its own record, after which it is neither
    gone nor blocked, and a move. -/
theorem Inv.store {r : Proc} (hq : s.pc s.current = q) (hspin : q ≠ .spin)
    (hpub : ∀ pid t, q ≠ .waitBlock pid t) (hpid : r.pid = (s.procs s.current).pid) (hg : ¬ Gone r)
    (hb : r.state ≠ .blocked) (hp : Point N s s.current q → (∀ t, target p = some t → t < N) ∧
      (∀ pid, waitingFor p = some pid → pid ≠ 0) ∧ (∀ pid t, p = .waitBlock pid t → r.waitTarget =
      pid) ∧ (∀ t, reaping p = some t → Gone (s.procs t) ∧
      t ≠ s.current)) (hterm : terminating p = false) : Inv N ((s.setProc s.current r).goto p) := by
  have hme : (s.setProc s.current r).procs s.current = r := upd_same _ _ _
  have ha := h.not_gone hq hspin
  obtain ⟨ht, hw, hwb, hr⟩ := hp (h.here hq)
  have h₁ : Inv N (s.setProc s.current r) :=
    h.setProc (Kept.of_not_gone ha hpid hg) (fun hb' => absurd hb' hb)
      (fun pid t hpt => absurd (hq.symm.trans hpt) (hpub pid t))
  refine h₁.goto ⟨ht, hw, ?_, ?_, ?_, ?_, ?_⟩ (.inl (hme.symm ▸ hg))
  · intro pid t hpt
    exact (congrArg Proc.waitTarget hme).trans (hwb pid t hpt)
  · intro hb'
    exact absurd ((congrArg Proc.state hme).symm.trans hb') hb
  · intro t hrt
    obtain ⟨hgt, htc⟩ := hr t hrt
    have hother : (s.setProc s.current r).procs t = s.procs t := upd_other _ _ htc
    exact ⟨hother.symm ▸ hgt, htc⟩
  · intro h'
    rw [hterm] at h'
    exact Bool.noConfusion h'
  · rintro t rfl
    exact Bool.noConfusion hterm

/-- `process_get` in `process_waitpid`, and the tests after it. -/
theorem Inv.waitGet {noHang : Bool} (hpc : s.pc s.current = .waitGet pid noHang i) :
    Inv N (Process.statement N s) := by
  rw [Process.statement, hpc]
  dsimp only
  split
  · rename_i hi
    split
    · refine h.move hpc nofun rfl fun hb =>
        ⟨?_, nofun, nofun, fun h' => absurd h' hb, nofun, nofun, nofun⟩
      rintro t ⟨rfl⟩
      exact hi
    · exact h.move hpc nofun rfl fun hb =>
        ⟨nofun, nofun, nofun, fun h' => absurd h' hb, nofun, nofun, nofun⟩
  · exact h.leave hpc nofun rfl

theorem Inv.waitCheck {noHang : Bool} (hpc : s.pc s.current = .waitCheck pid noHang t) :
    Inv N (Process.statement N s) := by
  have ha := h.not_gone hpc nofun
  have ht : ∀ u, some t = some u → u < N := by
    rintro u ⟨rfl⟩
    exact (h.here hpc).target_lt t rfl
  rw [Process.statement, hpc]
  dsimp only
  split
  · exact h.leave hpc nofun rfl
  · rename_i hpid
    split
    · split
      · exact h.leave hpc nofun rfl
      · -- a zombie is reaped at once; it is not the caller, who is alive
        rename_i hend
        have hend : (s.procs t).state = .terminated := not_not.mp hend
        refine h.move hpc nofun rfl fun hb =>
          ⟨ht, nofun, nofun, fun h' => absurd h' hb, ?_, nofun, nofun⟩
        rintro u ⟨rfl⟩
        refine ⟨.inl hend, ?_⟩
        rintro rfl
        exact ha (.inl hend)
    · refine h.move hpc nofun rfl fun hb =>
        ⟨ht, ?_, nofun, fun h' => absurd h' hb, nofun, nofun, nofun⟩
      rintro q ⟨rfl⟩
      exact fun hz => hpid (.inr hz)

/-- Leaving the wait loop: the target is gone, and the caller is not. -/
theorem Inv.waitLoop (hpc : s.pc s.current = .waitLoop t) : Inv N (Process.statement N s) := by
  have ha := h.not_gone hpc nofun
  rw [Process.statement, hpc]
  dsimp only
  split
  · exact h
  · rename_i hout
    have hg : Gone (s.procs t) := by
      by_contra hg
      exact hout ⟨fun h' => hg (.inl h'), fun h' => hg (.inr h')⟩
    refine h.goto ⟨?_, nofun, nofun, fun _ => rfl, ?_, nofun, nofun⟩ (.inl ha)
    · rintro u ⟨rfl⟩
      exact (h.here hpc).target_lt t rfl
    · rintro u ⟨rfl⟩
      refine ⟨hg, ?_⟩
      rintro rfl
      exact ha hg

/-- One statement keeps the invariant, if it publishes only what is alive. -/
theorem Inv.statement (hc : PublishesAlive N s .run) : Inv N (Process.statement N s) := by
  have hlt := h.current_lt
  cases hpc : s.pc s.current with
  | waitGet pid noHang i => exact h.waitGet hpc
  | waitCheck pid noHang t => exact h.waitCheck hpc
  | waitLoop t => exact h.waitLoop hpc
  | waitBlock pid t =>
    rw [PublishesAlive, hpc] at hc
    obtain ⟨hl, he⟩ := hc
    rw [Process.statement, hpc]
    exact h.publish hpc hl he
  | waitTarget pid t =>
    have hb := h.not_blocked hlt hpc rfl
    have ha := h.not_gone hpc nofun
    rw [Process.statement, hpc]
    refine h.store hpc nofun nofun rfl ha hb (fun hp => ⟨?_, ?_, ?_, nofun⟩) rfl
    · exact fun u hu => hp.target_lt u hu
    · exact fun q hq => hp.pid_ne q hq
    · rintro q u ⟨rfl, rfl⟩
      rfl
  | waitRunning t =>
    rw [Process.statement, hpc]
    exact h.store hpc nofun nofun rfl (by simp [Gone]) nofun
      (fun hp => ⟨fun u hu => hp.target_lt u hu, nofun, nofun, fun u hu => hp.reaped u hu⟩) rfl
  | waitClear t =>
    have hb := h.not_blocked hlt hpc rfl
    have ha := h.not_gone hpc nofun
    rw [Process.statement, hpc]
    exact h.store hpc nofun nofun rfl ha hb
      (fun hp => ⟨fun u hu => hp.target_lt u hu, nofun, nofun, fun u hu => hp.reaped u hu⟩) rfl
  | waitStatus t =>
    rw [Process.statement, hpc]
    dsimp only
    split
    · exact h.leave hpc nofun rfl
    · exact h.move hpc nofun rfl fun hb =>
        Point.reap (h.here hpc) rfl rfl (fun h' => absurd h' hb)
  | waitCleanup t =>
    rw [Process.statement, hpc]
    exact h.move hpc nofun rfl fun hb =>
      Point.reap (h.here hpc) rfl rfl (fun h' => absurd h' hb)
  | waitUnused t =>
    obtain ⟨hg, htc⟩ := (h.here hpc).reaped t rfl
    have h₁ : Inv N (s.setState t .unused) :=
      h.free hg htc (hpc ▸ nofun) (.inr rfl) (.inr rfl) nofun rfl
    have hpc₁ : (s.setState t .unused).pc s.current = .waitUnused t := hpc
    rw [Process.statement, hpc]
    exact h₁.move hpc₁ nofun rfl fun hb =>
      Point.reap (h₁.here hpc₁) rfl rfl (fun h' => absurd h' hb)
  | waitPid t =>
    obtain ⟨hg, htc⟩ := (h.here hpc).reaped t rfl
    have h₁ : Inv N (s.setProc t { s.procs t with pid := 0 }) :=
      h.free hg htc (hpc ▸ nofun) hg (.inl rfl) id rfl
    rw [Process.statement, hpc]
    exact h₁.leave hpc nofun rfl
  | exit code =>
    rw [Process.statement, hpc]
    dsimp only
    split
    · exact h.leave hpc nofun rfl
    · exact h.exitSection hpc
  | out | spin =>
    rw [Process.statement, hpc]
    exact h
  | sleepTick ticks =>
    have hb := h.not_blocked hlt hpc rfl
    have ha := h.not_gone hpc nofun
    rw [Process.statement, hpc]
    dsimp only
    split
    · exact h.leave hpc nofun rfl
    · exact h.store hpc nofun nofun rfl ha hb (fun _ => ⟨nofun, nofun, nofun, nofun⟩) rfl
  | sleepState =>
    rw [Process.statement, hpc]
    exact h.store hpc nofun nofun rfl (by simp [Gone]) nofun
      (fun _ => ⟨nofun, nofun, nofun, nofun⟩) rfl
  | sleepLoop =>
    rw [Process.statement, hpc]
    dsimp only
    split
    · exact h
    · exact h.leave hpc nofun rfl
  | termGet pid i =>
    have hshell : s.current = 0 := (h.here hpc).shell rfl
    rw [Process.statement, hpc]
    dsimp only
    split
    · rename_i hi
      split
      · refine h.move hpc nofun rfl fun hb =>
          ⟨?_, nofun, nofun, fun h' => absurd h' hb, nofun, fun _ => hshell, nofun⟩
        rintro t ⟨rfl⟩
        exact hi
      · exact h.move hpc nofun rfl fun hb =>
          ⟨nofun, nofun, nofun, fun h' => absurd h' hb, nofun, fun _ => hshell, nofun⟩
    · exact h.leave hpc nofun rfl
  | termCheck t =>
    have hshell : s.current = 0 := (h.here hpc).shell rfl
    rw [Process.statement, hpc]
    dsimp only
    split
    · exact h.leave hpc nofun rfl
    · rename_i hpid
      refine h.move hpc nofun rfl fun hb =>
        ⟨?_, nofun, nofun, fun h' => absurd h' hb, nofun, fun _ => hshell, ?_⟩
      · rintro u ⟨rfl⟩
        exact (h.here hpc).target_lt t rfl
      · -- slot 0 has pid 0 and fails the test
        rintro u ⟨rfl⟩ rfl
        exact hpid h.kernel
  | termKill t =>
    have hshell : s.current = 0 := (h.here hpc).shell rfl
    have htc : t ≠ s.current := hshell ▸ (h.here hpc).victim_ne t rfl
    rw [Process.statement, hpc]
    exact (h.termSection htc (hpc ▸ nofun)).leave hpc nofun rfl

end Statements

/-- Every step under the condition keeps the invariant. -/
theorem inv_step {l : Label} {s' : Sys} (h : Inv N s) (hc : PublishesAlive N s l)
    (hs : step N s l = some s') : Inv N s' := by
  cases l with
  | call c =>
    rw [step] at hs
    split at hs
    · rename_i hcall
      cases hs
      exact h.call hcall.1 hcall.2
    · cases hs
  | run =>
    cases hs
    exact h.statement hc
  | tick =>
    cases hs
    exact h.scheduleTick

/-- Under the invariant no process is stuck. -/
theorem Inv.not_lostWakeup (h : Inv N s) : ¬ LostWakeup N s := by
  rintro ⟨i, hi, hb, -, hlost⟩
  obtain ⟨-, hl, he⟩ := h.waits i hi hb
  rcases hlost with hend | hgone
  · exact he hend
  · exact hgone hl

/-- **No lost wake-up, if every publication is in time.**  For any number of
    processes, in every state of every run whose steps store `PROC_BLOCKED` only
    while the process waited for is live and not terminated, nobody is blocked
    and switched out with a target that is terminated or gone. -/
theorem no_lost_wakeup (N : Nat) {s s' : Sys} {ls : List Label} (h : Init N s)
    (hrun : Steps (step N) (PublishesAlive N) s ls s') : ¬ LostWakeup N s' :=
  (hrun.invariant (fun _ _ _ => inv_step) h.inv).not_lostWakeup

/-! ## The race -/

/-- The shell runs; processes 1 and 2 are ready. -/
def raceStart : Sys where
  procs i :=
    { pid := if i ≤ 2 then i else 0
      state := if i = 0 then .running else if i ≤ 2 then .ready else .unused
      waitTarget := 0, wakeTick := 0, exitCode := 0 }
  pc _ := .out
  current := 0
  ticks := 0
  ticksRemaining := 1
  schedulingEnabled := true

theorem raceStart_init : Init maxProcesses raceStart :=
  ⟨by decide, rfl, fun _ => rfl, by decide, rfl⟩

/-- The shell looks process 1 up and is switched out; process 1 exits and sweeps,
    finding nobody blocked; process 2 runs for its quantum; the shell publishes
    `PROC_BLOCKED` and is switched out before it tests its target. -/
def raceRun : List Label :=
  [.call (.waitpid 1 false), .run, .run, .run, .tick, .call (.exit 0), .run, .tick,
    .tick, .tick, .tick, .tick, .tick, .run, .run, .tick]

/-- **The lost wake-up.** -/
theorem waitpid_loses_wakeup : ∃ s', Init maxProcesses raceStart ∧
      Steps (step maxProcesses) Any raceStart raceRun s' ∧ LostWakeup maxProcesses s' :=
  ⟨(runWhile (step maxProcesses) Any raceStart raceRun).get (by decide), raceStart_init,
    steps_of_runWhile (by simp), by decide⟩

/-- The shell publishes `PROC_BLOCKED` before it is switched out, and process 1
    exits and sweeps. -/
def inTimeRun : List Label :=
  [.call (.waitpid 1 false), .run, .run, .run, .run, .run, .tick, .call (.exit 0), .run, .tick]

theorem no_lost_wakeup_inTime :
    ∃ s', Steps (step maxProcesses) (PublishesAlive maxProcesses) raceStart inTimeRun s' ∧
      ¬ LostWakeup maxProcesses s' := by
  have hrun : Steps (step maxProcesses) (PublishesAlive maxProcesses) raceStart inTimeRun
      ((runWhile (step maxProcesses) (PublishesAlive maxProcesses) raceStart inTimeRun).get
        (by decide)) := steps_of_runWhile (by simp)
  exact ⟨_, hrun, no_lost_wakeup maxProcesses raceStart_init hrun⟩

end WakeUp
