import Mathlib.Tactic

/-! # Sector programs — block device I/O as a command tree

    A driver that talks to a disk only through "read this sector" and "write
    this sector" is a tree of such commands: at a read the tree branches on the
    sector that came back (or on the failure), at a write on whether it
    succeeded.  The driver is then ONE term, and what it does is a matter of how
    the tree is run.

    The disk itself is a flat byte array; sector `lba` is bytes
    `512 * lba … 512 * lba + 511`.  `run ok` runs a tree against a disk whose
    sectors fail exactly where `ok` says so, `exec` against one on which no
    access fails. -/

namespace BlockIO

variable {a : Nat} {c : Prop}

/-- Bytes of one sector. -/
def sectorSize : Nat := 512

/-- A sector buffer; only the first `sectorSize` cells are ever transferred. -/
abbrev Sector := Nat → UInt8

/-- Two buffers that a transfer of one sector cannot tell apart. -/
def SameBytes (s t : Sector) : Prop := ∀ b, b < sectorSize → s b = t b

/-- A disk image, byte by byte. -/
abbrev Disk := Nat → UInt8

/-- The sector at `lba`, as a read transfers it. -/
def Disk.sector (d : Disk) (lba : Nat) : Sector :=
  fun i => d (sectorSize * lba + i)

/-- The disk after a write of `s` to `lba`. -/
def Disk.store (d : Disk) (lba : Nat) (s : Sector) : Disk :=
  fun a => if a / sectorSize = lba then s (a % sectorSize) else d a

/-- A program of sector commands returning an `α`. -/
inductive BlockM (α : Type) where
  | done (a : α) : BlockM α
  | read (lba : Nat) (k : Option Sector → BlockM α) : BlockM α
  | write (lba : Nat) (s : Sector) (k : Bool → BlockM α) : BlockM α

namespace BlockM

variable {α β : Type}

/-- Sequencing: graft the continuation onto every leaf. -/
def bind : BlockM α → (α → BlockM β) → BlockM β
  | .done a, f => f a
  | .read lba k, f => .read lba (fun r => bind (k r) f)
  | .write lba s k, f => .write lba s (fun r => bind (k r) f)

instance : Monad BlockM where
  pure := .done
  bind := bind

theorem bind_done (p : BlockM α) : bind p .done = p := by
  induction p with
  | done a => rfl
  | read lba k ih => exact congrArg (BlockM.read lba) (funext ih)
  | write lba s k ih => exact congrArg (BlockM.write lba s) (funext ih)

theorem bind_bind {γ : Type} (p : BlockM α) (f : α → BlockM β) (g : β → BlockM γ) :
    bind (bind p f) g = bind p fun a => bind (f a) g := by
  induction p with
  | done a => rfl
  | read lba k ih => exact congrArg (BlockM.read lba) (funext ih)
  | write lba s k ih => exact congrArg (BlockM.write lba s) (funext ih)

instance : LawfulMonad BlockM :=
  LawfulMonad.mk' BlockM bind_done (fun _ _ => rfl) bind_bind

/-- Run a program on a disk whose sector `lba` can be accessed iff `ok lba`. -/
def run (ok : Nat → Bool) : BlockM α → Disk → α × Disk
  | .done a, d => (a, d)
  | .read lba k, d =>
    if ok lba then run ok (k (some (d.sector lba))) d else run ok (k none) d
  | .write lba s k, d =>
    if ok lba then run ok (k true) (d.store lba s) else run ok (k false) d

/-- The sectors a program writes, in order. -/
def written (ok : Nat → Bool) : BlockM α → Disk → List Nat
  | .done _, _ => []
  | .read lba k, d =>
    if ok lba then written ok (k (some (d.sector lba))) d else written ok (k none) d
  | .write lba s k, d =>
    if ok lba then lba :: written ok (k true) (d.store lba s) else written ok (k false) d

/-- The sectors a program tries to read or write, in order. -/
def accessed (ok : Nat → Bool) : BlockM α → Disk → List Nat
  | .done _, _ => []
  | .read lba k, d =>
    lba :: if ok lba then accessed ok (k (some (d.sector lba))) d else accessed ok (k none) d
  | .write lba s k, d =>
    lba :: if ok lba then accessed ok (k true) (d.store lba s) else accessed ok (k false) d

/-- Run a program on a disk on which no access fails. -/
def exec (p : BlockM α) (d : Disk) : α × Disk := run (fun _ => true) p d

end BlockM

/-- One sector read: `none` when the access fails. -/
def readSector (lba : Nat) : BlockM (Option Sector) := .read lba .done

/-- One sector write: `false` when the access fails. -/
def writeSector (lba : Nat) (s : Sector) : BlockM Bool := .write lba s .done

open BlockM

variable {α β : Type} {p : BlockM α}

@[simp] theorem run_pure (ok : Nat → Bool) (a : α) (d : Disk) : run ok (pure a) d = (a, d) := rfl

/-- A bound program runs its first part, then its second on what is left. -/
@[simp] theorem run_bind (ok : Nat → Bool) (p : BlockM α) (f : α → BlockM β) (d : Disk) :
    run ok (p >>= f) d = run ok (f (run ok p d).1) (run ok p d).2 := by
  show run ok (BlockM.bind p f) d = _
  induction p generalizing d with
  | done a => rfl
  | read lba k ih =>
    by_cases h : ok lba
    · simp only [BlockM.bind, run, h, if_true]
      exact ih _ d
    · simp only [BlockM.bind, run, h]
      exact ih _ d
  | write lba s k ih =>
    by_cases h : ok lba
    · simp only [BlockM.bind, run, h, if_true]
      exact ih _ _
    · simp only [BlockM.bind, run, h]
      exact ih _ d

@[simp] theorem run_readSector (ok : Nat → Bool) (lba : Nat) (d : Disk) :
    run ok (readSector lba) d = (if ok lba then some (d.sector lba) else none, d) := by
  by_cases h : ok lba
  · simp only [readSector, run, h, if_true]
  · simp [readSector, run, h]

@[simp] theorem run_writeSector (ok : Nat → Bool) (lba : Nat) (s : Sector) (d : Disk) :
    run ok (writeSector lba s) d = if ok lba then (true, d.store lba s) else (false, d) := rfl

/-! ## Disks on which no access fails -/

@[simp] theorem exec_pure (a : α) (d : Disk) : exec (pure a) d = (a, d) := rfl

@[simp] theorem exec_bind (p : BlockM α) (f : α → BlockM β) (d : Disk) :
    exec (p >>= f) d = exec (f (exec p d).1) (exec p d).2 :=
  run_bind _ p f d

@[simp] theorem exec_readSector (lba : Nat) (d : Disk) :
    exec (readSector lba) d = (some (d.sector lba), d) := rfl

@[simp] theorem exec_writeSector (lba : Nat) (s : Sector) (d : Disk) :
    exec (writeSector lba s) d = (true, d.store lba s) := rfl

/-- `exec` sees through a conditional program. -/
theorem exec_ite (c : Prop) [Decidable c] (p q : BlockM α) (d : Disk) :
    exec (if c then p else q) d = if c then exec p d else exec q d := by
  by_cases h : c
  · rw [if_pos h, if_pos h]
  · rw [if_neg h, if_neg h]

/-- A program ends in one way: what some end of it satisfies, the end at hand satisfies. -/
theorem of_exec {d d' : Disk} {r : α} {Q : α → Disk → Prop}
    (h : ∃ r d', exec p d = (r, d') ∧ Q r d') (hrun : exec p d = (r, d')) : Q r d' := by
  obtain ⟨r₁, d₁, hrun₁, hq⟩ := h
  cases hrun.symm.trans hrun₁
  exact hq

/-- A stored sector reads back. -/
@[simp] theorem store_same (d : Disk) (lba : Nat) (s : Sector) {i : Nat} (h : i < sectorSize) :
    d.store lba s (sectorSize * lba + i) = s i := by
  unfold sectorSize at h
  have h1 : (512 * lba + i) / 512 = lba := by omega
  have h2 : (512 * lba + i) % 512 = i := by omega
  simp only [Disk.store, sectorSize, h1, h2, if_true]

/-- A store changes only its own sector. -/
theorem store_other (d : Disk) {lba : Nat} (s : Sector) (h : a / sectorSize ≠ lba) :
    d.store lba s a = d a :=
  if_neg h

/-! ## Where a program writes -/

@[simp] theorem written_pure (ok : Nat → Bool) (a : α) (d : Disk) :
    written ok (pure a) d = [] := rfl

@[simp] theorem written_readSector (ok : Nat → Bool) (lba : Nat) (d : Disk) :
    written ok (readSector lba) d = [] := by
  by_cases h : ok lba
  · simp only [readSector, written, h, if_true]
  · simp [readSector, written, h]

theorem written_bind (ok : Nat → Bool) (p : BlockM α) (f : α → BlockM β) (d : Disk) :
    written ok (p >>= f) d = written ok p d ++ written ok (f (run ok p d).1) (run ok p d).2 := by
  show written ok (BlockM.bind p f) d = _
  induction p generalizing d with
  | done a => rfl
  | read lba k ih =>
    by_cases h : ok lba
    · simp only [BlockM.bind, written, run, h, if_true]
      exact ih _ d
    · simp only [BlockM.bind, written, run, h]
      exact ih _ d
  | write lba s k ih =>
    by_cases h : ok lba
    · simp only [BlockM.bind, written, run, h, if_true, List.cons_append]
      rw [ih _ _]
    · simp only [BlockM.bind, written, run, h]
      exact ih _ d

/-- **The frame rule**: a byte outside the sectors written is left alone. -/
theorem run_unwritten (ok : Nat → Bool) (p : BlockM α) (d : Disk)
    (h : a / sectorSize ∉ written ok p d) : (run ok p d).2 a = d a := by
  induction p generalizing d with
  | done _ => rfl
  | read lba k ih =>
    by_cases hok : ok lba <;> simp only [run, written, hok, if_true] at h ⊢
    · exact ih _ d h
    · exact ih _ d h
  | write lba s k ih =>
    by_cases hok : ok lba <;> simp only [run, written, hok, if_true] at h ⊢
    · rw [ih _ _ (fun hmem => h (List.mem_cons_of_mem _ hmem))]
      exact store_other d s (fun heq => h (heq ▸ List.mem_cons_self ..))
    · exact ih _ d h

/-! ## Which sectors a program touches -/

@[simp] theorem accessed_readSector (ok : Nat → Bool) (lba : Nat) (d : Disk) :
    accessed ok (readSector lba) d = [lba] := by
  by_cases h : ok lba
  · simp only [readSector, accessed, h, if_true]
  · simp [readSector, accessed, h]

theorem accessed_bind (ok : Nat → Bool) (p : BlockM α) (f : α → BlockM β) (d : Disk) :
    accessed ok (p >>= f) d = accessed ok p d ++ accessed ok (f (run ok p d).1) (run ok p d).2 := by
  show accessed ok (BlockM.bind p f) d = _
  induction p generalizing d with
  | done a => rfl
  | read lba k ih =>
    by_cases h : ok lba
    · simp only [BlockM.bind, accessed, run, h, if_true, List.cons_append]
      rw [ih _ d]
    · simp only [BlockM.bind, accessed, run, h, List.cons_append]
      exact congrArg (lba :: ·) (ih _ d)
  | write lba s k ih =>
    by_cases h : ok lba
    · simp only [BlockM.bind, accessed, run, h, if_true, List.cons_append]
      rw [ih _ _]
    · simp only [BlockM.bind, accessed, run, h, List.cons_append]
      exact congrArg (lba :: ·) (ih _ d)

/-! ## Programs in two parts -/

/-- To split a program behind a first step, split what follows it. -/
theorem split_bind {γ : Type} {f : α → BlockM γ} {g : α → BlockM β} {h : β → BlockM γ}
    (hfg : ∀ a, f a = g a >>= h) : p >>= f = (p >>= g) >>= h := by
  rw [bind_assoc]
  exact bind_congr hfg

theorem split_ite [Decidable c] {p q : BlockM β} {p' q' : BlockM α} {h : α → BlockM β}
    (hp : p = p' >>= h) (hq : q = q' >>= h) :
    (if c then p else q) = (if c then p' else q') >>= h := by
  by_cases hc : c
  · rw [if_pos hc, if_pos hc, hp]
  · rw [if_neg hc, if_neg hc, hq]

/-! ## Programs that only read -/

/-- A program that writes no sector, whatever it reads and whatever fails. -/
def NoWrites (p : BlockM α) : Prop := ∀ ok d, written ok p d = []

theorem noWrites_pure (a : α) : NoWrites (pure a : BlockM α) := fun _ _ => rfl

theorem noWrites_readSector (lba : Nat) : NoWrites (readSector lba) :=
  fun ok d => written_readSector ok lba d

theorem noWrites_bind {f : α → BlockM β} (hp : NoWrites p) (hf : ∀ a, NoWrites (f a)) :
    NoWrites (p >>= f) := by
  intro ok d
  rw [written_bind, hp, hf]
  rfl

/-- After a read that can fail. -/
theorem noWrites_option {p : BlockM (Option α)} {f : Option α → BlockM β} (hp : NoWrites p)
    (hnone : NoWrites (f none)) (hsome : ∀ a, NoWrites (f (some a))) : NoWrites (p >>= f) :=
  noWrites_bind hp fun r => r.rec hnone hsome

theorem noWrites_ite [Decidable c] {p q : BlockM α} (hp : NoWrites p) (hq : NoWrites q) :
    NoWrites (if c then p else q) := by
  by_cases h : c
  · rw [if_pos h]; exact hp
  · rw [if_neg h]; exact hq

/-- A program that leaves every disk as it found it, whatever fails. -/
def ReadOnly (p : BlockM α) : Prop := ∀ ok d, (run ok p d).2 = d

theorem NoWrites.readOnly (hp : NoWrites p) : ReadOnly p := by
  intro ok d
  funext a
  refine run_unwritten ok p d ?_
  rw [hp]
  exact List.not_mem_nil

/-- Running a read-only program is reading off its value. -/
theorem ReadOnly.run_eq (hp : ReadOnly p) (ok : Nat → Bool) (d : Disk) :
    run ok p d = ((run ok p d).1, d) :=
  Prod.ext rfl (hp ok d)

/-! ## Footprints -/

/-- A program that writes only sectors in `P`, whatever it reads and whatever
    fails. -/
def WritesIn (P : Nat → Prop) (p : BlockM α) : Prop :=
  ∀ ok d, ∀ lba ∈ written ok p d, P lba

section WritesIn

variable {P : Nat → Prop} {p : BlockM α}

theorem writesIn_pure (a : α) : WritesIn P (pure a : BlockM α) :=
  fun _ _ _ h => nomatch h

theorem writesIn_readSector (lba : Nat) : WritesIn P (readSector lba) := by
  intro ok d k hk
  rw [written_readSector] at hk
  cases hk

theorem writesIn_writeSector {lba : Nat} (s : Sector) (h : P lba) :
    WritesIn P (writeSector lba s) := by
  intro ok d k hk
  by_cases hok : ok lba
  · simp only [writeSector, written, hok, if_true] at hk
    rw [List.mem_singleton.mp hk]
    exact h
  · simp [writeSector, written, hok] at hk

theorem writesIn_bind {f : α → BlockM β} (hp : WritesIn P p) (hf : ∀ a, WritesIn P (f a)) :
    WritesIn P (p >>= f) := by
  intro ok d k hk
  rw [written_bind] at hk
  rcases List.mem_append.mp hk with hk | hk
  · exact hp ok d k hk
  · exact hf _ ok _ k hk

theorem writesIn_ite [Decidable c] {p q : BlockM α} (hp : c → WritesIn P p)
    (hq : ¬ c → WritesIn P q) : WritesIn P (if c then p else q) := by
  by_cases h : c
  · rw [if_pos h]; exact hp h
  · rw [if_neg h]; exact hq h

theorem WritesIn.mono {Q : Nat → Prop} (h : WritesIn P p) (hPQ : ∀ lba, P lba → Q lba) :
    WritesIn Q p :=
  fun ok d k hk => hPQ k (h ok d k hk)

/-- The frame rule for a program with a known footprint. -/
theorem WritesIn.run_eq (h : WritesIn P p) (ok : Nat → Bool) (d : Disk) (ha : ¬ P (a / sectorSize))
    : (run ok p d).2 a = d a :=
  run_unwritten ok p d (fun hmem => ha (h ok d _ hmem))

end WritesIn

end BlockIO
