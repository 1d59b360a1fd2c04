import AoOs.FatWrites
import AoOs.StepSystem

/-! # What a corrupt volume can make the driver write

    Table entries and directory entries are disk data and may hold anything.  The
    driver checks a cluster number before it reads a file, but not before it writes
    a directory: `dir_location` follows the chain of the current directory wherever
    it leads, and `fat_chdir` takes the number of the first cluster from a directory
    entry as it is.  A run of calls stays inside the volume's structures as long as
    the calls that change the volume are made in a directory whose chain stays
    inside the data area, and the areas of the volume do not wrap around. -/

namespace FatConfined

open BlockIO BlockHoare StepSystem FatTypes FatDriver FatRead FatGeometry FatRegions FatWrites
open BlockIO.BlockM (run written)

variable {v : Vol} {ok : Nat → Bool} {call : Call}

/-! ## Calls -/

/-- The directory writes that a call asks for; the calls that change nothing ask
    for none. -/
def plan (v : Vol) : Call → BlockM (List DirWrite)
  | .create name data => createPlan v name data
  | .delete name => deletePlan v name
  | .mkdir name => mkdirPlan v name
  | .rmdir name => rmdirPlan v name
  | _ => pure []

/-- The sectors that the `dir_write` calls of a call write. -/
def dirWrites (ok : Nat → Bool) (v : Vol) (d : Disk) (call : Call) : List Nat :=
  written ok (flush v (run ok (plan v call) d).1) (run ok (plan v call) d).2

/-- A call that changes the volume. -/
def mutates : Call → Bool
  | .create _ _ => true
  | .delete _ => true
  | .mkdir _ => true
  | .rmdir _ => true
  | _ => false

/-- The areas of the volume that the driver may write. -/
def InStructures (v : Vol) (lba : Nat) : Prop :=
  InFatCopy v lba ∨ InRootArea v lba ∨ InData v lba ∨ IsFsinfo v lba

theorem not_inStructures (hg : Geometry v) {lba : Nat} (hmeta : metaSectors v ≤ lba)
    (htotal : v.totalSectors ≤ lba) (ht : v.type ≠ .fat32) : ¬ InStructures v lba := by
  rintro (⟨i, hi, _, hlt⟩ | ⟨_, hlt⟩ | ⟨c, h2, hc, _, hlt⟩ | ⟨h32, _⟩)
  · have := copy_end hi
    rw [metaSectors] at hmeta
    omega
  · omega
  · have := (hg.clusterSector_eq h2 hc).2
    omega
  · exact ht h32

/-- The call writes inside the volume's structures, and its directory writes are not
    in the table. -/
def Confined (ok : Nat → Bool) (v : Vol) (d : Disk) (call : Call) : Prop :=
  (∀ lba ∈ written ok (call.program v) d, InStructures v lba) ∧
  ∀ lba ∈ dirWrites ok v d call, ¬ InFatCopy v lba

/-- The current directory is the fixed root, or a chain that stays among the data
    clusters until it ends. -/
def DirInside (ok : Nat → Bool) (v : Vol) (d : Disk) : Prop :=
  (v.currentCluster = 0 ∧ v.type ≠ .fat32) ∨
  ∀ k, (∀ j, j < k → ¬ Stops v (walk ok v d (dirHandle v v.currentCluster) (j + 1))) →
    validDataCluster v (walk ok v d (dirHandle v v.currentCluster) k)

theorem DirInside.safe {d : Disk} (h : DirInside ok v d) : AllSafe ok v {v.currentCluster} d := by
  rintro dir rfl
  exact h.imp id staysIn_of_walk

theorem triple_plan (hv : Laid v) (call : Call) :
    Triple ok (PlanArea v) (AllSafe ok v {v.currentCluster}) (plan v call) (Planned ok v) := by
  have hcur : v.currentCluster ∈ ({v.currentCluster} : Set Nat) := rfl
  cases call with
  | create name data => exact triple_createPlan hv _ hcur name data
  | delete name => exact triple_deletePlan hv _ hcur name
  | mkdir name => exact triple_mkdirPlan hv _ hcur name
  | rmdir name => exact triple_rmdirPlan hv _ hcur name
  | read _ _ => exact triple_planned_nil _
  | list => exact triple_planned_nil _
  | chdir _ => exact triple_planned_nil _
  | getDiskInfo => exact triple_planned_nil _

/-- A call that changes the volume writes what its plan writes, then its directory
    entries. -/
theorem written_program (ok : Nat → Bool) (v : Vol) (d : Disk) (h : mutates call) :
    written ok (call.program v) d = written ok (plan v call) d ++ dirWrites ok v d call := by
  rw [dirWrites, ← written_bind]
  cases call with
  | create name data => exact congrArg (written ok · d) (fatCreate_eq_plan v name data)
  | delete name => exact congrArg (written ok · d) (fatDelete_eq_plan v name)
  | mkdir name => exact congrArg (written ok · d) (fatMkdir_eq_plan v name)
  | rmdir name => exact congrArg (written ok · d) (fatRmdir_eq_plan v name)
  | read _ _ => cases h
  | list => cases h
  | chdir _ => cases h
  | getDiskInfo => cases h

/-! ## Calls that write nothing -/

theorem readCluster_noWrites (v : Vol) (c size : Nat) (n s done buf) :
    NoWrites (readCluster v c size n s done buf) := by
  induction n generalizing s done buf with
  | zero => exact noWrites_pure _
  | succ n ih =>
    refine noWrites_ite ?_ (noWrites_pure _)
    exact noWrites_option (noWrites_readSector _) (noWrites_pure _) fun sec => ih _ _ _

theorem checkedNext_noWrites (v : Vol) (c : Nat) : NoWrites (checkedNext v c) := by
  refine noWrites_ite (noWrites_pure _) (noWrites_bind (fatGet_noWrites v c) fun next => ?_)
  exact noWrites_ite (noWrites_pure _) (noWrites_ite (noWrites_pure _) (noWrites_pure _))

theorem readLoop_noWrites (v : Vol) (size : Nat) : ∀ n c done buf anchor power length seen,
    NoWrites (readLoop v size n c done buf anchor power length seen) := by
  intro n
  induction n with
  | zero => intros; exact noWrites_pure _
  | succ n ih =>
    intro c done buf anchor power length seen
    refine noWrites_ite (noWrites_ite (noWrites_pure _) ?_) (noWrites_pure _)
    refine noWrites_option (readCluster_noWrites v c size _ _ _ _) (noWrites_pure _) fun p => ?_
    refine noWrites_ite ?_ (ih _ _ _ _ _ _ _)
    refine noWrites_option (checkedNext_noWrites v c) (noWrites_pure _) fun p => ?_
    refine noWrites_ite (noWrites_pure _) (noWrites_ite (noWrites_pure _) ?_)
    exact noWrites_ite (ih _ _ _ _ _ _ _) (ih _ _ _ _ _ _ _)

theorem fatRead_noWrites (v : Vol) (name : CString) (maxSize : Nat) :
    NoWrites (fatRead v name maxSize) := by
  refine noWrites_ite (noWrites_pure _) ?_
  refine noWrites_option (findEntry_noWrites v _ name) (noWrites_pure _) fun p => ?_
  exact noWrites_ite (noWrites_pure _)
    (noWrites_ite (noWrites_pure _) (readLoop_noWrites v _ _ _ _ _ _ _ _ _))

theorem listFrom_noWrites (v : Vol) (n i) : NoWrites (listFrom v n i) := by
  induction n generalizing i with
  | zero => exact noWrites_pure _
  | succ n ih =>
    refine noWrites_option (dirRead_noWrites v _ i) (noWrites_pure _) fun e => ?_
    refine noWrites_ite (noWrites_pure _) (noWrites_ite (ih _) ?_)
    exact noWrites_bind (ih _) fun rest => noWrites_pure _

theorem countFree_noWrites (v : Vol) (n c) : NoWrites (countFree v n c) := by
  induction n generalizing c with
  | zero => exact noWrites_pure _
  | succ n ih =>
    refine noWrites_bind (fatGet_noWrites v c) fun r => ?_
    exact noWrites_bind (ih _) fun rest => noWrites_pure _

theorem fatChdir_noWrites (v : Vol) (name : CString) : NoWrites (fatChdir v name) := by
  refine noWrites_ite (noWrites_pure _) (noWrites_ite (noWrites_ite (noWrites_pure _) ?_) ?_)
  · exact noWrites_option (dirRead_noWrites v _ 1) (noWrites_pure _) fun e => noWrites_pure _
  · refine noWrites_option (findEntry_noWrites v _ name) (noWrites_pure _) fun p => ?_
    exact noWrites_ite (noWrites_pure _) (noWrites_pure _)

theorem program_noWrites (v : Vol) (h : ¬ mutates call) : NoWrites (call.program v) := by
  cases call with
  | read name maxSize => exact fatRead_noWrites v name maxSize
  | list => exact listFrom_noWrites v _ _
  | chdir name => exact fatChdir_noWrites v name
  | getDiskInfo => exact noWrites_bind (countFree_noWrites v _ _) fun _ => noWrites_pure _
  | create _ _ => exact absurd rfl h
  | delete _ => exact absurd rfl h
  | mkdir _ => exact absurd rfl h
  | rmdir _ => exact absurd rfl h

/-! ## One call -/

theorem plan_of_reads (v : Vol) (h : ¬ mutates call) : plan v call = pure [] := by
  cases call with
  | create _ _ => exact absurd rfl h
  | delete _ => exact absurd rfl h
  | mkdir _ => exact absurd rfl h
  | rmdir _ => exact absurd rfl h
  | _ => rfl

/-- A call that changes the volume is made in a directory inside the data area. -/
def Guarded (ok : Nat → Bool) (v : Vol) (d : Disk) (call : Call) : Prop :=
  mutates call → DirInside ok v d

theorem confined_of_guarded (hv : Laid v) {d : Disk} (h : Guarded ok v d call) :
    Confined ok v d call := by
  by_cases hm : mutates call
  · obtain ⟨hplan, D, hsafe, hD⟩ := triple_plan hv call d (h hm).safe
    obtain ⟨hflush, _⟩ := triple_flush hv D _ hD _ hsafe
    refine ⟨fun lba hl => ?_, fun lba hl => ?_⟩
    · rw [written_program ok v d hm] at hl
      rcases List.mem_append.mp hl with hl | hl
      · rcases hplan lba hl with hin | hin | hin
        · exact .inl hin
        · exact .inr (.inr (.inl hin))
        · exact .inr (.inr (.inr hin))
      · exact (hflush lba hl).elim (fun hin => .inr (.inl hin)) fun hin => .inr (.inr (.inl hin))
    · exact (hflush lba hl).elim (fun hin => hin.not_copy) hv.not_copy_of_data
  · refine ⟨fun lba hl => ?_, fun lba hl => ?_⟩
    · rw [program_noWrites v hm ok d] at hl
      cases hl
    · rw [dirWrites, plan_of_reads v hm] at hl
      cases hl

/-! ## Runs -/

/-- The driver's variables and the disk after a call. -/
def after (ok : Nat → Bool) (s : Vol × Disk) : Call → Vol × Disk
  | .chdir name => ((run ok (fatChdir s.1 name) s.2).1.getD s.1, (run ok (fatChdir s.1 name) s.2).2)
  | call => (s.1, (run ok (call.program s.1) s.2).2)

/-- One call, on a disk that answers as `l.1` says while the call runs. -/
def step (s : Vol × Disk) (l : (Nat → Bool) × Call) : Option (Vol × Disk) :=
  some (after l.1 s l.2)

/-- `fat_chdir` sets the current directory and its path, nothing else. -/
theorem run_fatChdir (ok : Nat → Bool) (v : Vol) (name : CString) (d : Disk) :
    ∃ c cwd, (run ok (fatChdir v name) d).1.getD v = moved v c cwd := by
  have hsame : ∃ c cwd, v = moved v c cwd := ⟨v.currentCluster, v.cwd, by cases v; rfl⟩
  rw [fatChdir]
  by_cases hroot : name.chars = [] ∨ name.chars = [47]
  · rw [if_pos hroot]
    exact ⟨_, _, rfl⟩
  rw [if_neg hroot]
  by_cases hup : name.chars = [46, 46]
  · rw [if_pos hup]
    by_cases hcur : v.currentCluster = rootDir v
    · rw [if_pos hcur]
      exact hsame
    rw [if_neg hcur, run_bind]
    cases (run ok (dirRead v v.currentCluster 1) d).1 with
    | none => exact hsame
    | some e => exact ⟨_, _, rfl⟩
  rw [if_neg hup, run_bind]
  cases (run ok (findEntry v v.currentCluster name) d).1 with
  | none => exact hsame
  | some p =>
    obtain ⟨e, index⟩ := p
    by_cases hdir : (!e.isDirectory)
    · simp only [if_pos hdir]
      exact hsame
    · simp only [if_neg hdir]
      exact ⟨_, _, rfl⟩

theorem mounted_moved (hm : Mounted v) (c : Nat) (cwd : Nat → UInt8) : Mounted (moved v c cwd) := by
  obtain ⟨drive, sector, cwd₀, v₀, hm, heq⟩ := hm
  refine ⟨drive, sector, cwd₀, v₀, hm, ?_⟩
  rw [heq]
  rfl

theorem laid_after {s : Vol × Disk} (hv : Laid s.1) (call : Call) : Laid (after ok s call).1 := by
  cases call with
  | chdir name =>
    obtain ⟨c, cwd, heq⟩ := run_fatChdir ok s.1 name s.2
    rw [after, heq]
    exact ⟨mounted_moved hv.mounted c cwd, hv.fits, hv.holds⟩
  | _ => exact hv

/-- **Runs stay inside the volume.**  On every mounted volume with a large enough
    table and areas that do not wrap around, whatever the disk holds and whichever
    sectors fail: after any run of calls whose changes are made in directories inside
    the data area, the next such call writes only in the volume's structures, and
    its directory writes are not in the table. -/
theorem writes_confined {v₀ v : Vol} {d₀ d : Disk} {calls : List ((Nat → Bool) × Call)}
    (hm : Mounted v₀) (hholds : FatHolds v₀) (hfits : metaSectors v₀ < 2 ^ 32)
    (hrun : Steps step (fun s l => Guarded l.1 s.1 s.2 l.2) (v₀, d₀) calls (v, d)) (ok : Nat → Bool)
    (call : Call) (h : Guarded ok v d call) : Confined ok v d call := by
  have hv : Laid (v, d).1 := by
    refine hrun.invariant (I := fun s => Laid s.1) ?_ ⟨hm, hfits, hholds⟩
    intro s l s' hs _ hstep
    cases hstep
    exact laid_after hs l.2
  exact confined_of_guarded hv h

/-! ## Two directories that are not clusters

    A FAT12 disk of 40 sectors with two sectors in a cluster.  The entry `D` of the
    root directory has cluster 1, which the driver puts at the sector of the table;
    the entry `E` has cluster 100, at sector 199. -/

def strayDisk : Disk := fun a =>
  if a = 12 then 2 else if a = 13 then 2 else if a = 14 then 1 else if a = 16 then 1
  else if a = 17 then 16 else if a = 19 then 40 else if a = 22 then 1
  else if a = 510 then 0x55 else if a = 511 then 0xAA
  -- the root directory
  else if a = 1024 then 68 else if 1024 < a ∧ a < 1035 then 32 else if a = 1035 then 0x10
  else if a = 1050 then 1
  else if a = 1056 then 69 else if 1056 < a ∧ a < 1067 then 32 else if a = 1067 then 0x10
  else if a = 1082 then 100
  else 0

def strayVol : Vol := (readBpb (strayDisk.sector 0)).toVol 0 (fun _ => 0)

theorem strayVol_mounted : mountSector 0 (strayDisk.sector 0) (fun _ => 0) = some strayVol :=
  if_pos (by decide)

def strayName (c : UInt8) (h : c ≠ 0) : CString := ⟨[c], by simpa using h.symm⟩

def createStray : Call := .create (strayName 78 (by decide)) []

/-- `cd D` and the creation of an empty file overwrite the table; `cd E` and the same
    creation writes behind the end of the volume. -/
theorem create_writes_astray :
    mountSector 0 (strayDisk.sector 0) (fun _ => 0) = some strayVol ∧ FatHolds strayVol ∧
    (run (fun _ => true) (fatChdir strayVol (strayName 68 (by decide))) strayDisk).1.map
      Vol.currentCluster = some 1 ∧
    dirWrites (fun _ => true) (moved strayVol 1 strayVol.cwd) strayDisk createStray = [1] ∧
    InFatCopy (moved strayVol 1 strayVol.cwd) 1 ∧
    (run (fun _ => true) (fatChdir strayVol (strayName 69 (by decide))) strayDisk).1.map
      Vol.currentCluster = some 100 ∧
    199 ∈ written (fun _ => true) (createStray.program (moved strayVol 100 strayVol.cwd))
      strayDisk ∧
    ¬ InStructures (moved strayVol 100 strayVol.cwd) 199 :=
  ⟨strayVol_mounted, by rw [FatHolds]; decide, by decide, by decide,
    ⟨0, by decide, by decide, by decide⟩, by decide,
    by decide, not_inStructures (Mounted.geometry (mounted_moved
      (Mounted.of_mountSector strayVol_mounted) _ _)) (by decide) (by decide)
      (by decide)⟩

/-- In the root directory of the same disk nothing goes astray, also after a file was
    created there. -/
theorem writes_confined_strayVol :
    ∃ s, Steps step (fun s l => Guarded l.1 s.1 s.2 l.2) (strayVol, strayDisk)
        [(fun _ => true, createStray)] s ∧ s.1 = strayVol ∧ s.2 ≠ strayDisk ∧
      Confined (fun _ => true) s.1 s.2 createStray := by
  have hrun : Steps step (fun s l => Guarded l.1 s.1 s.2 l.2) (strayVol, strayDisk)
      [(fun _ => true, createStray)] (after (fun _ => true) (strayVol, strayDisk) createStray) :=
    .cons rfl (fun _ => .inl ⟨by decide, by decide⟩) (.nil _)
  refine ⟨_, hrun, rfl, fun h => ?_, writes_confined (Mounted.of_mountSector strayVol_mounted)
    (by rw [FatHolds]; decide) (by decide) hrun (fun _ => true) createStray
    fun _ => .inl ⟨by decide, by decide⟩⟩
  exact absurd (congrFun h 1088) (by decide +kernel)

end FatConfined
