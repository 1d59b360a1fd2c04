import AoOs.FatConfined

/-! # The path buffer — stores of `fat_chdir` into `cwd`

    `cwd` has 256 bytes.  Descending appends a separator and the caller's name; the
    loop that copies the name stops at byte 255, but the separator before it and the
    terminator behind it are stored without a test.  A path of 255 characters leaves
    no room for the two, and nothing keeps a path from getting that long: names are
    cut to 8.3 only when they are looked up.

    `chdirStores` lists the stores of a call.  A call stays inside the buffer exactly
    when it does not append a separator to a path of 255 characters. -/

namespace CwdBuffer

open BlockIO BlockIO.BlockM FatTypes FatDriver FatGeometry FatConfined StepSystem

variable {s : Nat → UInt8} {n i : Nat}

/-! ## The stores of a call -/

/-- The stores of `trimWhile`. -/
def trimStores (p : UInt8 → Bool) : Nat → (Nat → UInt8) → List (Nat × UInt8)
  | 0, _ => []
  | n + 1, s => if 0 < n ∧ p (s n) then (n, 0) :: trimStores p n (setByte s n 0) else []

/-- The stores of `chdir("..")`. -/
def cwdUpStores (s : Nat → UInt8) : List (Nat × UInt8) :=
  let (s', n) := trimWhile (· == 47) (cwdLen s) s
  trimStores (· == 47) (cwdLen s) s ++ trimStores (· != 47) n s'

/-- The stores of `appendChars`. -/
def appendStores : List UInt8 → Nat → List (Nat × UInt8)
  | [], n => [(n, 0)]
  | c :: cs, n =>
    if n < fsMaxFilename - 1 then (n, c) :: appendStores cs (n + 1) else [(n, 0)]

/-- The stores of `chdir(name)`. -/
def cwdDownStores (s : Nat → UInt8) (name : CString) : List (Nat × UInt8) :=
  let n := cwdLen s
  if 1 < n ∧ s (n - 1) ≠ 47 then (n, 47) :: appendStores name.chars (n + 1)
  else appendStores name.chars n

/-- The stores of `fat_chdir` into `cwd`, in order. -/
def chdirStores (v : Vol) (name : CString) : BlockM (List (Nat × UInt8)) := do
  if name.chars = [] ∨ name.chars = [47] then pure [(0, 47), (1, 0)]
  else if name.chars = [46, 46] then
    if v.currentCluster = rootDir v then pure []
    else
      match ← dirRead v v.currentCluster 1 with
      | none => pure []
      | some _ => pure (cwdUpStores v.cwd)
  else
    match ← findEntry v v.currentCluster name with
    | none => pure []
    | some (e, _) => if !e.isDirectory then pure [] else pure (cwdDownStores v.cwd name)

/-- A buffer after some stores. -/
def storeAll (s : Nat → UInt8) (ws : List (Nat × UInt8)) : Nat → UInt8 :=
  ws.foldl (fun s w => setByte s w.1 w.2) s

theorem storeAll_append (s : Nat → UInt8) (ws ws' : List (Nat × UInt8)) :
    storeAll s (ws ++ ws') = storeAll (storeAll s ws) ws' := List.foldl_append

theorem storeAll_trim (p : UInt8 → Bool) (n : Nat) (s : Nat → UInt8) :
    (trimWhile p n s).1 = storeAll s (trimStores p n s) := by
  induction n generalizing s with
  | zero => rfl
  | succ n ih =>
    rw [trimWhile, trimStores]
    by_cases h : 0 < n ∧ p (s n)
    · rw [if_pos h, if_pos h]
      exact ih _
    · rw [if_neg h, if_neg h]
      rfl

theorem storeAll_up (s : Nat → UInt8) : cwdUp s = storeAll s (cwdUpStores s) := by
  show (trimWhile (· != 47) (trimWhile (· == 47) (cwdLen s) s).2
    (trimWhile (· == 47) (cwdLen s) s).1).1 = _
  rw [cwdUpStores, storeAll_append, ← storeAll_trim, ← storeAll_trim]

theorem storeAll_appendChars (cs : List UInt8) (s : Nat → UInt8) (n : Nat) :
    appendChars cs s n = storeAll s (appendStores cs n) := by
  induction cs generalizing s n with
  | nil => rfl
  | cons c cs ih =>
    rw [appendChars, appendStores]
    by_cases h : n < fsMaxFilename - 1
    · rw [if_pos h, if_pos h]
      exact ih _ _
    · rw [if_neg h, if_neg h]
      rfl

theorem storeAll_down (s : Nat → UInt8) (name : CString) :
    cwdDown s name = storeAll s (cwdDownStores s name) := by
  rw [cwdDown, cwdDownStores]
  by_cases h : 1 < cwdLen s ∧ s (cwdLen s - 1) ≠ 47
  · rw [if_pos h, if_pos h]
    exact storeAll_appendChars _ _ _
  · rw [if_neg h, if_neg h]
    exact storeAll_appendChars _ _ _

/-! ## What a call can do -/

/-- The outcomes of `fat_chdir`: the new variables (`none` for -1), and the stores. -/
inductive Moves (ok : Nat → Bool) (v : Vol) (d : Disk) (name : CString) :
    Option Vol → List (Nat × UInt8) → Prop where
  | root : name.chars = [] ∨ name.chars = [47] →
      Moves ok v d name
        (some (moved v (rootDir v) fun i => if i = 0 then 47 else if i = 1 then 0 else v.cwd i))
        [(0, 47), (1, 0)]
  | top : name.chars = [46, 46] → v.currentCluster = rootDir v → Moves ok v d name (some v) []
  | stuck : name.chars = [46, 46] → (run ok (dirRead v v.currentCluster 1) d).1 = none →
      Moves ok v d name none []
  | up {e : Entry} : name.chars = [46, 46] → v.currentCluster ≠ rootDir v →
      (run ok (dirRead v v.currentCluster 1) d).1 = some e →
      Moves ok v d name
        (some (moved v (if entryCluster v e ≠ 0 then entryCluster v e else rootDir v)
          (cwdUp v.cwd)))
        (cwdUpStores v.cwd)
  | missing : ¬ (name.chars = [] ∨ name.chars = [47]) → name.chars ≠ [46, 46] →
      (∀ e i, (run ok (findEntry v v.currentCluster name) d).1 = some (e, i) →
        e.isDirectory = false) → Moves ok v d name none []
  | down {e : Entry} {i : Nat} : ¬ (name.chars = [] ∨ name.chars = [47]) →
      name.chars ≠ [46, 46] → (run ok (findEntry v v.currentCluster name) d).1 = some (e, i) →
      e.isDirectory →
      Moves ok v d name (some (moved v (entryCluster v e) (cwdDown v.cwd name)))
        (cwdDownStores v.cwd name)

theorem chdir_moves (ok : Nat → Bool) (v : Vol) (d : Disk) (name : CString) :
    Moves ok v d name (run ok (fatChdir v name) d).1 (run ok (chdirStores v name) d).1 := by
  rw [fatChdir, chdirStores]
  by_cases hroot : name.chars = [] ∨ name.chars = [47]
  · rw [if_pos hroot, if_pos hroot]
    exact .root hroot
  rw [if_neg hroot, if_neg hroot]
  by_cases hup : name.chars = [46, 46]
  · rw [if_pos hup, if_pos hup]
    by_cases htop : v.currentCluster = rootDir v
    · rw [if_pos htop, if_pos htop]
      exact .top hup htop
    rw [if_neg htop, if_neg htop, run_bind, run_bind]
    cases he : (run ok (dirRead v v.currentCluster 1) d).1 with
    | none => exact .stuck hup he
    | some e => exact .up hup htop he
  rw [if_neg hup, if_neg hup, run_bind, run_bind]
  cases hf : (run ok (findEntry v v.currentCluster name) d).1 with
  | none => exact .missing hroot hup fun e i h => by cases hf.symm.trans h
  | some p =>
    obtain ⟨e, i⟩ := p
    cases hdir : e.isDirectory with
    | false =>
      simp only [hdir, Bool.not_false, if_true]
      refine .missing hroot hup fun e' i' h => ?_
      rw [← (Prod.mk.inj (Option.mem_unique hf h)).1]
      exact hdir
    | true =>
      simp only [hdir, Bool.not_true, Bool.false_eq_true, if_false]
      exact .down hroot hup hf hdir

/-- `cwd` is changed by the stores and by nothing else. -/
theorem cwd_after (ok : Nat → Bool) (v : Vol) (d : Disk) (name : CString) :
    ((run ok (fatChdir v name) d).1.getD v).cwd =
      storeAll v.cwd (run ok (chdirStores v name) d).1 := by
  have h := chdir_moves ok v d name
  generalize (run ok (fatChdir v name) d).1 = r at h ⊢
  generalize (run ok (chdirStores v name) d).1 = ws at h ⊢
  cases h with
  | root _ =>
    funext i
    show (if i = 0 then 47 else if i = 1 then 0 else v.cwd i) =
      if i = 1 then 0 else if i = 0 then 47 else v.cwd i
    by_cases h0 : i = 0
    · rw [if_pos h0, if_neg (by omega), if_pos h0]
    · rw [if_neg h0, if_neg h0]
  | top | stuck | missing => rfl
  | up => exact storeAll_up v.cwd
  | down => exact storeAll_down v.cwd name

/-! ## Inside the buffer -/

/-- The path ends inside the buffer. -/
def Terminated (s : Nat → UInt8) : Prop := ∃ i < fsMaxFilename, s i = 0

/-- A call stores inside the buffer and leaves the path terminated there. -/
structure Contained (ok : Nat → Bool) (v : Vol) (d : Disk) (name : CString) : Prop where
  inside : ∀ w ∈ (run ok (chdirStores v name) d).1, w.1 < fsMaxFilename
  terminated : Terminated ((run ok (fatChdir v name) d).1.getD v).cwd

/-- The name is that of a directory in the current one. -/
def Descends (ok : Nat → Bool) (v : Vol) (d : Disk) (name : CString) : Prop :=
  ¬ (name.chars = [] ∨ name.chars = [47]) ∧ name.chars ≠ [46, 46] ∧
    ∃ e i, (run ok (findEntry v v.currentCluster name) d).1 = some (e, i) ∧ e.isDirectory

/-- A call that descends finds room for a separator, or does not need one. -/
def RoomLeft (ok : Nat → Bool) (v : Vol) (d : Disk) (name : CString) : Prop :=
  Descends ok v d name → cwdLen v.cwd < fsMaxFilename - 1 ∨ v.cwd (fsMaxFilename - 2) = 47

theorem strlenFrom_spec {j : Nat} (hj : s j = 0) (hij : i ≤ j) (hjn : j < i + n) :
    strlenFrom s n i ≤ j ∧ s (strlenFrom s n i) = 0 := by
  induction n generalizing i with
  | zero => omega
  | succ n ih =>
    rw [strlenFrom]
    by_cases hz : s i = 0
    · rw [if_pos hz]
      exact ⟨hij, hz⟩
    · rw [if_neg hz]
      have hne : i ≠ j := fun heq => hz (heq ▸ hj)
      exact ih (by omega) (by omega)

/-- `strlen` finds the terminator. -/
theorem Terminated.len (h : Terminated s) : cwdLen s < fsMaxFilename ∧ s (cwdLen s) = 0 := by
  obtain ⟨j, hj, hz⟩ := h
  obtain ⟨hle, hz'⟩ := strlenFrom_spec hz (Nat.zero_le j) (by omega : j < 0 + fsMaxFilename)
  exact ⟨Nat.lt_of_le_of_lt hle hj, hz'⟩

/-- Trimming stores terminators, below the end of the path. -/
theorem mem_trimStores {p : UInt8 → Bool} {w : Nat × UInt8} (h : w ∈ trimStores p n s) :
    w.1 < n ∧ w.2 = 0 := by
  induction n generalizing s with
  | zero => cases h
  | succ n ih =>
    rw [trimStores] at h
    split at h
    · rcases List.mem_cons.mp h with rfl | h
      · exact ⟨Nat.lt_succ_self n, rfl⟩
      · exact ⟨Nat.lt_succ_of_lt (ih h).1, (ih h).2⟩
    · cases h

theorem trimWhile_le (p : UInt8 → Bool) (n : Nat) (s : Nat → UInt8) : (trimWhile p n s).2 ≤ n := by
  induction n generalizing s with
  | zero => exact Nat.le_refl _
  | succ n ih =>
    rw [trimWhile]
    split
    · exact Nat.le_succ_of_le (ih _)
    · exact Nat.le_refl _

theorem mem_cwdUpStores {w : Nat × UInt8} (h : w ∈ cwdUpStores s) : w.1 < cwdLen s ∧ w.2 = 0 := by
  rcases List.mem_append.mp h with h | h
  · exact mem_trimStores h
  · obtain ⟨hlt, hz⟩ := mem_trimStores h
    exact ⟨Nat.lt_of_lt_of_le hlt (trimWhile_le _ _ _), hz⟩

/-- A terminator outlives stores of terminators. -/
theorem storeAll_zero {ws : List (Nat × UInt8)} (h : ∀ w ∈ ws, w.2 = 0) (hi : s i = 0) :
    storeAll s ws i = 0 := by
  induction ws generalizing s with
  | nil => exact hi
  | cons w ws ih =>
    refine ih (fun w' hw => h w' (List.mem_cons_of_mem _ hw)) ?_
    show (if i = w.1 then w.2 else s i) = 0
    split
    · exact h w List.mem_cons_self
    · exact hi

/-- Appending from a byte of the buffer stays in the buffer, and ends with a
    terminator there. -/
theorem appendStores_inside (cs : List UInt8) (hn : n < fsMaxFilename) :
    (∀ w ∈ appendStores cs n, w.1 < fsMaxFilename) ∧
      ∃ ws m, appendStores cs n = ws ++ [(m, 0)] := by
  induction cs generalizing n with
  | nil =>
    refine ⟨fun w hw => ?_, [], n, rfl⟩
    rw [List.mem_singleton.mp hw]
    exact hn
  | cons c cs ih =>
    rw [appendStores]
    by_cases hfit : n < fsMaxFilename - 1
    · obtain ⟨hin, ws, m, heq⟩ := ih (show n + 1 < fsMaxFilename by omega)
      rw [if_pos hfit]
      refine ⟨fun w hw => ?_, (n, c) :: ws, m, by rw [heq]; rfl⟩
      rcases List.mem_cons.mp hw with rfl | hw
      · exact hn
      · exact hin w hw
    · rw [if_neg hfit]
      refine ⟨fun w hw => ?_, [], n, rfl⟩
      rw [List.mem_singleton.mp hw]
      exact hn

/-- What ends with a terminator is terminated. -/
theorem terminated_of_last {ws ws' : List (Nat × UInt8)} {m : Nat} (h : ws = ws' ++ [(m, 0)])
    (hin : ∀ w ∈ ws, w.1 < fsMaxFilename) : Terminated (storeAll s ws) := by
  refine ⟨m, hin (m, 0) (by rw [h]; simp), ?_⟩
  rw [h, storeAll_append]
  exact if_pos rfl

/-- Descending with room for the separator. -/
theorem cwdDownStores_inside (hs : Terminated s) (name : CString)
    (hroom : cwdLen s < fsMaxFilename - 1 ∨ s (fsMaxFilename - 2) = 47) :
    (∀ w ∈ cwdDownStores s name, w.1 < fsMaxFilename) ∧ Terminated (cwdDown s name) := by
  have hlen := hs.len.1
  have key : (∀ w ∈ cwdDownStores s name, w.1 < fsMaxFilename) ∧
      ∃ ws m, cwdDownStores s name = ws ++ [(m, 0)] := by
    rw [cwdDownStores]
    by_cases hsep : 1 < cwdLen s ∧ s (cwdLen s - 1) ≠ 47
    · have hlt : cwdLen s < fsMaxFilename - 1 := by
        rcases hroom with h | h
        · exact h
        · by_contra hge
          have hfull : cwdLen s - 1 = fsMaxFilename - 2 := by omega
          exact hsep.2 (hfull ▸ h)
      rw [if_pos hsep]
      obtain ⟨hin, ws, m, heq⟩ := appendStores_inside name.chars
        (show cwdLen s + 1 < fsMaxFilename by omega)
      refine ⟨fun w hw => ?_, (cwdLen s, 47) :: ws, m, by rw [heq]; rfl⟩
      rcases List.mem_cons.mp hw with rfl | hw
      · exact hlen
      · exact hin w hw
    · rw [if_neg hsep]
      exact appendStores_inside name.chars hlen
  obtain ⟨hin, ws, m, heq⟩ := key
  rw [storeAll_down]
  exact ⟨hin, terminated_of_last heq hin⟩

/-- A separator behind 255 characters takes the last byte, and the terminator the
    one behind the buffer. -/
theorem cwdDownStores_outside (name : CString) (hlen : cwdLen s = fsMaxFilename - 1)
    (hlast : s (fsMaxFilename - 2) ≠ 47) : (fsMaxFilename, 0) ∈ cwdDownStores s name := by
  have hsep : 1 < cwdLen s ∧ s (cwdLen s - 1) ≠ 47 := by
    rw [hlen]
    exact ⟨by decide, hlast⟩
  have happ : appendStores name.chars fsMaxFilename = [(fsMaxFilename, 0)] := by
    cases name.chars with
    | nil => rfl
    | cons c cs => exact if_neg (by decide)
  rw [cwdDownStores]
  rw [if_pos hsep, hlen, show fsMaxFilename - 1 + 1 = fsMaxFilename from rfl, happ]
  exact List.mem_cons_of_mem _ (List.mem_singleton_self _)

/-- **One call** with a terminated path is contained exactly when there is room. -/
theorem contained_iff {ok : Nat → Bool} {v : Vol} (d : Disk) (name : CString)
    (hs : Terminated v.cwd) : Contained ok v d name ↔ RoomLeft ok v d name := by
  have hmoves := chdir_moves ok v d name
  constructor
  · rintro ⟨hin, -⟩ ⟨hroot, hup, e, i, hf, hdir⟩
    generalize (run ok (fatChdir v name) d).1 = r at hmoves
    generalize (run ok (chdirStores v name) d).1 = ws at hmoves hin
    by_contra hfull
    rw [not_or] at hfull
    have hlen : cwdLen v.cwd = fsMaxFilename - 1 := by
      have := hs.len.1
      omega
    cases hmoves with
    | root h => exact hroot h
    | top h | stuck h | up h => exact hup h
    | missing _ _ h =>
      cases (h e i hf).symm.trans hdir
    | down =>
      exact Nat.lt_irrefl _ (hin _ (cwdDownStores_outside name hlen hfull.2))
  · intro hroom
    have hterm := cwd_after ok v d name
    generalize hr : (run ok (fatChdir v name) d).1 = r at hmoves
    generalize hws : (run ok (chdirStores v name) d).1 = ws at hmoves hterm
    suffices h : (∀ w ∈ ws, w.1 < fsMaxFilename) ∧ Terminated (storeAll v.cwd ws) by
      exact ⟨hws ▸ h.1, hterm ▸ h.2⟩
    cases hmoves with
    | root _ => exact ⟨by decide, 1, by decide, rfl⟩
    | top | stuck | missing => exact ⟨nofun, hs⟩
    | up =>
      have hlen := hs.len
      exact ⟨fun w hw => Nat.lt_trans (mem_cwdUpStores hw).1 hlen.1, cwdLen v.cwd, hlen.1,
        storeAll_zero (fun w hw => (mem_cwdUpStores hw).2) hlen.2⟩
    | down hroot hup hf hdir =>
      rw [← storeAll_down]
      exact cwdDownStores_inside hs name (hroom ⟨hroot, hup, _, _, hf, hdir⟩)

/-! ## Runs -/

/-- The condition on a call of the driver. -/
def Fits (s : Vol × Disk) (l : (Nat → Bool) × Call) : Prop :=
  match l.2 with
  | .chdir name => RoomLeft l.1 s.1 s.2 name
  | _ => True

theorem terminated_step {s s' : Vol × Disk} {l : (Nat → Bool) × Call} (hs : Terminated s.1.cwd)
    (hfit : Fits s l) (hstep : step s l = some s') : Terminated s'.1.cwd := by
  obtain ⟨ok, call⟩ := l
  cases hstep
  cases call with
  | chdir name => exact ((contained_iff s.2 name hs).mpr hfit).terminated
  | _ => exact hs

/-- **The path buffer over a run.**  After a mount and any calls whose `fat_chdir`s
    find room, on any disk and with any failing sectors, the next `fat_chdir` stays
    inside the buffer and leaves it terminated exactly when it finds room. -/
theorem chdir_contained {drive : Nat} {sector : Sector} {cwd₀ : Nat → UInt8} {v₀ v : Vol}
    {d₀ d : Disk} {calls : List ((Nat → Bool) × Call)}
    (hm : mountSector drive sector cwd₀ = some v₀) (hrun : Steps step Fits (v₀, d₀) calls (v, d))
    (ok : Nat → Bool) (name : CString) : Contained ok v d name ↔ RoomLeft ok v d name := by
  have hinit : Terminated v₀.cwd := by
    rw [mountSector] at hm
    split at hm
    · cases hm
      exact ⟨1, by decide, rfl⟩
    · cases hm
  exact contained_iff d name (hrun.invariant (I := fun s => Terminated s.1.cwd)
    (fun _ _ _ hs hfit hstep => terminated_step hs hfit hstep) hinit)

/-! ## Strings in the buffer -/

/-- The buffer holds a string. -/
structure Holds (s : Nat → UInt8) (l : List UInt8) : Prop where
  chars : ∀ i (h : i < l.length), s i = l[i]
  terminator : s l.length = 0
  noNul : (0 : UInt8) ∉ l

theorem strlenFrom_eq {j : Nat} (hij : i ≤ j) (hjn : j ≤ i + n) (hne : ∀ k, i ≤ k → k < j → s k ≠ 0)
    (hj : s j = 0) : strlenFrom s n i = j := by
  induction n generalizing i with
  | zero => exact Nat.le_antisymm hij hjn
  | succ n ih =>
    rw [strlenFrom]
    by_cases heq : i = j
    · rw [heq, if_pos hj]
    · rw [if_neg (hne i (Nat.le_refl i) (by omega))]
      exact ih (by omega) (by omega) fun k hk => hne k (by omega)

theorem Holds.len {l : List UInt8} (h : Holds s l) (hl : l.length ≤ fsMaxFilename) :
    cwdLen s = l.length := by
  refine strlenFrom_eq (Nat.zero_le _) (by omega) (fun k _ hk hz => ?_) h.terminator
  rw [h.chars k hk] at hz
  exact h.noNul (hz ▸ List.getElem_mem hk)

/-- Appending to what stands in the buffer: as much as fits. -/
theorem holds_appendChars {cs l : List UInt8} (hchars : ∀ i (h : i < l.length), s i = l[i])
    (hl : (0 : UInt8) ∉ l) (hcs : (0 : UInt8) ∉ cs) (hlen : l.length ≤ fsMaxFilename - 1) :
    Holds (appendChars cs s l.length) (l ++ cs.take (fsMaxFilename - 1 - l.length)) := by
  have hend : Holds (setByte s l.length 0) l :=
    ⟨fun i hi => (if_neg (by omega : i ≠ l.length)).trans (hchars i hi), if_pos rfl, hl⟩
  induction cs generalizing l s with
  | nil =>
    rw [List.take_nil, List.append_nil]
    exact hend
  | cons c cs ih =>
    rw [appendChars]
    by_cases hfit : l.length < fsMaxFilename - 1
    · rw [if_pos hfit]
      rw [List.mem_cons, not_or] at hcs
      obtain ⟨hc, hcs⟩ := hcs
      have hchars' : ∀ i (h : i < (l ++ [c]).length), setByte s l.length c i = (l ++ [c])[i] := by
        intro i hi
        rw [List.length_append, List.length_singleton] at hi
        by_cases hil : i = l.length
        · subst hil
          exact (if_pos rfl).trans (List.getElem_concat_length rfl (by simp)).symm
        · rw [List.getElem_append_left (by omega : i < l.length)]
          exact (if_neg hil).trans (hchars i (by omega))
      have hl' : (0 : UInt8) ∉ l ++ [c] := by
        simpa using ⟨hl, hc⟩
      have hlen' : (l ++ [c]).length = l.length + 1 := by simp
      have hrest := ih hchars' hl' hcs (by omega) ⟨fun i hi =>
        (if_neg (by omega : i ≠ (l ++ [c]).length)).trans (hchars' i hi), if_pos rfl, hl'⟩
      rw [hlen', List.append_assoc, List.singleton_append] at hrest
      rw [show fsMaxFilename - 1 - l.length = fsMaxFilename - 1 - (l.length + 1) + 1 by omega,
        List.take_succ_cons]
      exact hrest
    · rw [if_neg hfit, show fsMaxFilename - 1 - l.length = 0 by omega, List.take_zero,
        List.append_nil]
      exact hend

/-! ## A path of 255 characters

    A FAT12 disk of 40 sectors with a directory `DDDDDDDD`, and `E` in it. -/

def deepDisk : Disk := fun a =>
  if a = 12 then 2 else if a = 13 then 1 else if a = 14 then 1 else if a = 16 then 1
  else if a = 17 then 16 else if a = 19 then 40 else if a = 22 then 1
  else if a = 510 then 0x55 else if a = 511 then 0xAA
  -- the table: two chains of one cluster
  else if 512 ≤ a ∧ a < 518 then 0xFF
  -- the root directory
  else if 1024 ≤ a ∧ a < 1032 then 68 else if 1032 ≤ a ∧ a < 1035 then 32
  else if a = 1035 then 0x10 else if a = 1050 then 2
  -- the directory in cluster 2
  else if a = 1536 then 46 else if 1536 < a ∧ a < 1547 then 32
  else if a = 1547 then 0x10 else if a = 1562 then 2
  else if a = 1568 ∨ a = 1569 then 46 else if 1569 < a ∧ a < 1579 then 32
  else if a = 1579 then 0x10
  else if a = 1600 then 69 else if 1600 < a ∧ a < 1611 then 32
  else if a = 1611 then 0x10 else if a = 1626 then 3
  else 0

def deepVol : Vol := (readBpb (deepDisk.sector 0)).toVol 0 (fun _ => 0)

theorem deepVol_mounted : mountSector 0 (deepDisk.sector 0) (fun _ => 0) = some deepVol :=
  if_pos (by decide)

/-- The name of `DDDDDDDD`, written with 254 letters. -/
def longName : CString :=
  ⟨List.replicate 254 68, fun h => absurd (List.eq_of_mem_replicate h) (by decide)⟩

def nameE : CString := ⟨[69], by simp⟩

/-- A name that is found is descended to. -/
theorem chdir_down {ok : Nat → Bool} {v : Vol} {d : Disk} {name : CString} {c : Nat}
    (hroot : ¬ (name.chars = [] ∨ name.chars = [47])) (hup : name.chars ≠ [46, 46])
    (hf : ((run ok (findEntry v v.currentCluster name) d).1.map
      fun p => (p.1.isDirectory, entryCluster v p.1)) = some (true, c)) :
    run ok (fatChdir v name) d = (some (moved v c (cwdDown v.cwd name)), d) ∧
      (run ok (chdirStores v name) d).1 = cwdDownStores v.cwd name := by
  obtain ⟨⟨e, i⟩, hfind, hval⟩ := Option.map_eq_some_iff.mp hf
  obtain ⟨hdir, hc⟩ := Prod.mk.inj hval
  have hmoves := chdir_moves ok v d name
  have hdisk := (fatChdir_noWrites v name).readOnly ok d
  rw [← Prod.eta (run ok (fatChdir v name) d), hdisk, ← hc]
  generalize (run ok (fatChdir v name) d).1 = r at hmoves ⊢
  generalize (run ok (chdirStores v name) d).1 = ws at hmoves ⊢
  cases hmoves with
  | root h => exact absurd h hroot
  | top h | stuck h | up h => exact absurd h hup
  | missing _ _ h =>
    cases (h e i hfind).symm.trans hdir
  | down _ _ hf' =>
    cases Option.mem_unique hfind hf'
    exact ⟨rfl, rfl⟩

theorem deepVol_descends : run (fun _ => true) (fatChdir deepVol longName) deepDisk =
      (some (moved deepVol 2 (cwdDown deepVol.cwd longName)), deepDisk) :=
  (chdir_down (by decide) (by decide) (by decide)).1

/-- After the long name the path has 255 characters, and does not end with a slash. -/
theorem deepVol_path : Holds (cwdDown deepVol.cwd longName) (47 :: List.replicate 254 68) := by
  have hslash : Holds deepVol.cwd [47] := ⟨by
    intro i hi
    obtain rfl : i = 0 := by simpa using hi
    rfl, rfl, by decide⟩
  have h := holds_appendChars hslash.chars hslash.noNul longName.noNul (by decide)
  have htake : longName.chars.take (fsMaxFilename - 1 - [(47 : UInt8)].length) =
      List.replicate 254 68 := List.take_of_length_le (Nat.le_of_eq List.length_replicate)
  rw [htake] at h
  rw [cwdDown, hslash.len (by decide), if_neg (by decide)]
  exact h

theorem deepPath_length : (47 :: List.replicate 254 68 : List UInt8).length = 255 := by
  rw [List.length_cons, List.length_replicate]

/-- **A byte behind the buffer**: after `cd DDDD…` with 254 letters, `cd E` stores a
    terminator at index 256. -/
theorem chdir_overruns : mountSector 0 (deepDisk.sector 0) (fun _ => 0) = some deepVol ∧
    ∃ s, Steps step Any (deepVol, deepDisk) [(fun _ => true, .chdir longName)] s ∧
      (fsMaxFilename, 0) ∈ (run (fun _ => true) (chdirStores s.1 nameE) s.2).1 ∧
      ¬ Contained (fun _ => true) s.1 s.2 nameE := by
  obtain ⟨path, hpath, hstep⟩ : ∃ path, Holds path (47 :: List.replicate 254 68) ∧
      step (deepVol, deepDisk) (fun _ => true, .chdir longName) =
        some (moved deepVol 2 path, deepDisk) :=
    ⟨_, deepVol_path, by rw [step, after, deepVol_descends]; rfl⟩
  have hfind : ((run (fun _ => true) (findEntry deepVol 2 nameE) deepDisk).1.map
      fun p => (p.1.isDirectory, entryCluster deepVol p.1)) = some (true, 3) := by decide
  have hstores : (run (fun _ => true) (chdirStores (moved deepVol 2 path) nameE) deepDisk).1 =
      cwdDownStores path nameE :=
    (chdir_down (c := 3) (by decide) (by decide)
      (by simp only [findEntry_moved, entryCluster_moved, currentCluster_moved]; exact hfind)).2
  have hlast : path (253 + 1) = 68 := by
    rw [hpath.chars (253 + 1) (by rw [deepPath_length]; decide), List.getElem_cons_succ,
      List.getElem_replicate]
  have hmem : (fsMaxFilename, 0) ∈
      (run (fun _ => true) (chdirStores (moved deepVol 2 path) nameE) deepDisk).1 := by
    rw [hstores]
    refine cwdDownStores_outside nameE ?_ ?_
    · rw [hpath.len (by rw [deepPath_length]; decide), deepPath_length]
      rfl
    · show path (253 + 1) ≠ 47
      rw [hlast]
      decide
  exact ⟨deepVol_mounted, _, .cons hstep trivial (.nil _), hmem, fun h =>
    Nat.lt_irrefl _ (h.inside _ hmem)⟩

/-- The same name with its eight letters. -/
def eightLetters : CString := ⟨List.replicate 8 68, by decide⟩

/-- After `cd DDDDDDDD` there is room for `cd E`. -/
theorem chdir_contained_deepVol :
    ∃ s, Steps step Fits (deepVol, deepDisk) [(fun _ => true, .chdir eightLetters)] s ∧
      Descends (fun _ => true) s.1 s.2 nameE ∧ Contained (fun _ => true) s.1 s.2 nameE := by
  obtain ⟨s, hs⟩ : ∃ s, s = after (fun _ => true) (deepVol, deepDisk) (.chdir eightLetters) :=
    ⟨_, rfl⟩
  have hrun : Steps step Fits (deepVol, deepDisk) [(fun _ => true, .chdir eightLetters)] s :=
    .cons (hs ▸ rfl) (fun _ => .inl (by decide)) (.nil _)
  have hfind : ((run (fun _ => true) (findEntry s.1 s.1.currentCluster nameE) s.2).1.map
      fun p => p.1.isDirectory) = some true := by
    rw [hs]
    decide +kernel
  obtain ⟨⟨e, i⟩, hfound, hdir⟩ := Option.map_eq_some_iff.mp hfind
  refine ⟨s, hrun, ⟨by decide, by decide, e, i, hfound, hdir⟩, (chdir_contained deepVol_mounted hrun
    (fun _ => true) nameE).mpr fun _ => .inl ?_⟩
  rw [hs]
  decide +kernel

end CwdBuffer
