import AoOs.FatLoops

/-! # Which operations return

    Every loop of the driver but one ends on every disk, whatever fails, and the
    bounded recursions of `FatDriver` are what the loops compute. -/

namespace FatTermination

open BlockIO LoopIO FatTypes FatDriver FatRead FatGeometry FatTable
open BlockIO.BlockM (run)

variable {c dir : Nat}

section Loops

variable {ok : Nat → Bool} {v : Vol} {d : Disk}

/-! ## `fat_read`: every round copies a byte -/

theorem readCluster_progress {size : Nat} (n s done buf d r)
    (h : (run ok (readCluster v c size n s done buf) d).1 = some r) :
    done ≤ r.1 ∧ (0 < n → done < size → done < r.1) := by
  induction n generalizing s done buf d r with
  | zero =>
    cases h
    exact ⟨Nat.le_refl _, fun h0 => nomatch h0⟩
  | succ n ih =>
    rw [readCluster] at h
    by_cases hlt : done < size
    · rw [if_pos hlt, run_bind, run_readSector] at h
      cases hok : ok (u32 (clusterSector v c + s)) with
      | false =>
        rw [hok] at h
        cases h
      | true =>
        rw [hok] at h
        obtain ⟨hle, _⟩ := ih _ _ _ _ _ h
        have : 0 < min (size - done) 512 := by omega
        exact ⟨by omega, fun _ _ => by omega⟩
    · rw [if_neg hlt] at h
      cases h
      exact ⟨Nat.le_refl _, fun _ h1 => absurd h1 hlt⟩

/-- The recursion of `FatDriver` with a loop state in the place of its arguments. -/
def readFrom (v : Vol) (size n : Nat) (s : FatLoops.ReadState) : BlockM ReadResult :=
  readLoop v size n s.c s.done s.buf s.anchor s.power s.length s.seen

theorem readRound_unrolls (hspc : 0 < v.sectorsPerCluster) (size n : Nat) (s : FatLoops.ReadState)
    (d : Disk) : (∃ s', (run ok (FatLoops.readRound v size s) d).1 = .inl s' ∧
      size - s'.done < size - s.done ∧
      run ok (readFrom v size (n + 1) s) d =
        run ok (readFrom v size n s') (run ok (FatLoops.readRound v size s) d).2) ∨
    ∃ r, (run ok (FatLoops.readRound v size s) d).1 = .inr r ∧
      run ok (readFrom v size (n + 1) s) d = (r, (run ok (FatLoops.readRound v size s) d).2) := by
  rw [readFrom, readLoop, FatLoops.readRound]
  by_cases hlt : s.done < size
  · rw [if_pos hlt, if_pos hlt]
    by_cases hv : validDataCluster v s.c
    · simp only [hv, Bool.not_true, Bool.false_eq_true, if_false]
      rw [run_bind, run_bind]
      cases hr : run ok (readCluster v s.c size v.sectorsPerCluster 0 s.done s.buf) d with
      | mk o d' =>
        cases o with
        | none => exact .inr ⟨_, rfl, rfl⟩
        | some p =>
          obtain ⟨done', buf'⟩ := p
          have hprog : s.done < done' :=
            (readCluster_progress _ _ _ _ d _ (by rw [hr])).2 hspc hlt
          by_cases hmore : done' < size
          · simp only [if_pos hmore]
            rw [run_bind, run_bind]
            cases hn : run ok (checkedNext v s.c) d' with
            | mk o e =>
              cases o with
              | none => exact .inr ⟨_, rfl, rfl⟩
              | some p =>
                obtain ⟨next, terminal⟩ := p
                cases terminal with
                | true => exact .inr ⟨_, rfl, rfl⟩
                | false =>
                  simp only [Bool.false_eq_true, if_false]
                  by_cases ha : next = s.anchor
                  · simp only [if_pos ha]
                    exact .inr ⟨_, rfl, rfl⟩
                  · simp only [if_neg ha]
                    by_cases hp : u32 (s.length + 1) = s.power
                    · simp only [if_pos hp]
                      exact .inl ⟨_, rfl, by show size - done' < _; omega, rfl⟩
                    · simp only [if_neg hp]
                      exact .inl ⟨_, rfl, by show size - done' < _; omega, rfl⟩
          · simp only [if_neg hmore]
            exact .inl ⟨_, rfl, by show size - done' < _; omega, rfl⟩
    · simp only [Bool.not_eq_true] at hv
      simp only [hv, Bool.not_false, if_true]
      exact .inr ⟨_, rfl, rfl⟩
  · rw [if_neg hlt, if_neg hlt]
    exact .inr ⟨_, rfl, rfl⟩

theorem readLoop_agrees (hspc : 0 < v.sectorsPerCluster) (size : Nat) (s : FatLoops.ReadState)
    (d : Disk) (n : Nat) (hn : size - s.done < n) :
    Agrees ok (FatLoops.readLoop v size s) (readFrom v size n s) d := by
  refine loop_agrees (fun _ _ => True) (fun s _ => size - s.done) ?_ n s d trivial hn
  intro n s d _
  refine ⟨_, yields_lift_iff.mpr rfl, ?_⟩
  obtain ⟨s', hs', hlt, hrun⟩ | h := readRound_unrolls hspc size n s d
  · exact .inl ⟨s', hs', trivial, hlt, hrun⟩
  · exact .inr h

/-! ## `free_chain`: every round frees an entry -/

section Geometry

variable (hg : Geometry v)

include hg

theorem base_lt : v.reservedSectors + 2 ^ 23 < 2 ^ 32 := by
  have := hg.reserved_lt
  omega

/-- The data clusters whose entries are not free. -/
def busy (ok : Nat → Bool) (v : Vol) (d : Disk) : Finset Nat :=
  (Finset.Ico 2 (clusterLimit v)).filter fun c => fatVal ok v d c ≠ 0

omit hg in
theorem busy_card_le (ok : Nat → Bool) (v : Vol) (d : Disk) :
    (busy ok v d).card ≤ v.clusterCount := by
  have hle : clusterLimit v ≤ v.clusterCount + 2 := Nat.mod_le _ _
  calc (busy ok v d).card ≤ (Finset.Ico 2 (clusterLimit v)).card := Finset.card_filter_le _ _
    _ = clusterLimit v - 2 := Nat.card_Ico _ _
    _ ≤ v.clusterCount := by omega

/-- The disk after one round. -/
def freedDisk (ok : Nat → Bool) (v : Vol) (c : Nat) (d : Disk) : Disk :=
  (run ok (fsinfoAdjust v 1 c) (run ok (fatSet v c 0) d).2).2

theorem busy_freed (hc : validDataCluster v c) (heoc : isEoc v (fatVal ok v d c) = false)
    (hbusy : fatVal ok v d c ≠ 0) : (busy ok v (freedDisk ok v c d)).card < (busy ok v d).card := by
  have hbase := base_lt hg
  have hread : Readable ok v v.reservedSectors c := by
    by_contra hr
    rw [fatVal_unreadable hbase d hr, isEoc_eocValue] at heoc
    cases heoc
  have hval : ∀ k, fatVal ok v (freedDisk ok v c d) k =
      fatVal ok v (run ok (fatSet v c 0) d).2 k :=
    fun k => fatVal_fsinfoAdjust hbase 1 c _ k
  rw [validDataCluster, Bool.and_eq_true, decide_eq_true_eq, decide_eq_true_eq] at hc
  refine Finset.card_lt_card ⟨fun k hk => ?_, fun hsub => ?_⟩
  · obtain ⟨hmem, hne⟩ := Finset.mem_filter.mp hk
    refine Finset.mem_filter.mpr ⟨hmem, fun hz => hne ?_⟩
    rw [hval]
    exact fatVal_clears hbase (fatSetFrom_clears ok v c _ _ d) hz
  · have hmem := hsub (Finset.mem_filter.mpr ⟨Finset.mem_Ico.mpr hc, hbusy⟩)
    refine (Finset.mem_filter.mp hmem).2 ?_
    rw [hval]
    exact fatVal_fatSet_zero hbase hg.fatCount_pos hread

theorem freeChain_agrees (c : Nat) (d : Disk) :
    Agrees ok (FatLoops.freeChain v c) (freeChain v c) d := by
  have hcard := busy_card_le ok v d
  refine loop_agrees (fun _ _ => True) (fun _ d => (busy ok v d).card) ?_ _ c d trivial
    (by omega)
  intro n c d _
  refine ⟨_, yields_lift_iff.mpr rfl, ?_⟩
  rw [FatLoops.freeRound, freeChainFrom]
  cases hc : validDataCluster v c with
  | false => exact .inr ⟨(), rfl, rfl⟩
  | true =>
    simp only [if_true, run_bind, run_fatGet]
    by_cases hend : isEoc v (fatVal ok v d c) ∨ fatVal ok v d c < 2
    · simp only [if_pos hend]
      exact .inr ⟨(), rfl, rfl⟩
    · simp only [if_neg hend]
      rw [not_or, Bool.not_eq_true] at hend
      exact .inl ⟨_, rfl, trivial, busy_freed hg hc hend.1 (by omega), rfl⟩

/-! ## `fat_create`: every round writes a byte, or is the only one -/

omit hg in
theorem writeCluster_progress {data : List UInt8} (n s written d w)
    (h : (run ok (writeCluster v c data n s written) d).1 = some w) :
    written ≤ w ∧ (0 < n → written < data.length → written < w) := by
  induction n generalizing s written d w with
  | zero =>
    cases h
    exact ⟨Nat.le_refl _, fun h0 => nomatch h0⟩
  | succ n ih =>
    rw [writeCluster] at h
    by_cases hlt : written < data.length
    · rw [if_pos hlt, run_bind, run_writeSector] at h
      cases hok : ok (u32 (clusterSector v c + s)) with
      | false =>
        rw [hok] at h
        cases h
      | true =>
        rw [hok] at h
        obtain ⟨hle, _⟩ := ih _ _ _ _ h
        have : 0 < min (data.length - written) 512 := by omega
        exact ⟨by omega, fun _ _ => by omega⟩
    · rw [if_neg hlt] at h
      cases h
      exact ⟨Nat.le_refl _, fun _ h1 => absurd h1 hlt⟩

/-- What is left to do: the bytes, and the one round of an empty file. -/
def toCreate (data : List UInt8) (s : FatLoops.CreateState) : Nat :=
  (data.length - s.written) + if s.first = 0 then 1 else 0

/-- The recursion of `FatDriver` with a loop state in the place of its arguments. -/
def createFrom (v : Vol) (data : List UInt8) (n : Nat) (s : FatLoops.CreateState) :
    BlockM (Option Nat) :=
  createLoop v data n s.first s.prev s.written

omit hg in
/-- One unrolling of it, when there is something to do and a cluster to do it in. -/
theorem run_createFrom {data : List UInt8} {s : FatLoops.CreateState} {d d₁ : Disk}
    (hmore : s.written < data.length ∨ (data.length = 0 ∧ s.first = 0))
    (halloc : run ok (allocCluster v) d = (c, d₁)) (hc : c ≠ 0) (n : Nat) :
    run ok (createFrom v data (n + 1) s) d =
      run ok (do
        let linked ← FatLoops.linkTo v s.prev c
        if !linked then
          freeChain v (if s.first = 0 then c else s.first)
          pure none
        else
          match ← writeCluster v c data v.sectorsPerCluster 0 s.written with
          | none =>
            freeChain v (if s.first = 0 then c else s.first)
            pure none
          | some written =>
            createFrom v data n ⟨if s.first = 0 then c else s.first, c, written⟩) d₁ := by
  rw [createFrom, createLoop, if_pos hmore, run_bind, halloc]
  simp only [if_neg hc, FatLoops.linkTo]
  by_cases hp : s.prev ≠ 0
  · simp only [if_pos hp]
    rfl
  · simp only [if_neg hp]
    rfl

/-- A failure in the middle: the clusters linked so far are released. -/
theorem yields_release (first : Nat) (d : Disk) :
    Yields ok (do FatLoops.freeChain v first; pure (.inr none) :
      LoopM (FatLoops.CreateState ⊕ Option Nat)) d
      (.inr none, (run ok (freeChain v first) d).2) :=
  yields_bind_iff.mpr ⟨_, freeChain_agrees hg first d, yields_pure_iff.mpr rfl⟩

theorem createRound_unrolls (data : List UInt8) (n : Nat) (s : FatLoops.CreateState) (d : Disk) :
    ∃ q, Yields ok (FatLoops.createRound v data s) d q ∧
      ((∃ s', q.1 = .inl s' ∧ toCreate data s' < toCreate data s ∧
        run ok (createFrom v data (n + 1) s) d = run ok (createFrom v data n s') q.2) ∨
      ∃ a, q.1 = .inr a ∧ run ok (createFrom v data (n + 1) s) d = (a, q.2)) := by
  rw [FatLoops.createRound]
  by_cases hmore : s.written < data.length ∨ (data.length = 0 ∧ s.first = 0)
  · rw [if_pos hmore]
    simp only [yields_lift_bind_iff]
    cases halloc : run ok (allocCluster v) d with
    | mk c d₁ =>
      by_cases hc : c = 0
      · simp only [if_pos hc]
        refine ⟨_, yields_release hg s.first d₁, .inr ⟨none, rfl, ?_⟩⟩
        rw [createFrom, createLoop, if_pos hmore, run_bind, halloc]
        simp only [if_pos hc, run_bind]
        rfl
      · rw [run_createFrom hmore halloc hc]
        simp only [if_neg hc, yields_lift_bind_iff, run_bind]
        generalize hfirst : (if s.first = 0 then c else s.first) = first
        cases hl : run ok (FatLoops.linkTo v s.prev c) d₁ with
        | mk linked d₂ =>
          cases linked with
          | false =>
            refine ⟨_, yields_release hg first d₂, .inr ⟨none, rfl, ?_⟩⟩
            simp only [Bool.not_false, if_true, run_bind]
            rfl
          | true =>
            simp only [Bool.not_true, Bool.false_eq_true, if_false, yields_lift_bind_iff, run_bind]
            cases hw : run ok (writeCluster v c data v.sectorsPerCluster 0 s.written) d₂ with
            | mk o d₃ =>
              cases o with
              | none =>
                refine ⟨_, yields_release hg first d₃, .inr ⟨none, rfl, ?_⟩⟩
                simp only [run_bind]
                rfl
              | some w =>
                refine ⟨_, yields_pure_iff.mpr rfl, .inl ⟨_, rfl, ?_, rfl⟩⟩
                obtain ⟨hle, hlt⟩ := writeCluster_progress _ _ _ d₂ w (by rw [hw])
                have hlt := hlt hg.perCluster_pos
                have hne : first ≠ 0 := by
                  rw [← hfirst]
                  split <;> omega
                simp only [toCreate, if_neg hne]
                rcases hmore with h | ⟨h0, hf⟩
                · have := hlt h
                  omega
                · rw [if_pos hf]
                  omega
  · rw [if_neg hmore, createFrom, createLoop, if_neg hmore]
    exact ⟨_, yields_pure_iff.mpr rfl, .inr ⟨_, rfl, rfl⟩⟩

theorem createLoop_agrees (data : List UInt8) (d : Disk) :
    Agrees ok (FatLoops.createLoop v data ⟨0, 0, 0⟩) (createLoop v data (data.length + 2) 0 0 0)
      d := by
  refine loop_agrees (t := createFrom v data) (fun _ _ => True) (fun s _ => toCreate data s) ?_ _
    ⟨0, 0, 0⟩ d trivial (by rw [toCreate, if_pos rfl]; omega)
  intro n s d _
  obtain ⟨q, hq, ⟨s', hs', hlt, hrun⟩ | h⟩ := createRound_unrolls hg data n s d
  · exact ⟨q, hq, .inl ⟨s', hs', trivial, hlt, hrun⟩⟩
  · exact ⟨q, hq, .inr h⟩

end Geometry

/-! ## The walk to the end of a directory -/

/-- The walk from `c` meets no such value. -/
def Endless (ok : Nat → Bool) (v : Vol) (d : Disk) (c : Nat) : Prop :=
  ∀ k, ¬ Stops v (walk ok v d c (k + 1))

theorem walk_shift (ok : Nat → Bool) (v : Vol) (d : Disk) (c : Nat) (k) :
    walk ok v d (fatVal ok v d c) k = walk ok v d c (k + 1) := by
  induction k with
  | zero => rfl
  | succ k ih => exact congrArg (fatVal ok v d) ih

/-- One unrolling of the walk. -/
theorem run_lastCluster_go (h : ¬ Stops v (fatVal ok v d c)) (n : Nat) :
    run ok (FatLoops.tailRound v c) d = (.inl (fatVal ok v d c), d) ∧
    run ok (lastCluster v (n + 1) c) d = run ok (lastCluster v n (fatVal ok v d c)) d := by
  rw [Stops, not_or] at h
  rw [FatLoops.tailRound, lastCluster, run_bind, run_bind, run_fatGet]
  rw [if_neg h.1, if_neg h.2, if_neg h.1, if_neg h.2]
  exact ⟨rfl, rfl⟩

theorem run_lastCluster_stop (h : Stops v (fatVal ok v d c)) (n : Nat) :
    ∃ o, run ok (FatLoops.tailRound v c) d = (.inr o, d) ∧
      run ok (lastCluster v (n + 1) c) d = (o, d) := by
  rw [FatLoops.tailRound, lastCluster, run_bind, run_bind, run_fatGet]
  by_cases he : isEoc v (fatVal ok v d c)
  · simp only [if_pos he]
    exact ⟨_, rfl, rfl⟩
  · simp only [if_neg he, if_pos (h.resolve_left he)]
    exact ⟨_, rfl, rfl⟩

theorem lastCluster_agrees_of_stop (n k c) (h : Stops v (walk ok v d c (k + 1))) (hn : k < n) :
    Agrees ok (FatLoops.lastCluster v c) (lastCluster v n c) d := by
  induction n generalizing k c with
  | zero => cases hn
  | succ n ih =>
    by_cases hstop : Stops v (fatVal ok v d c)
    · obtain ⟨o, hround, hrun⟩ := run_lastCluster_stop hstop n
      rw [Agrees, hrun]
      exact yields_loop_iff.mpr ⟨_, yields_lift_iff.mpr hround.symm, .inr ⟨rfl, rfl⟩⟩
    · obtain ⟨hround, hrun⟩ := run_lastCluster_go hstop n
      rw [Agrees, hrun]
      cases k with
      | zero => exact absurd h hstop
      | succ k =>
        rw [← walk_shift] at h
        exact yields_loop_iff.mpr ⟨_, yields_lift_iff.mpr hround.symm,
          .inl ⟨_, rfl, ih k _ h (Nat.lt_of_succ_lt_succ hn)⟩⟩

theorem lastCluster_agrees (hg : Geometry v) (h : ¬ Endless ok v d c) :
    Agrees ok (FatLoops.lastCluster v c) (lastCluster v walkFuel c) d := by
  have hmeets : ∃ k, Stops v (walk ok v d c (k + 1)) := by
    by_contra hno
    exact h fun k hk => hno ⟨k, hk⟩
  have horbit : BrentWalk.Orbit fun k => walk ok v d c (k + 1) :=
    fun i j hij => walk_orbit ok v d c _ _ hij
  -- the values have 28 bits
  obtain ⟨k, hk, hstop⟩ := horbit.meets_early (fun i => fatVal_lt (base_lt hg) d _) hmeets
  exact lastCluster_agrees_of_stop _ k c hstop (by rw [walkFuel]; omega)

theorem lastCluster_endless (h : Endless ok v d c) : ¬ Halts ok (FatLoops.lastCluster v c) d := by
  refine loop_endless (fun c' d' => d' = d ∧ ∃ k, c' = walk ok v d c k) ?_ c d ⟨rfl, 0, rfl⟩
  rintro c' d' ⟨rfl, k, rfl⟩
  obtain ⟨hround, _⟩ := run_lastCluster_go (h k) 0
  exact ⟨_, _, yields_lift_iff.mpr hround.symm, rfl, k + 1, rfl⟩

theorem growDirectory_agrees (hg : Geometry v)
    (h : ¬ Endless ok v d (if dir = 0 then v.rootCluster else dir)) :
    Agrees ok (FatLoops.growDirectory v dir) (growDirectory v dir) d := by
  refine agrees_bind (lastCluster_agrees hg h) ?_
  cases (run ok (lastCluster v walkFuel (if dir = 0 then v.rootCluster else dir)) d).1 with
  | none => exact agrees_pure _ _
  | some c =>
    exact agrees_bind (agrees_lift _ _)
      (agrees_ite (fun _ => agrees_pure _ _) fun _ => agrees_lift _ _)

/-! ## The scan for a free directory entry -/

/-- Of the `n` entries from `i` on, one cannot be read and those in front of it are
    in use. -/
def Overruns (ok : Nat → Bool) (v : Vol) (d : Disk) (dir n i : Nat) : Prop :=
  ∃ k, k < n ∧ (run ok (dirRead v dir (i + k)) d).1 = none ∧
    ∀ j, j < k → ∃ e, (run ok (dirRead v dir (i + j)) d).1 = some e ∧ e 0 ≠ 0 ∧ e 0 ≠ 0xE5

theorem Overruns.cons {n i : Nat} {e : Entry} (he : (run ok (dirRead v dir i) d).1 = some e)
    (hused : ¬ (e 0 = 0 ∨ e 0 = 0xE5)) (h : Overruns ok v d dir n (i + 1)) :
    Overruns ok v d dir (n + 1) i := by
  obtain ⟨k, hk, hnone, hall⟩ := h
  rw [not_or] at hused
  refine ⟨k + 1, by omega, by rwa [Nat.add_assoc, Nat.add_comm 1 k] at hnone, fun j hj => ?_⟩
  cases j with
  | zero => exact ⟨e, he, hused⟩
  | succ j =>
    have := hall j (by omega)
    rwa [Nat.add_assoc, Nat.add_comm 1 j] at this

theorem Overruns.tail {n i : Nat} {e : Entry} (he : (run ok (dirRead v dir i) d).1 = some e)
    (h : Overruns ok v d dir (n + 1) i) :
    Overruns ok v d dir n (i + 1) ∧ ¬ (e 0 = 0 ∨ e 0 = 0xE5) := by
  obtain ⟨k, hk, hnone, hall⟩ := h
  cases k with
  | zero =>
    rw [Nat.add_zero, he] at hnone
    cases hnone
  | succ k =>
    refine ⟨⟨k, by omega, by rwa [Nat.add_assoc, Nat.add_comm 1 k], fun j hj => ?_⟩, ?_⟩
    · have := hall (j + 1) (by omega)
      rwa [Nat.add_assoc, Nat.add_comm 1 j]
    · obtain ⟨e', he', hused⟩ := hall 0 (Nat.succ_pos k)
      rw [Nat.add_zero, he] at he'
      cases he'
      rwa [not_or]

theorem freeIndexFrom_agrees (hg : Geometry v) (n i) (h : (Overruns ok v d dir n i → (dir = 0 ∧
      v.type ≠ .fat32) ∨ ¬ Endless ok v d (if dir = 0 then v.rootCluster else dir))) :
    Agrees ok (FatLoops.freeIndexFrom v dir n i) (freeIndexFrom v dir n i) d := by
  induction n generalizing i with
  | zero => exact agrees_pure _ _
  | succ n ih =>
    refine agrees_bind (agrees_lift _ _) ?_
    rw [(dirRead_noWrites v dir i).readOnly ok d]
    cases hr : (run ok (dirRead v dir i) d).1 with
    | none =>
      refine agrees_ite (fun _ => agrees_pure _ _) fun hfixed => ?_
      have hend := (h ⟨0, Nat.succ_pos n, hr, fun j hj => nomatch hj⟩).resolve_left hfixed
      refine agrees_bind (growDirectory_agrees hg hend) ?_
      exact agrees_ite (fun _ => agrees_pure _ _) fun _ => agrees_pure _ _
    | some e =>
      refine agrees_ite (fun _ => agrees_pure _ _) fun hused => ih (i + 1) fun hover => ?_
      exact h (hover.cons hr hused)

theorem freeIndexFrom_endless (hdir : ¬ (dir = 0 ∧ v.type ≠ .fat32))
    (hend : Endless ok v d (if dir = 0 then v.rootCluster else dir)) :
    ∀ n i, Overruns ok v d dir n i → ¬ Halts ok (FatLoops.freeIndexFrom v dir n i) d := by
  intro n
  induction n with
  | zero => rintro i ⟨k, hk, _⟩; cases hk
  | succ n ih =>
    intro i h
    rw [FatLoops.freeIndexFrom, halts_lift_bind_iff, (dirRead_noWrites v dir i).readOnly ok d]
    cases hr : (run ok (dirRead v dir i) d).1 with
    | none =>
      simp only [if_neg hdir]
      exact not_halts_bind (not_halts_bind (lastCluster_endless hend))
    | some e =>
      obtain ⟨htail, hused⟩ := h.tail hr
      simp only [if_neg hused]
      exact ih (i + 1) htail

theorem createAt_agrees (hg : Geometry v) (e : Entry) (index : Nat) (data : List UInt8) (d : Disk) :
    Agrees ok (FatLoops.createAt v e index data) (createAt v e index data) d := by
  refine agrees_bind (createLoop_agrees hg data d) ?_
  cases (run ok (createLoop v data (data.length + 2) 0 0 0) d).1 with
  | none => exact agrees_pure _ _
  | some first => exact agrees_lift _ _

end Loops

/-! ## The calls -/

/-- The call with the loops of the source. -/
def loops (v : Vol) : (call : Call) → LoopM call.Result
  | .read name maxSize => FatLoops.fatRead v name maxSize
  | .create name data => FatLoops.fatCreate v name data
  | .delete name => FatLoops.fatDelete v name
  | .list => .lift (fatList v)
  | .mkdir name => FatLoops.fatMkdir v name
  | .rmdir name => FatLoops.fatRmdir v name
  | .chdir name => .lift (fatChdir v name)
  | .getDiskInfo => .lift (fatGetDiskInfo v)

section Calls

variable {ok : Nat → Bool} {v : Vol} {d : Disk}

/-- The scan of the current directory runs into the endless walk. -/
def ScanEndless (ok : Nat → Bool) (v : Vol) (d : Disk) : Prop :=
  ¬ (v.currentCluster = 0 ∧ v.type ≠ .fat32) ∧
  Overruns ok v d v.currentCluster maxDirEntries 0 ∧
  Endless ok v d (dirHandle v v.currentCluster)

/-- The call that never returns: a new name, in a directory without a free entry
    whose chain neither ends nor can be read to the last entry. -/
def Stuck (ok : Nat → Bool) (v : Vol) (d : Disk) : Call → Prop
  | .create name _ => name.chars ≠ [] ∧
      (run ok (findEntry v v.currentCluster name) d).1 = none ∧ ScanEndless ok v d
  | .mkdir name => name.chars ≠ [] ∧
      (run ok (findEntry v v.currentCluster name) d).1 = none ∧ ScanEndless ok v d
  | _ => False

section Geometry

variable (hg : Geometry v)

include hg

theorem freeEntryIndex_agrees (h : ¬ ScanEndless ok v d) :
    Agrees ok (FatLoops.freeEntryIndex v v.currentCluster) (freeEntryIndex v v.currentCluster)
      d := by
  refine freeIndexFrom_agrees hg _ _ fun hover => ?_
  by_cases hfixed : v.currentCluster = 0 ∧ v.type ≠ .fat32
  · exact .inl hfixed
  · refine .inr fun hend => h ⟨hfixed, hover, ?_⟩
    rwa [dirHandle_eq hfixed] at hend

omit hg in
theorem freeEntryIndex_endless (h : ScanEndless ok v d) :
    ¬ Halts ok (FatLoops.freeEntryIndex v v.currentCluster) d := by
  obtain ⟨hfixed, hover, hend⟩ := h
  rw [← dirHandle_eq hfixed] at hend
  exact freeIndexFrom_endless hfixed hend _ _ hover

theorem fatRead_agrees (name : CString) (maxSize : Nat) :
    Agrees ok (FatLoops.fatRead v name maxSize) (fatRead v name maxSize) d := by
  refine agrees_ite (fun _ => agrees_pure _ _) fun _ => agrees_bind (agrees_lift _ _) ?_
  cases (run ok (findEntry v v.currentCluster name) d).1 with
  | none => exact agrees_pure _ _
  | some p =>
    refine agrees_ite (fun _ => agrees_pure _ _) fun _ =>
      agrees_ite (fun _ => agrees_pure _ _) fun _ => ?_
    exact readLoop_agrees hg.perCluster_pos _ _ _ _ (Nat.lt_succ_self _)

theorem fatDelete_agrees (name : CString) :
    Agrees ok (FatLoops.fatDelete v name) (fatDelete v name) d := by
  refine agrees_bind (agrees_lift _ _) ?_
  cases (run ok (findEntry v v.currentCluster name) d).1 with
  | none => exact agrees_pure _ _
  | some p =>
    refine agrees_ite (fun _ => agrees_pure _ _) fun _ => ?_
    exact agrees_bind (freeChain_agrees hg _ _) (agrees_lift _ _)

theorem fatRmdir_agrees (name : CString) :
    Agrees ok (FatLoops.fatRmdir v name) (fatRmdir v name) d := by
  refine agrees_bind (agrees_lift _ _) ?_
  cases (run ok (findEntry v v.currentCluster name) d).1 with
  | none => exact agrees_pure _ _
  | some p =>
    refine agrees_ite (fun _ => agrees_pure _ _) fun _ => agrees_bind (agrees_lift _ _) ?_
    refine agrees_ite (fun _ => ?_) fun _ => agrees_pure _ _
    exact agrees_bind (freeChain_agrees hg _ _) (agrees_lift _ _)

theorem fatCreate_agrees (name : CString) (data : List UInt8)
    (h : ¬ Stuck ok v d (.create name data)) :
    Agrees ok (FatLoops.fatCreate v name data) (fatCreate v name data) d := by
  refine agrees_ite (fun _ => agrees_pure _ _) fun hname => agrees_bind (agrees_lift _ _) ?_
  rw [not_or] at hname
  rw [(findEntry_noWrites v v.currentCluster name).readOnly ok d]
  cases hf : (run ok (findEntry v v.currentCluster name) d).1 with
  | some p =>
    refine agrees_ite (fun _ => agrees_pure _ _) fun _ => ?_
    exact agrees_bind (freeChain_agrees hg _ _) (createAt_agrees hg _ _ _ _)
  | none =>
    refine agrees_bind (freeEntryIndex_agrees hg fun hs => h ⟨hname.2, hf, hs⟩) ?_
    cases (run ok (freeEntryIndex v v.currentCluster) d).1 with
    | none => exact agrees_pure _ _
    | some index => exact createAt_agrees hg _ _ _ _

theorem fatMkdir_agrees (name : CString) (h : ¬ Stuck ok v d (.mkdir name)) :
    Agrees ok (FatLoops.fatMkdir v name) (fatMkdir v name) d := by
  refine agrees_ite (fun _ => agrees_pure _ _) fun hname => agrees_bind (agrees_lift _ _) ?_
  rw [(findEntry_noWrites v v.currentCluster name).readOnly ok d]
  cases hf : (run ok (findEntry v v.currentCluster name) d).1 with
  | some p => exact agrees_pure _ _
  | none =>
    refine agrees_bind (freeEntryIndex_agrees hg fun hs => h ⟨hname, hf, hs⟩) ?_
    refine agrees_bind (agrees_lift _ _) ?_
    cases (run ok (freeEntryIndex v v.currentCluster) d).1 with
    | none => exact agrees_pure _ _
    | some index =>
      refine agrees_ite (fun _ => agrees_pure _ _) fun _ => ?_
      exact agrees_bind (agrees_lift _ _) (agrees_bind (agrees_lift _ _) (agrees_lift _ _))

end Geometry

/-- A call that is not stuck returns, with the result of the bounded model. -/
theorem call_agrees (hm : Mounted v) (call : Call) (h : ¬ Stuck ok v d call) :
    Agrees ok (loops v call) (call.program v) d := by
  have hg := Mounted.geometry hm
  cases call with
  | read name maxSize => exact fatRead_agrees hg name maxSize
  | create name data => exact fatCreate_agrees hg name data h
  | delete name => exact fatDelete_agrees hg name
  | list => exact agrees_lift _ _
  | mkdir name => exact fatMkdir_agrees hg name h
  | rmdir name => exact fatRmdir_agrees hg name
  | chdir name => exact agrees_lift _ _
  | getDiskInfo => exact agrees_lift _ _

/-- A stuck call does not return. -/
theorem stuck_not_halts (hav : v.type ≠ .none) {call : Call} (h : Stuck ok v d call) :
    ¬ Halts ok (loops v call) d := by
  cases call with
  | create name data =>
    obtain ⟨hname, hf, hs⟩ := h
    show ¬ Halts ok (FatLoops.fatCreate v name data) d
    rw [FatLoops.fatCreate, if_neg (not_or.mpr ⟨hav, hname⟩), halts_lift_bind_iff,
      (findEntry_noWrites v v.currentCluster name).readOnly ok d, hf]
    exact not_halts_bind (freeEntryIndex_endless hs)
  | mkdir name =>
    obtain ⟨hname, hf, hs⟩ := h
    show ¬ Halts ok (FatLoops.fatMkdir v name) d
    rw [FatLoops.fatMkdir, if_neg hname, halts_lift_bind_iff,
      (findEntry_noWrites v v.currentCluster name).readOnly ok d, hf]
    exact not_halts_bind (freeEntryIndex_endless hs)
  | read _ _ => cases h
  | delete _ => cases h
  | list => cases h
  | rmdir _ => cases h
  | chdir _ => cases h
  | getDiskInfo => cases h

/-- **Which calls return**: on every mounted volume and every disk, whatever sectors
    it has, all but the stuck ones. -/
theorem call_halts_iff (hm : Mounted v) (ok : Nat → Bool) (d : Disk) (call : Call) :
    Halts ok (loops v call) d ↔ ¬ Stuck ok v d call :=
  ⟨fun h hs => stuck_not_halts (Mounted.available hm) hs h, fun h => (call_agrees hm call h).halts⟩

end Calls

/-! ## A directory that cannot be walked to its end

    A FAT12 disk of 20 sectors.  The directory `D` fills cluster 2, whose successor
    is 0xFF0: no end mark, not a cluster of the volume, its sector beyond the end of
    the disk, and its table entry, in a data sector, is 0xFF0 again. -/

def loopDisk : Disk := fun a =>
  if a = 12 then 2 else if a = 13 then 1 else if a = 14 then 1 else if a = 16 then 1
  else if a = 17 then 16 else if a = 19 then 20 else if a = 22 then 1
  else if a = 510 then 0x55 else if a = 511 then 0xAA
  -- entries 2 and 0xFF0 of the table
  else if a = 515 ∨ a = 6632 then 0xF0 else if a = 516 ∨ a = 6633 then 0x0F
  -- the root directory
  else if a = 1024 then 68 else if 1024 < a ∧ a < 1035 then 32 else if a = 1035 then 0x10
  else if a = 1050 then 2
  -- sixteen entries in use
  else if 1536 ≤ a ∧ a < 2048 ∧ a % 32 = 0 then 65
  else 0

/-- Reads and writes beyond the end of the disk fail. -/
def twentySectors (lba : Nat) : Bool := lba < 20

def loopVol : Vol := (readBpb (loopDisk.sector 0)).toVol 0 (fun _ => 0)

theorem loopVol_mounted : mountSector 0 (loopDisk.sector 0) (fun _ => 0) = some loopVol :=
  if_pos (by decide)

/-- The driver in the directory `D`. -/
def loopVolD : Vol := moved loopVol 2 loopVol.cwd

def nameOfD : CString := ⟨[68], by decide⟩

def newName : CString := ⟨[78], by decide⟩

theorem loop_walk (k) : walk twentySectors loopVolD loopDisk 2 (k + 1) = 0xFF0 := by
  induction k with
  | zero => decide
  | succ k ih =>
    rw [walk, ih]
    decide

theorem loop_entries : ∀ j, j < 16 →
    (run twentySectors (dirRead loopVolD 2 (0 + j)) loopDisk).1.map (fun e => e 0) = some 65 := by
  decide

theorem loop_stuck : Stuck twentySectors loopVolD loopDisk (.create newName []) := by
  refine ⟨by decide, Option.isNone_iff_eq_none.mp (by decide), by decide,
    ⟨16, by decide, Option.isNone_iff_eq_none.mp (by rfl), fun j hj => ?_⟩,
    fun k => ?_⟩
  · obtain ⟨e, he, h65⟩ := Option.map_eq_some_iff.mp (loop_entries j hj)
    exact ⟨e, he, by rw [h65]; decide, by rw [h65]; decide⟩
  · rw [show dirHandle loopVolD loopVolD.currentCluster = 2 by decide, loop_walk k]
    rintro (h | h)
    · cases (show isEoc loopVolD 0xFF0 = false by decide +kernel).symm.trans h
    · exact absurd h (by decide)

/-- `cd D`, then the creation of an empty file runs forever. -/
theorem fatCreate_runs_forever : mountSector 0 (loopDisk.sector 0) (fun _ => 0) = some loopVol ∧
    (run twentySectors (fatChdir loopVol nameOfD) loopDisk).1.map Vol.currentCluster = some 2 ∧
    ¬ Halts twentySectors (loops loopVolD (.create newName [])) loopDisk :=
  ⟨loopVol_mounted, by decide +kernel, stuck_not_halts (by decide +kernel) loop_stuck⟩

/-- In the root directory of that disk it returns. -/
theorem call_halts_iff_loopVol :
    Halts twentySectors (loops loopVol (.create newName [])) loopDisk :=
  (call_halts_iff (Mounted.of_mountSector loopVol_mounted) twentySectors loopDisk _).mpr
    fun h => absurd h.2.2.1 (by decide)

end FatTermination
