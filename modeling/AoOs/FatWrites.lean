import AoOs.BlockHoare
import AoOs.FatRegions

/-! # Where the driver writes

    The operations that change a volume do their work on the table and on data
    clusters first and store directory entries last: each is a plan, which returns
    the entries to store, followed by the `dir_write` calls.  The plan picks its
    clusters itself and cannot leave the areas of the volume.  The directory
    writes follow the chain of a directory, and stay inside as long as that
    chain does. -/

namespace FatWrites

open BlockIO BlockHoare FatTypes FatDriver FatRead FatGeometry FatTable FatRegions
open BlockIO.BlockM (run written)

variable {c dir : Nat} {I : Disk → Prop} {α : Type}

/-! ## Plans -/

/-- A pending `dir_write`: directory, index, entry. -/
abbrev DirWrite := Nat × Nat × Entry

/-- The `dir_write` calls at the end of an operation. -/
def flush (v : Vol) : List DirWrite → BlockM Bool
  | [] => pure false
  | [w] => dirWrite v w.1 w.2.1 w.2.2
  | w :: ws => do
      let _ ← dirWrite v w.1 w.2.1 w.2.2
      flush v ws

/-- `createAt` up to its directory write. -/
def contentsPlan (v : Vol) (e : Entry) (index : Nat) (data : List UInt8) :
    BlockM (List DirWrite) := do
  match ← createLoop v data (data.length + 2) 0 0 0 with
  | none => pure []
  | some first =>
    pure [(v.currentCluster, index, setEntrySize (setEntryCluster v e first) data.length)]

/-- `fat_create` up to its directory write. -/
def createPlan (v : Vol) (name : CString) (data : List UInt8) : BlockM (List DirWrite) := do
  if v.type = .none ∨ name.chars = [] then pure []
  else
    match ← findEntry v v.currentCluster name with
    | some (e, index) =>
      if e.isDirectory then pure []
      else
        freeChain v (entryCluster v e)
        contentsPlan v e index data
    | none =>
      match ← freeEntryIndex v v.currentCluster with
      | none => pure []
      | some index => contentsPlan v (freshEntry (makeSfn name) 0x20) index data

/-- `fat_delete` up to its directory write. -/
def deletePlan (v : Vol) (name : CString) : BlockM (List DirWrite) := do
  match ← findEntry v v.currentCluster name with
  | none => pure []
  | some (e, i) =>
    if e.isDirectory then pure []
    else
      freeChain v (entryCluster v e)
      pure [(v.currentCluster, i, markDeleted e)]

/-- `fat_mkdir` up to its directory writes. -/
def mkdirPlan (v : Vol) (name : CString) : BlockM (List DirWrite) := do
  if name.chars = [] then pure []
  else
    match ← findEntry v v.currentCluster name with
    | some _ => pure []
    | none =>
      let index ← freeEntryIndex v v.currentCluster
      let c ← allocCluster v
      match index with
      | none => pure []
      | some index =>
        if c = 0 then pure []
        else
          let parent := if v.currentCluster = v.rootCluster then 0 else v.currentCluster
          pure [(c, 0, setEntryCluster v (freshEntry dotName 0x10) c),
            (c, 1, setEntryCluster v (freshEntry dotDotName 0x10) parent),
            (v.currentCluster, index, setEntryCluster v (freshEntry (makeSfn name) 0x10) c)]

/-- `fat_rmdir` up to its directory write. -/
def rmdirPlan (v : Vol) (name : CString) : BlockM (List DirWrite) := do
  match ← findEntry v v.currentCluster name with
  | none => pure []
  | some (e, i) =>
    if !e.isDirectory then pure []
    else
      if ← emptyFrom v (entryCluster v e) (maxDirEntries - 2) 2 then
        freeChain v (entryCluster v e)
        pure [(v.currentCluster, i, markDeleted e)]
      else pure []

section Equations

variable (v : Vol) (name : CString)

theorem createAt_eq_plan (e : Entry) (index : Nat) (data : List UInt8) :
    createAt v e index data = contentsPlan v e index data >>= flush v := by
  refine split_bind fun r => ?_
  cases r <;> rfl

theorem fatCreate_eq_plan (data : List UInt8) :
    fatCreate v name data = createPlan v name data >>= flush v := by
  refine split_ite rfl (split_bind fun r => ?_)
  cases r with
  | some p => exact split_ite rfl (split_bind fun _ => createAt_eq_plan v _ _ data)
  | none =>
    refine split_bind fun r => ?_
    cases r with
    | none => rfl
    | some index => exact createAt_eq_plan v _ _ data

theorem fatDelete_eq_plan : fatDelete v name = deletePlan v name >>= flush v := by
  refine split_bind fun r => ?_
  cases r with
  | none => rfl
  | some p => exact split_ite rfl (split_bind fun _ => rfl)

theorem fatMkdir_eq_plan : fatMkdir v name = mkdirPlan v name >>= flush v := by
  refine split_ite rfl (split_bind fun r => ?_)
  cases r with
  | some p => rfl
  | none =>
    refine split_bind fun index => split_bind fun c => ?_
    cases index with
    | none => rfl
    | some index => exact split_ite rfl rfl

theorem fatRmdir_eq_plan : fatRmdir v name = rmdirPlan v name >>= flush v := by
  refine split_bind fun r => ?_
  cases r with
  | none => rfl
  | some p =>
    refine split_ite rfl (split_bind fun empty => split_ite (split_bind fun _ => rfl) rfl)

end Equations

/-! ## Chains that stay among the data clusters -/

/-- The clusters of `S` are data clusters, and a chain that enters `S` does not
    leave it. -/
def Closed (ok : Nat → Bool) (v : Vol) (d : Disk) (S : Set Nat) : Prop :=
  ∀ c ∈ S, validDataCluster v c ∧ (Stops v (fatVal ok v d c) ∨ fatVal ok v d c ∈ S)

def StaysIn (ok : Nat → Bool) (v : Vol) (d : Disk) (c : Nat) : Prop :=
  ∃ S, Closed ok v d S ∧ c ∈ S

/-- A directory whose entries are all where entries may be. -/
def DirSafe (ok : Nat → Bool) (v : Vol) (dir : Nat) (d : Disk) : Prop :=
  (dir = 0 ∧ v.type ≠ .fat32) ∨ StaysIn ok v d (dirHandle v dir)

section Chains

variable {ok : Nat → Bool} {v : Vol} {d d' : Disk}

/-- Walks that stay among the data clusters until they end. -/
theorem staysIn_of_walk (h : ∀ k, (∀ j, j < k → ¬ Stops v (walk ok v d c (j + 1))) →
      validDataCluster v (walk ok v d c k)) : StaysIn ok v d c := by
  refine ⟨{x | ∃ k, (∀ j, j < k → ¬ Stops v (walk ok v d c (j + 1))) ∧ x = walk ok v d c k}, ?_,
    0, (fun j hj => nomatch hj), rfl⟩
  rintro x ⟨k, hk, rfl⟩
  refine ⟨h k hk, ?_⟩
  by_cases hstop : Stops v (walk ok v d c (k + 1))
  · exact .inl hstop
  · refine .inr ⟨k + 1, fun j hj => ?_, rfl⟩
    rcases Nat.lt_succ_iff_lt_or_eq.mp hj with hj | rfl
    · exact hk j hj
    · exact hstop

/-- Entries that are kept, or that end a chain. -/
theorem StaysIn.of_kept_or_stop (h : StaysIn ok v d c) (hval : ∀ k, validDataCluster v k →
      fatVal ok v d' k = fatVal ok v d k ∨ Stops v (fatVal ok v d' k)) : StaysIn ok v d' c := by
  obtain ⟨S, hS, hc⟩ := h
  refine ⟨S, fun k hk => ?_, hc⟩
  obtain ⟨hvalid, hnext⟩ := hS k hk
  refine ⟨hvalid, ?_⟩
  rcases hval k hvalid with heq | hstop
  · rw [heq]
    exact hnext
  · exact .inl hstop

theorem DirSafe.of_kept_or_stop (h : DirSafe ok v dir d) (hval : ∀ k, validDataCluster v k →
      fatVal ok v d' k = fatVal ok v d k ∨ Stops v (fatVal ok v d' k)) : DirSafe ok v dir d' :=
  h.imp id fun hs => hs.of_kept_or_stop hval

/-- A data cluster whose entry ends a chain. -/
theorem staysIn_of_stop (hc : validDataCluster v c) (hstop : Stops v (fatVal ok v d c)) :
    StaysIn ok v d c := by
  refine ⟨{c}, ?_, rfl⟩
  rintro k rfl
  exact ⟨hc, .inl hstop⟩

theorem Laid.value_small (hv : Laid v) (hc : validDataCluster v c)
    (hbig : v.clusterCount + 2 ≤ 2 ^ 28) : c % 16 ^ width v.type = c := by
  obtain ⟨_, hlt⟩ := (hv.valid_iff c).mp hc
  have htype := hv.geometry.type_eq
  refine Nat.mod_eq_of_lt ?_
  by_cases h12 : v.clusterCount < 4085
  · rw [htype, if_pos h12, width]
    omega
  · by_cases h16 : v.clusterCount < 65525
    · rw [htype, if_neg h12, if_pos h16, width]
      omega
    · rw [htype, if_neg h12, if_neg h16]
      simp only [width]
      omega

/-- An entry that is linked to a data cluster at the end of a chain. -/
theorem StaysIn.of_linked (hv : Laid v) {y : Nat} (h : StaysIn ok v d c) (hy : validDataCluster v y)
    (hstop : Stops v (fatVal ok v d y))
    (hval : ∀ k, validDataCluster v k → fatVal ok v d' k = fatVal ok v d k ∨
      fatVal ok v d' k = y % 16 ^ width v.type) : StaysIn ok v d' c := by
  obtain ⟨S, hS, hc⟩ := h
  by_cases hbig : v.clusterCount + 2 ≤ 2 ^ 28
  · rw [Laid.value_small hv hy hbig] at hval
    refine ⟨insert y S, fun k hk => ?_, .inr hc⟩
    rcases hk with rfl | hk
    · refine ⟨hy, ?_⟩
      rcases hval k hy with heq | heq
      · rw [heq]
        exact .inl hstop
      · rw [heq]
        exact .inr (.inl rfl)
    · obtain ⟨hvalid, hnext⟩ := hS k hk
      refine ⟨hvalid, ?_⟩
      rcases hval k hvalid with heq | heq
      · rw [heq]
        exact hnext.imp id .inr
      · rw [heq]
        exact .inr (.inl rfl)
  · -- with that many clusters every table value is a data cluster or ends the chain
    refine ⟨{k | validDataCluster v k}, fun k hk => ⟨hk, ?_⟩, (hS c hc).1⟩
    have hlt : fatVal ok v d' k < 2 ^ 28 :=
      fatVal_lt (by have := hv.geometry.reserved_lt; omega) d' k
    by_cases h2 : fatVal ok v d' k < 2
    · exact .inl (.inr h2)
    · exact .inr ((hv.valid_iff _).mpr ⟨by omega, by omega⟩)

end Chains

/-! ## The plan -/

/-- The sectors a plan writes. -/
def PlanArea (v : Vol) (lba : Nat) : Prop := InFatCopy v lba ∨ InData v lba ∨ IsFsinfo v lba

/-- The directories of `D` are safe. -/
def AllSafe (ok : Nat → Bool) (v : Vol) (D : Set Nat) (d : Disk) : Prop :=
  ∀ dir ∈ D, DirSafe ok v dir d

/-- A condition that looks only at the entries of data clusters. -/
def OfTable (ok : Nat → Bool) (v : Vol) (I : Disk → Prop) : Prop :=
  ∀ d d', (∀ k, validDataCluster v k → fatVal ok v d' k = fatVal ok v d k) → I d → I d'

section OfTable

variable {ok : Nat → Bool} {v : Vol}

theorem ofTable_safe (D : Set Nat) : OfTable ok v (AllSafe ok v D) :=
  fun _ _ h hd dir hdir => (hd dir hdir).of_kept_or_stop fun k hk => .inl (h k hk)

theorem ofTable_stops (hc : validDataCluster v c) :
    OfTable ok v fun d => Stops v (fatVal ok v d c) := by
  intro d d' h hd
  rw [h c hc]
  exact hd

theorem OfTable.and {J : Disk → Prop} (hI : OfTable ok v I) (hJ : OfTable ok v J) :
    OfTable ok v fun d => I d ∧ J d :=
  fun d d' h hd => ⟨hI d d' h hd.1, hJ d d' h hd.2⟩

end OfTable

section Plans

variable {ok : Nat → Bool} {v : Vol} (hv : Laid v) (D : Set Nat) {d : Disk} {p : BlockM α}

include hv

/-- A program that writes nothing of the table keeps what the table says. -/
theorem triple_ofTable {P Q : Nat → Prop} (hI : OfTable ok v I) (hp : WritesIn Q p)
    (hQ : ∀ lba, Q lba → P lba ∧ ¬ InFatCopy v lba) : Triple ok P I p fun _ => I := by
  intro d hd
  refine ⟨fun lba hl => (hQ lba (hp ok d lba hl)).1, hI d _ (fun k hk => ?_) hd⟩
  exact hv.fatVal_frame hp (fun lba hl => (hQ lba hl).2) ok d hk

theorem triple_fsinfoAdjust (hI : OfTable ok v I) (delta next : Nat) :
    Triple ok (PlanArea v) I (fsinfoAdjust v delta next) fun _ => I := by
  refine triple_ofTable hv hI (fsinfoAdjust_writesIn v delta next) fun lba h => ?_
  obtain ⟨ht, heq, hlt⟩ := h
  refine ⟨.inr (.inr ⟨ht, heq⟩), ?_⟩
  rintro ⟨i, _, hlow, _⟩
  omega

theorem triple_data (hI : OfTable ok v I) (hp : WritesIn (InData v) p) :
    Triple ok (PlanArea v) I p fun _ => I :=
  triple_ofTable hv hI hp fun _ h => ⟨.inr (.inl h), hv.not_copy_of_data h⟩

/-- A store that ends a chain. -/
theorem triple_fatSet_stop {value : Nat} (hc : validDataCluster v c)
    (hvalue : Stops v (value % 16 ^ width v.type)) :
    Triple ok (PlanArea v) (AllSafe ok v D) (fatSet v c value) fun _ => AllSafe ok v D := by
  intro d hd
  refine ⟨fun lba hl => .inl (hv.fatSet_writesIn hc value ok d lba hl), fun dir hdir =>
    (hd dir hdir).of_kept_or_stop fun k hk => ?_⟩
  rcases hv.fatVal_fatSet ok d value hc hk with heq | heq
  · exact .inl heq
  · rw [heq]
    exact .inr hvalue

/-- A store that links to the end of a chain. -/
theorem triple_fatSet_link {y : Nat} (hc : validDataCluster v c) (hy : validDataCluster v y) :
    Triple ok (PlanArea v) (fun d => AllSafe ok v D d ∧ Stops v (fatVal ok v d y)) (fatSet v c y)
      fun _ => AllSafe ok v D := by
  rintro d ⟨hd, hstop⟩
  refine ⟨fun lba hl => .inl (hv.fatSet_writesIn hc y ok d lba hl), fun dir hdir =>
    (hd dir hdir).imp id fun hs => ?_⟩
  exact hs.of_linked hv hy hstop fun k hk => hv.fatVal_fatSet ok d y hc hk

theorem stops_eocValue : Stops v (eocValue v % 16 ^ width v.type) := by
  have htype := hv.geometry.available
  left
  rw [isEoc, eocMin, eocValue]
  cases ht : v.type with
  | none => exact absurd ht htype
  | fat12 => rfl
  | fat16 => rfl
  | fat32 => rfl

theorem zeroFrom_writesIn (hc : validDataCluster v c) (n s) (hs : s + n ≤ v.sectorsPerCluster) :
    WritesIn (InData v) (zeroFrom v c n s) := by
  induction n generalizing s with
  | zero => exact writesIn_pure _
  | succ n ih =>
    refine writesIn_bind (writesIn_writeSector _ (hv.inData_cluster hc (by omega))) fun _ => ?_
    exact writesIn_ite (fun _ => ih (s + 1) (by omega)) fun _ => writesIn_pure _

theorem writeCluster_writesIn (hc : validDataCluster v c) (data : List UInt8) (n s w)
    (hs : s + n ≤ v.sectorsPerCluster) : WritesIn (InData v) (writeCluster v c data n s w) := by
  induction n generalizing s w with
  | zero => exact writesIn_pure _
  | succ n ih =>
    refine writesIn_ite (fun _ => ?_) fun _ => writesIn_pure _
    refine writesIn_bind (writesIn_writeSector _ (hv.inData_cluster hc (by omega))) fun _ => ?_
    exact writesIn_ite (fun _ => ih (s + 1) _ (by omega)) fun _ => writesIn_pure _

/-- What `alloc_cluster` returns: a data cluster whose entry ends a chain. -/
def Fresh (ok : Nat → Bool) (v : Vol) (c : Nat) (d : Disk) : Prop :=
  c ≠ 0 → validDataCluster v c ∧ Stops v (fatVal ok v d c)

omit hv in
/-- Use of a cluster that `alloc_cluster` has returned. -/
theorem triple_fresh {post : α → Disk → Prop} (h0 : c ≠ 0) (h : validDataCluster v c →
      Triple ok (PlanArea v) (fun d => AllSafe ok v D d ∧ Stops v (fatVal ok v d c)) p post) :
    Triple ok (PlanArea v) (fun d => AllSafe ok v D d ∧ Fresh ok v c d) p post :=
  fun d hd => h (hd.2 h0).1 d ⟨hd.1, (hd.2 h0).2⟩

theorem triple_allocFrom (n c) (h2 : 2 ≤ c) (hn : c + n = v.clusterCount + 2) :
    Triple ok (PlanArea v) (AllSafe ok v D) (allocFrom v n c)
        fun r d => AllSafe ok v D d ∧ Fresh ok v r d := by
  induction n generalizing c with
  | zero =>
    exact triple_pure fun d hd => ⟨hd, fun h => absurd rfl h⟩
  | succ n ih =>
    have hc : validDataCluster v c := (hv.valid_iff c).mpr ⟨h2, by omega⟩
    -- what holds from the moment the entry is marked
    have hI : OfTable ok v fun d => AllSafe ok v D d ∧ Stops v (fatVal ok v d c) :=
      (ofTable_safe D).and (ofTable_stops hc)
    have hzero : Triple ok (PlanArea v) (fun d => AllSafe ok v D d ∧ Stops v (fatVal ok v d c))
        (zeroFrom v c v.sectorsPerCluster 0)
        fun _ d => AllSafe ok v D d ∧ Stops v (fatVal ok v d c) :=
      triple_data hv hI (zeroFrom_writesIn hv hc _ _ (by omega))
    rw [allocFrom]
    refine triple_bind (triple_noWrites (fatGet_noWrites v c)) fun r => triple_ite (fun h0 => ?_) ?_
    · -- a free entry, and then the mark: the chain ends here either way
      have hmark : Triple ok (PlanArea v)
          (fun d => AllSafe ok v D d ∧ r = (run ok (fatGet v c) d).1) (fatSet v c (eocValue v))
          fun _ d => AllSafe ok v D d ∧ Stops v (fatVal ok v d c) := by
        rintro d ⟨hd, hr⟩
        obtain ⟨hw, hsafe⟩ := triple_fatSet_stop hv D hc (stops_eocValue hv) d hd
        refine ⟨hw, hsafe, ?_⟩
        rcases hv.fatVal_fatSet ok d (eocValue v) hc hc with heq | heq
        · rw [heq, fatVal, ← hr, h0]
          exact .inr (by decide)
        · rw [heq]
          exact stops_eocValue hv
      refine triple_bind hmark fun set => triple_ite (fun _ => ?_) fun _ => ?_
      · refine triple_bind hzero fun filled => triple_ite (fun _ => ?_) fun _ => ?_
        · refine triple_bind (triple_fsinfoAdjust hv hI _ _) fun _ => ?_
          exact triple_pure fun d hd => ⟨hd.1, fun _ => ⟨hc, hd.2⟩⟩
        · exact triple_pure fun d hd => ⟨hd.1, fun h => absurd rfl h⟩
      · exact triple_pure fun d hd => ⟨hd.1, fun h => absurd rfl h⟩
    · intro _
      exact (ih (c + 1) (by omega) (by omega)).of_left

theorem triple_allocCluster : Triple ok (PlanArea v) (AllSafe ok v D) (allocCluster v)
      fun r d => AllSafe ok v D d ∧ Fresh ok v r d := by
  refine triple_allocFrom hv D _ 2 (Nat.le_refl 2) ?_
  have := hv.clusterLimit_eq
  omega

theorem triple_freeChainFrom (n c) : Triple ok (PlanArea v) (AllSafe ok v D) (freeChainFrom v n c)
      fun _ => AllSafe ok v D := by
  induction n generalizing c with
  | zero => exact triple_skip _
  | succ n ih =>
    refine triple_ite (fun hc => ?_) fun _ => triple_skip _
    refine triple_after_read (fatGet_noWrites v c) fun next => ?_
    have hfree : Triple ok (PlanArea v) (AllSafe ok v D) (fatSet v c 0)
        fun _ => AllSafe ok v D :=
      triple_fatSet_stop hv D hc (.inr (by rw [Nat.zero_mod]; decide))
    refine triple_bind hfree fun _ => triple_bind (triple_fsinfoAdjust hv (ofTable_safe D) _ _)
      fun _ => ?_
    exact triple_ite (fun _ => triple_skip _) fun _ => ih next

omit hv in
theorem lastCluster_noWrites (v : Vol) (n c) : NoWrites (lastCluster v n c) := by
  induction n generalizing c with
  | zero => exact noWrites_pure _
  | succ n ih =>
    refine noWrites_bind (fatGet_noWrites v c) fun next => ?_
    exact noWrites_ite (noWrites_pure _) (noWrites_ite (noWrites_pure _) (ih next))

omit hv in
theorem emptyFrom_noWrites (v : Vol) (c : Nat) (n j) : NoWrites (emptyFrom v c n j) := by
  induction n generalizing j with
  | zero => exact noWrites_pure _
  | succ n ih =>
    refine noWrites_option (dirRead_noWrites v c j) (noWrites_pure _) fun e => ?_
    exact noWrites_ite (noWrites_pure _) (noWrites_ite (noWrites_pure _) (ih _))

omit hv in
/-- The last cluster of a chain that stays in is a data cluster. -/
theorem lastCluster_valid {S : Set Nat} (hS : Closed ok v d S) (n c r) (hc : c ∈ S)
    (h : (run ok (lastCluster v n c) d).1 = some r) : validDataCluster v r := by
  induction n generalizing c r with
  | zero => cases h
  | succ n ih =>
    obtain ⟨hvalid, hnext⟩ := hS c hc
    rw [lastCluster, run_bind, run_fatGet] at h
    by_cases heoc : isEoc v (fatVal ok v d c)
    · simp only [if_pos heoc] at h
      cases h
      exact hvalid
    · by_cases h2 : fatVal ok v d c < 2
      · simp only [if_neg heoc, if_pos h2] at h
        cases h
      · simp only [if_neg heoc, if_neg h2] at h
        exact ih _ r (hnext.resolve_left (not_or.mpr ⟨heoc, h2⟩)) h

theorem triple_growDirectory (hdir : dir ∈ D) (hfixed : ¬ (dir = 0 ∧ v.type ≠ .fat32)) :
    Triple ok (PlanArea v) (AllSafe ok v D) (growDirectory v dir) fun _ => AllSafe ok v D := by
  have hlast : Triple ok (PlanArea v) (AllSafe ok v D)
      (lastCluster v walkFuel (if dir = 0 then v.rootCluster else dir))
      fun r d => AllSafe ok v D d ∧ ∀ c ∈ r, validDataCluster v c := by
    intro d hd
    have hn := lastCluster_noWrites v walkFuel (if dir = 0 then v.rootCluster else dir)
    obtain ⟨hw, _, _⟩ : _ ∧ _ ∧ _ := (triple_noWrites hn : Triple ok (PlanArea v) _ _ _) d hd
    rw [hn.readOnly ok d]
    rw [dirHandle_eq hfixed] at *
    obtain ⟨S, hS, hc⟩ := (hd dir hdir).resolve_left hfixed
    exact ⟨hw, hd, fun c hmem => lastCluster_valid hS _ _ c hc hmem⟩
  rw [growDirectory]
  refine triple_bind hlast fun r => ?_
  cases r with
  | none => exact triple_pure fun _ hd => hd.1
  | some c =>
    refine triple_fact fun hc => triple_bind (triple_allocCluster hv D) fun added => ?_
    refine triple_ite (fun _ => triple_pure fun _ hd => hd.1) fun h0 => ?_
    refine triple_fresh D h0 fun hadded => ?_
    exact triple_fatSet_link hv D (hc c rfl) hadded

theorem triple_freeIndexFrom (hdir : dir ∈ D) (n i) :
    Triple ok (PlanArea v) (AllSafe ok v D) (freeIndexFrom v dir n i) fun _ => AllSafe ok v D := by
  induction n generalizing i with
  | zero => exact triple_skip _
  | succ n ih =>
    refine triple_after_read (dirRead_noWrites v dir i) fun r => ?_
    cases r with
    | none =>
      refine triple_ite (fun _ => triple_skip _) fun hfixed => ?_
      refine triple_bind (triple_growDirectory hv D hdir hfixed) fun _ => ?_
      exact triple_ite (fun _ => triple_skip _) fun _ => triple_skip _
    | some e => exact triple_ite (fun _ => triple_skip _) fun _ => ih (i + 1)

theorem triple_createLoop (data : List UInt8) (n first prev written)
    (hprev : (prev ≠ 0 → validDataCluster v prev)) :
    Triple ok (PlanArea v) (AllSafe ok v D) (createLoop v data n first prev written)
        fun _ => AllSafe ok v D := by
  induction n generalizing first prev written with
  | zero => exact triple_skip _
  | succ n ih =>
    have hrelease : ∀ c, Triple ok (PlanArea v) (AllSafe ok v D)
        (do freeChain v c; pure none : BlockM (Option Nat)) fun _ => AllSafe ok v D :=
      fun c => triple_bind (triple_freeChainFrom hv D _ c) fun _ => triple_skip _
    rw [createLoop]
    refine triple_ite (fun _ => ?_) fun _ => triple_skip _
    refine triple_bind (triple_allocCluster hv D) fun c => triple_ite (fun _ => ?_) fun h0 => ?_
    · exact (hrelease first).of_left
    · refine triple_fresh D h0 fun hc => ?_
      -- what follows the link is the same with and without one
      have hrest : ∀ linked, Triple ok (PlanArea v) (AllSafe ok v D)
          (if (!linked) then
            (do freeChain v (if first = 0 then c else first); pure none : BlockM (Option Nat))
          else do
            match ← writeCluster v c data v.sectorsPerCluster 0 written with
            | none =>
              freeChain v (if first = 0 then c else first)
              pure none
            | some written => createLoop v data n (if first = 0 then c else first) c written)
          fun _ => AllSafe ok v D := by
        intro linked
        refine triple_ite (fun _ => hrelease _) fun _ => ?_
        refine triple_bind (triple_data hv (ofTable_safe D)
          (writeCluster_writesIn hv hc data _ _ _ (by omega))) fun r => ?_
        cases r with
        | none => exact hrelease _
        | some w => exact ih _ c w fun _ => hc
      by_cases hp : prev ≠ 0
      · simp only [if_pos hp]
        exact triple_bind (triple_fatSet_link hv D (hprev hp) hc) hrest
      · simp only [if_neg hp]
        exact (hrest true).of_left

/-! ## Directory writes -/

/-- The sectors of directories. -/
def DirArea (v : Vol) (lba : Nat) : Prop := InRootArea v lba ∨ InData v lba

omit hv in
theorem skipClusters_closed {S : Set Nat} (hS : Closed ok v d S) (n c r) (hc : c ∈ S)
    (h : (run ok (skipClusters v n c) d).1 = some r) : r ∈ S := by
  induction n generalizing c r with
  | zero =>
    cases h
    exact hc
  | succ n ih =>
    rw [skipClusters, run_bind, run_fatGet] at h
    by_cases hstop : isEoc v (fatVal ok v d c) ∨ fatVal ok v d c < 2
    · simp only [if_pos hstop] at h
      cases h
    · simp only [if_neg hstop] at h
      exact ih _ r ((hS c hc).2.resolve_left hstop) h

/-- The entries of a safe directory are in directory sectors. -/
theorem dirLocation_area {index sector offset : Nat} (hd : DirSafe ok v dir d)
    (h : (run ok (dirLocation v dir index) d).1 = some (sector, offset)) : DirArea v sector := by
  have hg := hv.geometry
  rw [dirLocation] at h
  by_cases hfixed : dir = 0 ∧ v.type ≠ .fat32
  · rw [if_pos hfixed] at h
    by_cases hend : v.rootEntries ≤ index
    · rw [if_pos hend] at h
      cases h
    · rw [if_neg hend] at h
      cases h
      have hroot := hg.rootSectors_eq
      have hfits := hv.fits
      rw [metaSectors] at hfits
      rw [u32_of_lt (by omega)]
      left
      rw [InRootArea, metaSectors]
      omega
  · rw [if_neg hfixed, run_bind, dirHandle_eq hfixed] at h
    obtain ⟨S, hS, hc⟩ := hd.resolve_left hfixed
    cases hr : (run ok (skipClusters v (index / perCluster v) (dirHandle v dir)) d).1 with
    | none =>
      rw [hr] at h
      cases h
    | some c =>
      rw [hr] at h
      cases h
      have hvalid := (hS c (skipClusters_closed hS _ _ c hc hr)).1
      have hlt : index % perCluster v < perCluster v :=
        Nat.mod_lt _ (by rw [perCluster]; have := hg.perCluster_pos; omega)
      rw [perCluster] at hlt
      exact .inr (hv.inData_cluster hvalid (by rw [perCluster]; omega))

theorem triple_dirWrite (hdir : dir ∈ D) (index : Nat) (e : Entry) :
    Triple ok (DirArea v) (AllSafe ok v D) (dirWrite v dir index e) fun _ => AllSafe ok v D := by
  have hloc : Triple ok (DirArea v) (AllSafe ok v D) (dirLocation v dir index)
      fun r d => AllSafe ok v D d ∧ ∀ loc ∈ r, DirArea v loc.1 := by
    intro d hd
    have hno := dirLocation_noWrites v dir index
    rw [hno ok d, hno.readOnly ok d]
    exact ⟨fun _ hl => (nomatch hl), hd, fun loc hmem => dirLocation_area hv (hd dir hdir) hmem⟩
  refine triple_bind hloc fun r => ?_
  cases r with
  | none => exact triple_pure fun _ hd => hd.1
  | some loc =>
    refine triple_fact fun harea => triple_after_read (noWrites_readSector _) fun r => ?_
    cases r with
    | none => exact triple_skip _
    | some sec =>
      refine triple_ofTable hv (ofTable_safe D) (writesIn_writeSector _ (harea loc rfl))
        fun lba hl => ⟨hl, ?_⟩
      rcases hl with h | h
      · exact h.not_copy
      · exact hv.not_copy_of_data h

theorem triple_flush : ∀ ws : List DirWrite, (∀ w ∈ ws, w.1 ∈ D) →
    Triple ok (DirArea v) (AllSafe ok v D) (flush v ws) fun _ => AllSafe ok v D := by
  intro ws
  induction ws with
  | nil => intro _; exact triple_skip _
  | cons w ws ih =>
    intro hws
    have hw : Triple ok _ _ (dirWrite v w.1 w.2.1 w.2.2) _ :=
      triple_dirWrite hv D (hws w List.mem_cons_self) w.2.1 w.2.2
    cases ws with
    | nil => exact hw
    | cons w' ws' =>
      exact triple_bind hw fun _ => ih fun x hx => hws x (List.mem_cons_of_mem _ hx)

/-! ## The plans of the operations -/

/-- What a plan leaves: safe directories for the writes it asks for. -/
def Planned (ok : Nat → Bool) (v : Vol) (ws : List DirWrite) (d : Disk) : Prop :=
  ∃ D, AllSafe ok v D d ∧ ∀ w ∈ ws, w.1 ∈ D

omit hv in
/-- A plan that ends without a directory write. -/
theorem triple_planned_nil {P : Nat → Prop} :
    Triple ok P (AllSafe ok v D) (pure []) (Planned ok v) :=
  triple_pure fun _ h => ⟨D, h, fun _ hw => nomatch hw⟩

omit hv in
theorem planned_one (hdir : dir ∈ D) (index : Nat) (e : Entry) (h : AllSafe ok v D d) :
    Planned ok v [(dir, index, e)] d := by
  refine ⟨D, h, fun w hw => ?_⟩
  rw [List.mem_singleton.mp hw]
  exact hdir

variable (hcur : v.currentCluster ∈ D) (name : CString)

include hcur

theorem triple_contentsPlan (e : Entry) (index : Nat) (data : List UInt8) :
    Triple ok (PlanArea v) (AllSafe ok v D) (contentsPlan v e index data) (Planned ok v) := by
  refine triple_bind (triple_createLoop hv D data _ 0 0 0 fun h => absurd rfl h) fun r => ?_
  cases r with
  | none => exact triple_planned_nil D
  | some first => exact triple_pure fun _ hd => planned_one D hcur _ _ hd

theorem triple_createPlan (data : List UInt8) :
    Triple ok (PlanArea v) (AllSafe ok v D) (createPlan v name data) (Planned ok v) := by
  refine triple_ite (fun _ => triple_planned_nil D) fun _ => ?_
  refine triple_after_read (findEntry_noWrites v _ name) fun r => ?_
  cases r with
  | some p =>
    refine triple_ite (fun _ => triple_planned_nil D) fun _ => ?_
    exact triple_bind (triple_freeChainFrom hv D _ _) fun _ => triple_contentsPlan hv D hcur _ _ _
  | none =>
    refine triple_bind (triple_freeIndexFrom hv D hcur _ _) fun r => ?_
    cases r with
    | none => exact triple_planned_nil D
    | some index => exact triple_contentsPlan hv D hcur _ _ _

theorem triple_deletePlan :
    Triple ok (PlanArea v) (AllSafe ok v D) (deletePlan v name) (Planned ok v) := by
  refine triple_after_read (findEntry_noWrites v _ name) fun r => ?_
  cases r with
  | none => exact triple_planned_nil D
  | some p =>
    refine triple_ite (fun _ => triple_planned_nil D) fun _ => ?_
    refine triple_bind (triple_freeChainFrom hv D _ _) fun _ => ?_
    exact triple_pure fun _ hd => planned_one D hcur _ _ hd

theorem triple_rmdirPlan :
    Triple ok (PlanArea v) (AllSafe ok v D) (rmdirPlan v name) (Planned ok v) := by
  refine triple_after_read (findEntry_noWrites v _ name) fun r => ?_
  cases r with
  | none => exact triple_planned_nil D
  | some p =>
    refine triple_ite (fun _ => triple_planned_nil D) fun _ => ?_
    refine triple_after_read (emptyFrom_noWrites v _ _ _) fun _ => ?_
    refine triple_ite (fun _ => ?_) fun _ => triple_planned_nil D
    refine triple_bind (triple_freeChainFrom hv D _ _) fun _ => ?_
    exact triple_pure fun _ hd => planned_one D hcur _ _ hd

theorem triple_mkdirPlan :
    Triple ok (PlanArea v) (AllSafe ok v D) (mkdirPlan v name) (Planned ok v) := by
  refine triple_ite (fun _ => triple_planned_nil D) fun _ => ?_
  refine triple_after_read (findEntry_noWrites v _ name) fun r => ?_
  cases r with
  | some p => exact triple_planned_nil D
  | none =>
    refine triple_bind (triple_freeIndexFrom hv D hcur _ _) fun index => ?_
    refine triple_bind (triple_allocCluster hv D) fun c => ?_
    cases index with
    | none => exact (triple_planned_nil D).of_left
    | some index =>
      refine triple_ite (fun _ => (triple_planned_nil D).of_left) fun h0 => ?_
      -- the new directory is safe too: one cluster, at the end of its chain
      refine triple_pure fun d hd => ⟨insert c D, ?_, ?_⟩
      · obtain ⟨hc, hstop⟩ := hd.2 h0
        rintro dir (rfl | hdir)
        · refine .inr ?_
          rw [dirHandle, if_neg fun h => h0 h.1]
          exact staysIn_of_stop hc hstop
        · exact hd.1 dir hdir
      · intro w hw
        simp only [List.mem_cons, List.not_mem_nil, or_false] at hw
        rcases hw with rfl | rfl | rfl
        · exact .inl rfl
        · exact .inl rfl
        · exact .inr hcur

end Plans

end FatWrites
