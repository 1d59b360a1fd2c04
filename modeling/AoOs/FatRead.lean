import AoOs.FatDriver
import AoOs.BrentWalk

/-! # Reading a file — what `fat_read` accepts, on any volume

    Nothing here assumes that the FAT makes sense.  For an arbitrary disk, an
    arbitrary set of failing sectors and an arbitrary directory entry,
    `run_readLoop` says exactly when the cluster loop of `fat_read` returns 0
    and what it has copied then: the walk along `fat_get` must supply `n` data
    clusters, `n` the number of clusters the entry's size needs, every sector
    must be readable, and no step may meet the moving anchor.

    The anchor is `BrentWalk`'s, so a chain that runs into a cycle is let
    through for a while: `fatRead_noRepeat_iff` is the exact condition. -/

namespace FatRead

open BlockIO BlockM FatTypes FatDriver BrentWalk

variable {dir n : Nat} {name : CString} {e : Entry} {v : Vol}

/-- A volume as `mount_drive` sets it up, in any current directory. -/
def Mounted (v : Vol) : Prop :=
  ∃ drive sector cwd, ∃ v₀, mountSector drive sector cwd = some v₀ ∧
    v = { v₀ with currentCluster := v.currentCluster, cwd := v.cwd }

theorem Mounted.of_mountSector {drive : Nat} {sector : Sector} {cwd : Nat → UInt8}
    (h : mountSector drive sector cwd = some v) : Mounted v := by
  refine ⟨drive, sector, cwd, v, h, ?_⟩
  cases v
  rfl

/-- A mounted volume is the geometry of a boot sector that passed the checks. -/
theorem mountSector_eq_some {drive : Nat} {sector : Sector} {cwd : Nat → UInt8}
    (h : mountSector drive sector cwd = some v) :
    (readBpb sector).accepted ∧ v = (readBpb sector).toVol drive cwd := by
  unfold mountSector at h
  split at h
  · rename_i hc
    exact ⟨hc.2.2, (Option.some.inj h).symm⟩
  · cases h

theorem type_ne_none (b : Bpb) : b.type ≠ .none := by
  unfold Bpb.type
  split
  · exact FatType.noConfusion
  · split
    · exact FatType.noConfusion
    · exact FatType.noConfusion

theorem Mounted.spc_pos (h : Mounted v) : 0 < v.sectorsPerCluster := by
  obtain ⟨_, _, _, v₀, hm, hv⟩ := h
  obtain ⟨hacc, hv₀⟩ := mountSector_eq_some hm
  rw [hv, hv₀]
  simp only [Bpb.accepted, Bool.and_eq_true, bne_iff_ne] at hacc
  exact Nat.pos_of_ne_zero hacc.1.1.1.1.1.2

theorem Mounted.available (h : Mounted v) : v.type ≠ .none := by
  obtain ⟨_, _, _, v₀, hm, hv⟩ := h
  rw [hv, (mountSector_eq_some hm).2]
  exact type_ne_none _

theorem le32_lt (a b c e : UInt8) : le32 a b c e < 2 ^ 32 := by
  have ha := a.toNat_lt
  have hb := b.toNat_lt
  have hc := c.toNat_lt
  have he := e.toNat_lt
  unfold le32
  omega

theorem size_lt (e : Entry) : e.size < 2 ^ 32 := le32_lt _ _ _ _

/-! ## The reading functions only read -/

variable (v)

theorem fatGet_noWrites (c : Nat) : NoWrites (fatGet v c) := by
  refine noWrites_bind (noWrites_readSector _) ?_
  rintro (_ | sec)
  · exact noWrites_pure _
  refine noWrites_ite (noWrites_ite (noWrites_bind (noWrites_readSector _) ?_) (noWrites_pure _))
    (noWrites_ite (noWrites_pure _) (noWrites_pure _))
  rintro (_ | next)
  · exact noWrites_pure _
  · exact noWrites_pure _

theorem skipClusters_noWrites : ∀ n c, NoWrites (skipClusters v n c) := by
  intro n
  induction n with
  | zero => exact fun c => noWrites_pure _
  | succ n ih =>
    exact fun c => noWrites_bind (fatGet_noWrites v c) fun next =>
      noWrites_ite (noWrites_pure _) (ih next)

theorem dirLocation_noWrites (dir index : Nat) : NoWrites (dirLocation v dir index) := by
  refine noWrites_ite (noWrites_ite (noWrites_pure _) (noWrites_pure _)) ?_
  refine noWrites_bind (skipClusters_noWrites v _ _) ?_
  rintro (_ | c)
  · exact noWrites_pure _
  · exact noWrites_pure _

theorem dirRead_noWrites (dir index : Nat) : NoWrites (dirRead v dir index) := by
  refine noWrites_bind (dirLocation_noWrites v dir index) ?_
  rintro (_ | loc)
  · exact noWrites_pure _
  refine noWrites_bind (noWrites_readSector _) ?_
  rintro (_ | sec)
  · exact noWrites_pure _
  · exact noWrites_pure _

theorem findFrom_noWrites (dir : Nat) (name : CString) :
    ∀ n i, NoWrites (findFrom v dir name n i) := by
  intro n
  induction n with
  | zero => exact fun i => noWrites_pure _
  | succ n ih =>
    intro i
    refine noWrites_bind (dirRead_noWrites v dir i) ?_
    rintro (_ | e)
    · exact noWrites_pure _
    · exact noWrites_ite (noWrites_pure _)
        (noWrites_ite (ih _) (noWrites_ite (noWrites_pure _) (ih _)))

theorem findEntry_noWrites (dir : Nat) (name : CString) :
    NoWrites (findEntry v dir name) := findFrom_noWrites v dir name _ _

variable {v} {i : Nat} {d : Disk}

/-- One step of `find_entry` past an entry it does not want. -/
theorem exec_findFrom_skip (hread : exec (dirRead v dir i) d = (some e, d)) (h0 : e 0 ≠ 0)
    (hno : skipped e ∨ nameMatch e name = false) :
    exec (findFrom v dir name (n + 1) i) d = exec (findFrom v dir name n (i + 1)) d := by
  rw [findFrom, exec_bind, hread]
  show exec (if e 0 = 0 then _ else _) d = _
  rw [if_neg h0]
  by_cases hs : skipped e
  · rw [if_pos hs]
  · rw [if_neg hs, hno.resolve_left hs]
    rfl

/-- The step of `find_entry` that finds. -/
theorem exec_findFrom_hit (hread : exec (dirRead v dir i) d = (some e, d)) (h0 : e 0 ≠ 0)
    (hs : skipped e = false) (hm : nameMatch e name) :
    exec (findFrom v dir name (n + 1) i) d = (some (e, i), d) := by
  rw [findFrom, exec_bind, hread]
  show exec (if e 0 = 0 then _ else _) d = _
  rw [if_neg h0, hs, hm]
  rfl

/-- The scan of `find_entry` ends at an unreadable or a never used entry. -/
theorem exec_findFrom_end {o : Option Entry} (hread : exec (dirRead v dir i) d = (o, d))
    (h0 : ∀ e ∈ o, e 0 = 0) : exec (findFrom v dir name (n + 1) i) d = (none, d) := by
  rw [findFrom, exec_bind, hread]
  cases o with
  | none => rfl
  | some e =>
    show exec (if e 0 = 0 then _ else _) d = _
    rw [if_pos (h0 e rfl)]
    rfl

/-! ## The walk and the file it spells -/

section Walk

variable (ok : Nat → Bool) (v : Vol) (d : Disk)

/-- The value `fat_get` returns for a cluster. -/
def fatVal (c : Nat) : Nat := (run ok (fatGet v c) d).1

theorem run_fatGet (c : Nat) : run ok (fatGet v c) d = (fatVal ok v d c, d) :=
  (fatGet_noWrites v c).readOnly.run_eq ok d

/-- The clusters that repeated `fat_get` visits, starting at `c`. -/
def walk (c : Nat) : Nat → Nat
  | 0 => c
  | i + 1 => fatVal ok v d (walk c i)

/-- A table value at which a walk along a chain ends: an end mark, or no cluster. -/
def Stops (next : Nat) : Prop := isEoc v next ∨ next < 2

@[simp] theorem walk_zero (c : Nat) : walk ok v d c 0 = c := rfl

theorem walk_orbit (c : Nat) : Orbit (walk ok v d c) :=
  orbit_of_step (f := fatVal ok v d) (fun _ => rfl)

/-- Bytes per cluster. -/
def clusterBytes : Nat := 512 * v.sectorsPerCluster

/-- The number of clusters a file of `size` bytes needs. -/
def clustersFor (size : Nat) : Nat := (size + clusterBytes v - 1) / clusterBytes v

/-- Byte `k` of the sectors of the walk's clusters laid end to end. -/
def fileByte (c k : Nat) : UInt8 :=
  d (512 * u32 (clusterSector v (walk ok v d c (k / clusterBytes v))
    + k % clusterBytes v / 512) + k % 512)

/-- Every sector that a file of `size` bytes uses of the cluster at byte `base`
    of the file is readable. -/
def SectorsOk (c base size : Nat) : Prop :=
  ∀ t < v.sectorsPerCluster, base + 512 * t < size → ok (u32 (clusterSector v c + t))

instance (c base size : Nat) : Decidable (SectorsOk ok v c base size) := Nat.decidableBallLT _ _

end Walk

section Loop

variable {ok : Nat → Bool} {v : Vol} {d : Disk}

theorem lt_clustersFor (h : 0 < v.sectorsPerCluster) (i size : Nat) :
    i < clustersFor v size ↔ i * clusterBytes v < size := by
  have hcb : 0 < clusterBytes v := by unfold clusterBytes; omega
  unfold clustersFor
  rw [Nat.lt_iff_add_one_le, Nat.le_div_iff_mul_le hcb, Nat.succ_mul]
  omega

/-- A tabulated prefix, extended by the next `b` values. -/
theorem map_range_add (g : Nat → UInt8) (a b : Nat) : (List.range (a + b)).map g
      = (List.range a).map g ++ (List.range b).map (fun i => g (a + i)) := by
  rw [List.range_add, List.map_append, List.map_map]
  rfl

/-- The sector loop inside one cluster: it extends the copied bytes by the
    cluster's share of the file, or fails at the first unreadable sector. -/
theorem run_readCluster {c base size : Nat} {g : Nat → UInt8}
    (hg : ∀ t i, t < v.sectorsPerCluster → i < 512 →
      g (base + 512 * t + i) = d (512 * u32 (clusterSector v c + t) + i)) :
    ∀ n s, s + n = v.sectorsPerCluster →
      run ok (readCluster v c size n s (min size (base + 512 * s))
          ((List.range (min size (base + 512 * s))).map g)) d =
        (if ∀ t < v.sectorsPerCluster, s ≤ t → base + 512 * t < size →
            ok (u32 (clusterSector v c + t)) then
          some (min size (base + clusterBytes v),
            (List.range (min size (base + clusterBytes v))).map g)
        else none, d) := by
  intro n
  induction n with
  | zero =>
    intro s hs
    rw [if_pos fun t h1 h2 => by omega, clusterBytes, ← hs, Nat.add_zero]
    rfl
  | succ n ih =>
    intro s hs
    rw [readCluster]
    by_cases hlt : base + 512 * s < size
    · have hnext : base + 512 * s + min (size - (base + 512 * s)) 512 =
          min size (base + 512 * (s + 1)) := by omega
      -- one more sector: the bytes of the file up to the next sector boundary
      have hcopy : (List.range (base + 512 * s)).map g ++
          (List.range (min (size - (base + 512 * s)) 512)).map
            (d.sector (u32 (clusterSector v c + s))) =
          (List.range (min size (base + 512 * (s + 1)))).map g := by
        rw [← hnext, map_range_add g (base + 512 * s)]
        congr 1
        apply List.map_congr_left
        intro i hi
        rw [List.mem_range] at hi
        exact (hg s i (by omega) (by omega)).symm
      rw [min_eq_right hlt.le, if_pos hlt, run_bind, run_readSector]
      cases hok : ok (u32 (clusterSector v c + s)) with
      | true =>
        simp only [if_true, hcopy, hnext]
        rw [ih (s + 1) (by omega)]
        refine congrArg (·, d) (if_congr (forall₂_congr fun t _ => ?_) rfl rfl)
        refine ⟨fun h hst => ?_, fun h hst => h (by omega)⟩
        rcases Nat.lt_or_eq_of_le hst with hst | rfl
        · exact h hst
        · exact fun _ => hok
      | false =>
        refine congrArg (·, d) (if_neg fun h => ?_).symm
        cases hok.symm.trans (h s (by omega) (le_refl s) hlt)
    · -- the file ended before this sector
      rw [min_eq_left (by omega), if_neg (Nat.lt_irrefl size),
        min_eq_left (by rw [clusterBytes]; omega), if_pos fun t _ _ _ => by omega]
      rfl

/-- `checked_next` accepts exactly a data cluster whose successor is another
    data cluster or an end mark. -/
theorem run_checkedNext {c : Nat} (hc : validDataCluster v c) : run ok (checkedNext v c) d =
      (if isEoc v (fatVal ok v d c) then some (fatVal ok v d c, true)
        else if validDataCluster v (fatVal ok v d c) then some (fatVal ok v d c, false)
        else none, d) := by
  unfold checkedNext
  rw [hc]
  simp only [Bool.not_true, Bool.false_eq_true, if_false, run_bind, run_fatGet]
  cases isEoc v (fatVal ok v d c) with
  | true => rfl
  | false =>
    cases validDataCluster v (fatVal ok v d c) <;> rfl

/-- What the cluster loop still demands of the walk from its `i`-th cluster on. -/
def Rest (ok : Nat → Bool) (v : Vol) (d : Disk) (c size i : Nat) : Prop :=
  ∀ m, i ≤ m → m < clustersFor v size →
    validDataCluster v (walk ok v d c m) ∧
    SectorsOk ok v (walk ok v d c m) (m * clusterBytes v) size ∧
    (m + 1 < clustersFor v size → isEoc v (walk ok v d c (m + 1)) = false ∧
      ∀ k, 2 ^ k ≤ m + 1 → m + 1 < 2 ^ (k + 1) →
        walk ok v d c (m + 1) ≠ walk ok v d c (2 ^ k - 1))

/-- The result of a finished loop that started at cluster `i`. -/
def Delivered (ok : Nat → Bool) (v : Vol) (d : Disk) (c size i : Nat) (seen : List Nat)
    (r : ReadResult) : Prop :=
  r.size = some size ∧ r.buffer = (List.range size).map (fileByte ok v d c) ∧
  r.clusters = seen ++ (List.range' i (clustersFor v size - i)).map (walk ok v d c)

variable {c size i : Nat} {seen : List Nat}

theorem rejected {r : ReadResult} (hr : r.ret = false) (hn : ¬ Rest ok v d c size i) :
    (r.ret ↔ Rest ok v d c size i) ∧ (r.ret → Delivered ok v d c size i seen r) := by
  rw [hr]
  exact ⟨⟨nofun, fun h => absurd h hn⟩, nofun⟩

/-- What one round demands, with the anchor in force at `2^k - 1`, and the rest. -/
theorem rest_step {k : Nat} (hi : i < clustersFor v size) (hk1 : 2 ^ k ≤ i + 1)
    (hk2 : i + 1 < 2 ^ (k + 1)) : Rest ok v d c size i ↔ validDataCluster v (walk ok v d c i) ∧
      SectorsOk ok v (walk ok v d c i) (i * clusterBytes v) size ∧
      (i + 1 < clustersFor v size → isEoc v (walk ok v d c (i + 1)) = false ∧
        walk ok v d c (i + 1) ≠ walk ok v d c (2 ^ k - 1)) ∧ Rest ok v d c size (i + 1) := by
  constructor
  · intro h
    obtain ⟨hv, hsec, hnext⟩ := h i (le_refl i) hi
    exact ⟨hv, hsec, fun hm => ⟨(hnext hm).1, (hnext hm).2 k hk1 hk2⟩, fun m hm => h m (by omega)⟩
  · rintro ⟨hv, hsec, hnext, hrest⟩ m hm hmn
    rcases Nat.lt_or_eq_of_le hm with hlt | rfl
    · exact hrest m hlt hmn
    · refine ⟨hv, hsec, fun hm => ⟨(hnext hm).1, fun k' hk1' hk2' => ?_⟩⟩
      rw [← Nat.log_eq_of_pow_le_of_lt_pow hk1' hk2', Nat.log_eq_of_pow_le_of_lt_pow hk1 hk2]
      exact (hnext hm).2

theorem Delivered.step {r : ReadResult} (hi : i < clustersFor v size)
    (h : Delivered ok v d c size (i + 1) (seen ++ [walk ok v d c i]) r) :
    Delivered ok v d c size i seen r := by
  obtain ⟨h1, h2, h3⟩ := h
  refine ⟨h1, h2, ?_⟩
  rw [h3, List.append_assoc,
    show clustersFor v size - i = clustersFor v size - (i + 1) + 1 by omega, List.range'_succ]
  rfl

theorem fileByte_at {t b : Nat} (ht : t < v.sectorsPerCluster) (hb : b < 512) :
    fileByte ok v d c (i * clusterBytes v + 512 * t + b) =
      d (512 * u32 (clusterSector v (walk ok v d c i) + t) + b) := by
  have hin : 512 * t + b < clusterBytes v := by rw [clusterBytes]; omega
  have hmod : (clusterBytes v * i + (512 * t + b)) % 512 = b := by
    rw [clusterBytes, Nat.mul_assoc, ← Nat.add_assoc, ← Nat.mul_add]
    omega
  rw [fileByte, Nat.add_assoc, Nat.mul_comm i, Nat.mul_add_div (by omega), Nat.div_eq_of_lt hin,
    Nat.mul_add_mod, Nat.mod_eq_of_lt hin, hmod, show (512 * t + b) / 512 = t by omega,
    Nat.add_zero]

/-- The bytes of one more cluster. -/
theorem run_readCluster_at (hlt : i * clusterBytes v < size) :
    run ok (readCluster v (walk ok v d c i) size v.sectorsPerCluster 0 (i * clusterBytes v)
        ((List.range (i * clusterBytes v)).map (fileByte ok v d c))) d =
      (if SectorsOk ok v (walk ok v d c i) (i * clusterBytes v) size then
        some (min size ((i + 1) * clusterBytes v),
          (List.range (min size ((i + 1) * clusterBytes v))).map (fileByte ok v d c))
      else none, d) := by
  have h := @run_readCluster ok v d _ _ size _ (fun t b => @fileByte_at ok v d c i t b)
    v.sectorsPerCluster 0 (Nat.zero_add _)
  rw [Nat.mul_zero, Nat.add_zero, min_eq_right hlt.le] at h
  rw [h, Nat.succ_mul]
  refine congrArg (·, d) (if_congr (forall₂_congr fun t _ => ?_) rfl rfl)
  exact ⟨fun h => h (Nat.zero_le t), fun h _ => h⟩

/-- The cluster loop, from its `i`-th cluster on.  The anchor in force is the
    one of `BrentWalk`: before step `i + 1` it stands at `2^k - 1`. -/
theorem run_readLoop (hspc : 0 < v.sectorsPerCluster) {c size : Nat} (hsize : size < 2 ^ 32) :
    ∀ fuel i k seen, i < clustersFor v size → clustersFor v size < fuel + i →
      2 ^ k ≤ i + 1 → i + 1 < 2 ^ (k + 1) →
      ∃ r, run ok (readLoop v size fuel (walk ok v d c i) (i * clusterBytes v)
          ((List.range (i * clusterBytes v)).map (fileByte ok v d c))
          (walk ok v d c (2 ^ k - 1)) (2 ^ k) (i + 1 - 2 ^ k) seen) d = (r, d) ∧
        (r.ret ↔ Rest ok v d c size i) ∧
        (r.ret → Delivered ok v d c size i seen r) := by
  have hcb : 512 ≤ clusterBytes v := by rw [clusterBytes]; omega
  intro fuel
  induction fuel with
  | zero => intro i k seen hi hf; omega
  | succ fuel ih =>
    intro i k seen hi hf hk1 hk2
    have hlt : i * clusterBytes v < size := (lt_clustersFor hspc i size).mp hi
    have hstep : Rest ok v d c size i ↔ _ := rest_step hi hk1 hk2
    rw [readLoop, if_pos hlt]
    cases hv : validDataCluster v (walk ok v d c i) with
    | false => exact ⟨_, rfl, rejected rfl fun h => nomatch hv.symm.trans (hstep.mp h).1⟩
    | true =>
      simp only [Bool.not_true, Bool.false_eq_true, if_false, run_bind, run_readCluster_at hlt]
      by_cases hsec : SectorsOk ok v (walk ok v d c i) (i * clusterBytes v) size
      swap
      · rw [if_neg hsec]
        exact ⟨_, rfl, rejected rfl fun h => hsec (hstep.mp h).2.1⟩
      rw [if_pos hsec]
      by_cases hmore : i + 1 < clustersFor v size
      · have hlt' := (lt_clustersFor hspc (i + 1) size).mp hmore
        simp only [min_eq_right hlt'.le, hlt', if_true, run_bind, run_checkedNext hv,
          show fatVal ok v d (walk ok v d c i) = walk ok v d c (i + 1) from rfl]
        -- the successor decides: end mark, bad link, anchor hit, or go on
        cases heoc : isEoc v (walk ok v d c (i + 1)) with
        | true =>
          exact ⟨_, rfl, rejected rfl fun h =>
            nomatch heoc.symm.trans ((hstep.mp h).2.2.1 hmore).1⟩
        | false =>
        cases hval : validDataCluster v (walk ok v d c (i + 1)) with
        | false =>
          exact ⟨_, rfl, rejected rfl fun h =>
            nomatch hval.symm.trans ((hstep.mp h).2.2.2 (i + 1) (le_refl _) hmore).1⟩
        | true =>
        simp only [Bool.false_eq_true, if_false, if_true]
        by_cases hanch : walk ok v d c (i + 1) = walk ok v d c (2 ^ k - 1)
        · rw [if_pos hanch]
          exact ⟨_, rfl, rejected rfl fun h => ((hstep.mp h).2.2.1 hmore).2 hanch⟩
        rw [if_neg hanch]
        -- this round met its demands
        have hrest : Rest ok v d c size (i + 1) ↔ Rest ok v d c size i :=
          ⟨fun h => hstep.mpr ⟨hv, hsec, fun _ => ⟨heoc, hanch⟩, h⟩, fun h => (hstep.mp h).2.2.2⟩
        -- the 32-bit counters stay far from wrapping
        have hsmall : (i + 1) * 512 < 2 ^ 32 :=
          lt_of_le_of_lt (Nat.mul_le_mul_left _ hcb) (hlt'.trans hsize)
        rw [u32_of_lt (show i + 1 - 2 ^ k + 1 < 2 ^ 32 by omega),
          u32_of_lt (show 2 ^ k * 2 < 2 ^ 32 by omega), ← Nat.pow_succ]
        by_cases hjump : i + 1 - 2 ^ k + 1 = 2 ^ k
        · obtain ⟨r, hr, hiff, hd⟩ := ih (i + 1) (k + 1) (seen ++ [walk ok v d c i]) hmore
            (by omega) (by omega) (by rw [Nat.pow_succ]; omega)
          rw [show 2 ^ (k + 1) - 1 = i + 1 by rw [Nat.pow_succ]; omega,
            show i + 1 + 1 - 2 ^ (k + 1) = 0 by rw [Nat.pow_succ]; omega] at hr
          rw [if_pos hjump]
          exact ⟨r, hr, hiff.trans hrest, fun h => (hd h).step hi⟩
        · obtain ⟨r, hr, hiff, hd⟩ := ih (i + 1) k (seen ++ [walk ok v d c i]) hmore
            (by omega) (by omega) (by rw [Nat.pow_succ] at hk2 ⊢; omega)
          rw [show i + 1 + 1 - 2 ^ k = i + 1 - 2 ^ k + 1 by omega] at hr
          rw [if_neg hjump]
          exact ⟨r, hr, hiff.trans hrest, fun h => (hd h).step hi⟩
      · -- the last cluster the size asks for
        have hge : size ≤ (i + 1) * clusterBytes v :=
          not_lt.mp fun h => hmore ((lt_clustersFor hspc (i + 1) size).mpr h)
        simp only [min_eq_left hge, Nat.lt_irrefl, if_false]
        obtain ⟨fuel, rfl⟩ : ∃ f, fuel = f + 1 := ⟨fuel - 1, by omega⟩
        rw [readLoop, if_neg (Nat.lt_irrefl size)]
        refine ⟨_, rfl, iff_of_true (beq_self_eq_true size) ?_, fun _ => ⟨rfl, rfl, ?_⟩⟩
        · exact hstep.mpr ⟨hv, hsec, fun h => absurd h hmore, fun m hm hmn => by omega⟩
        · rw [show clustersFor v size = i + 1 by omega, Nat.add_sub_cancel_left]
          rfl

/-- `fat_read` of a file entry it has found, within the caller's buffer. -/
theorem run_fatRead (hm : Mounted v) {maxSize idx : Nat}
    (hfind : (run ok (findEntry v v.currentCluster name) d).1 = some (e, idx))
    (hfile : e.isDirectory = false) (hmax : e.size ≤ maxSize) :
    ∃ r, run ok (fatRead v name maxSize) d = (r, d) ∧
      (r.ret ↔ Rest ok v d (entryCluster v e) e.size 0) ∧
      (r.ret → Delivered ok v d (entryCluster v e) e.size 0 [] r) := by
  have hspc := hm.spc_pos
  unfold fatRead
  rw [if_neg hm.available, run_bind, (findEntry_noWrites v _ name).readOnly.run_eq, hfind]
  simp only [hfile, Bool.false_eq_true, if_false, show ¬ maxSize < e.size by omega]
  by_cases hz : 0 < clustersFor v e.size
  · have hle : clustersFor v e.size ≤ e.size := by
      by_contra hlt
      have h := (lt_clustersFor hspc (clustersFor v e.size - 1) e.size).mp (by omega)
      have hcb : 1 ≤ clusterBytes v := by unfold clusterBytes; omega
      have := Nat.mul_le_mul_left (clustersFor v e.size - 1) hcb
      omega
    have h := @run_readLoop ok v d hspc (entryCluster v e) e.size (size_lt e) (e.size + 1) 0 0 []
      hz (by omega) (by omega) (by omega)
    simpa using h
  · -- an empty file: nothing is read
    have hsize : e.size = 0 := by
      by_contra hne
      exact hz ((lt_clustersFor hspc 0 e.size).mpr (by omega))
    have hzero : clustersFor v 0 = 0 := by
      rw [hsize] at hz
      omega
    rw [hsize]
    refine ⟨_, rfl, ?_, ?_⟩
    · simp only [beq_self_eq_true, true_iff]
      intro m _ hmn
      rw [hzero] at hmn
      omega
    · intro _
      refine ⟨rfl, rfl, ?_⟩
      rw [hzero]
      rfl

/-! ## Cyclic chains -/

/-- The walk leaves the data area, or meets an end mark, inside its first `n`
    clusters. -/
def LeavesData (ok : Nat → Bool) (v : Vol) (d : Disk) (c n : Nat) : Prop :=
  ∃ i < n, validDataCluster v (walk ok v d c i) = false ∨
    (0 < i ∧ isEoc v (walk ok v d c i))

/-- The loop's demands on a whole file, taken apart: a walk through data
    clusters, readable sectors, and an anchor that never hits. -/
theorem rest_zero_iff (c size : Nat) : Rest ok v d c size 0 ↔
      ¬ LeavesData ok v d c (clustersFor v size) ∧
      (∀ i < clustersFor v size, SectorsOk ok v (walk ok v d c i) (i * clusterBytes v) size) ∧
      Unnoticed (walk ok v d c) (clustersFor v size) := by
  constructor
  · intro h
    refine ⟨?_, fun i hi => (h i (Nat.zero_le i) hi).2.1, ?_⟩
    · rintro ⟨i, hi, hbad | ⟨hpos, heoc⟩⟩
      · have := (h i (Nat.zero_le i) hi).1
        cases hbad.symm.trans this
      · obtain ⟨m, rfl⟩ : ∃ m, i = m + 1 := ⟨i - 1, by omega⟩
        have := ((h m (Nat.zero_le m) (by omega)).2.2 hi).1
        cases heoc.symm.trans this
    · intro k j hk hj hjn
      have hpos := Nat.two_pow_pos k
      obtain ⟨m, rfl⟩ : ∃ m, j = m + 1 := ⟨j - 1, by omega⟩
      exact ((h m (Nat.zero_le m) (by omega)).2.2 hjn).2 k hk hj
  · rintro ⟨hin, hsec, hun⟩ m - hmn
    refine ⟨?_, hsec m hmn, ?_⟩
    · by_contra hbad
      exact hin ⟨m, hmn, Or.inl (by simpa using hbad)⟩
    · intro hmn'
      refine ⟨?_, fun k hk1 hk2 => hun k (m + 1) hk1 hk2 hmn'⟩
      by_contra heoc
      exact hin ⟨m + 1, hmn', Or.inr ⟨Nat.succ_pos m, by simpa using heoc⟩⟩

/-- The clusters of a walk prefix are distinct as a list iff they are as a
    walk. -/
theorem nodup_map_range_iff (x : Nat → Nat) (n : Nat) :
    ((List.range n).map x).Nodup ↔ Distinct x n := by
  rw [List.nodup_map_iff_inj_on List.nodup_range]
  constructor
  · intro h i j hij hjn heq
    have := h i (List.mem_range.mpr (by omega)) j (List.mem_range.mpr hjn) heq
    omega
  · intro h i hi j hj heq
    rw [List.mem_range] at hi hj
    rcases Nat.lt_trichotomy i j with hlt | he | hgt
    · exact absurd heq (h i j hlt hj)
    · exact he
    · exact absurd heq.symm (h j i hgt hi)

/-- **When a successful read is free of repetitions.**  Let `x` be the walk from
    the entry's first cluster and `n` the number of clusters its size needs.
    `fat_read` keeps its promise "returned 0, hence `n` distinct data clusters"
    exactly when the walk leaves the data area within `n` clusters, or a sector
    it needs cannot be read, or those `n` clusters are distinct anyway, or the
    walk is a rho with tail `μ` and cycle `p` for which some power of two
    `2^k ≥ μ + 1, p` satisfies `2^k + p ≤ n`. -/
theorem fatRead_noRepeat_iff (hm : Mounted v) {name : CString} {maxSize idx : Nat} {e : Entry}
    (hfind : (run ok (findEntry v v.currentCluster name) d).1 = some (e, idx))
    (hfile : e.isDirectory = false) (hmax : e.size ≤ maxSize) :
    ((run ok (fatRead v name maxSize) d).1.ret →
        (run ok (fatRead v name maxSize) d).1.clusters.Nodup ∧
        ∀ c ∈ (run ok (fatRead v name maxSize) d).1.clusters, validDataCluster v c) ↔
      LeavesData ok v d (entryCluster v e) (clustersFor v e.size) ∨
      (∃ i < clustersFor v e.size, ¬ SectorsOk ok v (walk ok v d (entryCluster v e) i)
        (i * clusterBytes v) e.size) ∨
      Distinct (walk ok v d (entryCluster v e)) (clustersFor v e.size) ∨
      ∃ μ p, Rho (walk ok v d (entryCluster v e)) μ p ∧
        ∃ k, μ + 1 ≤ 2 ^ k ∧ p ≤ 2 ^ k ∧ 2 ^ k + p ≤ clustersFor v e.size := by
  obtain ⟨r, hr, hret, hdel⟩ := run_fatRead hm hfind hfile hmax
  rw [hr, hret, rest_zero_iff]
  have hx := walk_orbit ok v d (entryCluster v e)
  have hun := distinct_of_unnoticed_iff hx (clustersFor v e.size)
  -- on success the visited clusters are the walk's first `n`
  have hclusters : r.ret →
      r.clusters = (List.range (clustersFor v e.size)).map (walk ok v d (entryCluster v e)) := by
    intro h
    have h3 := (hdel h).2.2
    rw [List.nil_append, Nat.sub_zero, ← List.range_eq_range'] at h3
    exact h3
  constructor
  · intro h
    by_cases hleave : LeavesData ok v d (entryCluster v e) (clustersFor v e.size)
    · exact Or.inl hleave
    · refine Or.inr ?_
      by_cases hsec : ∀ i < clustersFor v e.size, SectorsOk ok v
          (walk ok v d (entryCluster v e) i) (i * clusterBytes v) e.size
      · refine Or.inr (hun.mp ?_)
        intro hu
        have hgood := And.intro hleave (And.intro hsec hu)
        have hnd := (h hgood).1
        rw [hclusters (hret.mpr ((rest_zero_iff _ _).mpr hgood)), nodup_map_range_iff] at hnd
        exact hnd
      · push Not at hsec
        exact Or.inl hsec
  · rintro hcond ⟨hleave, hsec, hu⟩
    have hsucc : r.ret := hret.mpr ((rest_zero_iff _ _).mpr ⟨hleave, hsec, hu⟩)
    rw [hclusters hsucc, nodup_map_range_iff]
    constructor
    · rcases hcond with h | ⟨i, hi, h⟩ | h
      · exact absurd h hleave
      · exact absurd (hsec i hi) h
      · exact hun.mpr h hu
    · intro c hc
      obtain ⟨i, hi, rfl⟩ := List.mem_map.mp hc
      rw [List.mem_range] at hi
      by_contra hbad
      exact hleave ⟨i, hi, Or.inl (by simpa using hbad)⟩

end Loop

/-! ## A cycle that goes unnoticed

    Tail of two clusters, cycle of two: `2 → 3 → 4 → 5 → 4`.  A file of five
    clusters has met the anchors 2 and 3 but not yet 5 when it is complete. -/

/-- A FAT12 volume of ten clusters whose only file, `A`, has size 2049. -/
def rhoDisk : Disk := fun a =>
  if a = 12 then 2 else if a = 13 then 1 else if a = 14 then 1 else if a = 16 then 1
  else if a = 17 then 16 else if a = 19 then 13 else if a = 22 then 1
  else if a = 510 then 0x55 else if a = 511 then 0xAA
  -- the FAT: entries 2, 3 and 4, 5 share three bytes each
  else if a = 515 then 3 else if a = 516 then 0x40 else if a = 518 then 5
  else if a = 519 then 0x40
  -- the root directory
  else if a = 1024 then 65 else if 1024 < a ∧ a < 1035 then 32 else if a = 1035 then 0x20
  else if a = 1050 then 2 else if a = 1052 then 1 else if a = 1053 then 8
  else 0

def rhoVol : Vol := (readBpb (rhoDisk.sector 0)).toVol 0 (fun _ => 0)

def rhoName : CString := ⟨[65], by decide⟩

theorem rhoVol_mounted : Mounted rhoVol :=
  Mounted.of_mountSector
    (show mountSector 0 (rhoDisk.sector 0) (fun _ => 0) = some rhoVol from
      if_pos (by decide +kernel))

/-- Five clusters are delivered as a success, the third and the fifth of them
    the same. -/
theorem fatRead_rho_repeats :
    Mounted rhoVol ∧ (run (fun _ => true) (fatRead rhoVol rhoName 4096) rhoDisk).1.ret ∧
      (run (fun _ => true) (fatRead rhoVol rhoName 4096) rhoDisk).1.clusters = [2, 3, 4, 5, 4] :=
  ⟨rhoVol_mounted, by decide, by decide⟩

/-- The same with one byte less, so that four clusters are enough. -/
def fourDisk : Disk := fun a => if a = 1052 then 0 else rhoDisk a

/-- They are distinct, and delivered. -/
theorem fatRead_noRepeat_iff_four :
    (run (fun _ => true) (fatRead rhoVol rhoName 4096) fourDisk).1.ret ∧
      (run (fun _ => true) (fatRead rhoVol rhoName 4096) fourDisk).1.clusters.Nodup := by
  have hret : (run (fun _ => true) (fatRead rhoVol rhoName 4096) fourDisk).1.ret := by decide
  refine ⟨hret, ((fatRead_noRepeat_iff rhoVol_mounted
    (show (run (fun _ => true) (findEntry rhoVol rhoVol.currentCluster rhoName) fourDisk).1
      = some (entryAt (fourDisk.sector 2) 0, 0) from rfl)
    (by decide) (by decide)).mpr (.inr (.inr (.inl ?_))) hret).1⟩
  exact (nodup_map_range_iff _ _).mp (by decide)

end FatRead
