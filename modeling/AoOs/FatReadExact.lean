import AoOs.FatTermination
import AoOs.FatConfined

/-! # What a read touches — every link is checked before it is followed

    `FatRead` says when the cluster loop of `fat_read` returns 0 and what it has
    copied then.  This file adds the sectors it goes to on the way, whatever the
    result: behind the directory search, each access is to a sector of a cluster
    that the walk reached through data clusters only, or to the table entry of
    such a cluster.  A bad link ends the loop before anything is read through it. -/

namespace FatReadExact

open BlockIO FatTypes FatDriver FatRead FatGeometry FatRegions FatTermination BrentWalk
open BlockIO.BlockM (run accessed exec)
open FatConfined (readCluster_noWrites)

variable {c : Nat}

section Touched

variable {ok : Nat → Bool} {v : Vol} {d : Disk}

/-- The walk reaches its `j`-th cluster, and it is a data cluster. -/
def Reached (ok : Nat → Bool) (v : Vol) (d : Disk) (c j : Nat) : Prop :=
  ¬ LeavesData ok v d c (j + 1)

/-- A sector of a cluster the walk from `c` reaches, or one that `fat_get` reads for
    such a cluster. -/
def OnWalk (ok : Nat → Bool) (v : Vol) (d : Disk) (c lba : Nat) : Prop :=
  ∃ j, Reached ok v d c j ∧ (InCluster v (walk ok v d c j) lba ∨
    lba ∈ accessed ok (fatGet v (walk ok v d c j)) d)

theorem reached_zero (hc : validDataCluster v c) : Reached ok v d c 0 := by
  rintro ⟨i, hi, h⟩
  obtain rfl : i = 0 := by omega
  rcases h with h | h
  · rw [walk_zero, hc] at h
    cases h
  · exact absurd h.1 (Nat.lt_irrefl 0)

/-- One more link: it may be followed if it is a data cluster and no end mark. -/
theorem Reached.step {j : Nat} (hc : validDataCluster v c) (he : isEoc v (fatVal ok v d c) = false)
    (h : Reached ok v d (fatVal ok v d c) j) : Reached ok v d c (j + 1) := by
  rintro ⟨i, hi, hbad⟩
  cases i with
  | zero => exact reached_zero hc ⟨0, Nat.zero_lt_one, hbad⟩
  | succ i =>
    rw [← walk_shift] at hbad
    rcases hbad with hbad | ⟨-, hbad⟩
    · exact h ⟨i, by omega, .inl hbad⟩
    · cases i with
      | zero =>
        rw [walk_zero, he] at hbad
        cases hbad
      | succ i => exact h ⟨i + 1, by omega, .inr ⟨Nat.succ_pos i, hbad⟩⟩

theorem OnWalk.step {lba : Nat} (hc : validDataCluster v c) (he : isEoc v (fatVal ok v d c) = false)
    (h : OnWalk ok v d (fatVal ok v d c) lba) : OnWalk ok v d c lba := by
  obtain ⟨j, hj, h⟩ := h
  rw [walk_shift] at h
  exact ⟨j + 1, hj.step hc he, h⟩

/-- The sector loop stays inside its cluster. -/
theorem accessed_readCluster (hg : Geometry v) (hc : validDataCluster v c) (size : Nat) :
    ∀ n s done buf, s + n ≤ v.sectorsPerCluster →
      ∀ lba ∈ accessed ok (readCluster v c size n s done buf) d, InCluster v c lba := by
  obtain ⟨h2, hlt⟩ := valid_bounds hc
  obtain ⟨-, hend⟩ := hg.clusterSector_eq h2 hlt
  have htotal := hg.total_lt
  intro n
  induction n with
  | zero => intro s done buf _ lba h; cases h
  | succ n ih =>
    intro s done buf hs lba h
    rw [readCluster] at h
    by_cases hd : done < size
    · rw [if_pos hd, accessed_bind, accessed_readSector, run_readSector] at h
      rcases List.mem_append.mp h with h | h
      · rw [List.mem_singleton.mp h, u32_of_lt (by omega)]
        exact ⟨Nat.le_add_right _ _, by omega⟩
      · by_cases hok : ok (u32 (clusterSector v c + s))
        · rw [if_pos hok] at h
          exact ih (s + 1) _ _ (by omega) lba h
        · rw [if_neg hok] at h
          cases h
    · rw [if_neg hd] at h
      cases h

theorem accessed_checkedNext (hc : validDataCluster v c) :
    accessed ok (checkedNext v c) d = accessed ok (fatGet v c) d := by
  rw [checkedNext, hc]
  simp only [Bool.not_true, Bool.false_eq_true, if_false, accessed_bind]
  conv_rhs => rw [← List.append_nil (accessed ok (fatGet v c) d)]
  congr 1
  by_cases he : isEoc v (run ok (fatGet v c) d).1
  · rw [if_pos he]
    rfl
  · rw [if_neg he]
    cases validDataCluster v (run ok (fatGet v c) d).1 <;> rfl

/-- The cluster loop goes along the walk and nowhere else. -/
theorem accessed_readLoop (hg : Geometry v) (size : Nat) : ∀ n c done buf anchor power length seen,
      ∀ lba ∈ accessed ok (readLoop v size n c done buf anchor power length seen) d,
        OnWalk ok v d c lba := by
  intro n
  induction n with
  | zero => intro c done buf anchor power length seen lba h; cases h
  | succ n ih =>
    intro c done buf anchor power length seen lba h
    rw [readLoop] at h
    by_cases hd : done < size
    · rw [if_pos hd] at h
      cases hc : validDataCluster v c with
      | false =>
        rw [hc] at h
        cases h
      | true =>
        rw [hc] at h
        simp only [Bool.not_true, Bool.false_eq_true, if_false] at h
        rw [accessed_bind, ((readCluster_noWrites v c size _ _ _ _).readOnly ok d)] at h
        rcases List.mem_append.mp h with h | h
        · exact ⟨0, reached_zero hc,
            .inl (accessed_readCluster hg hc size _ _ _ _ (by omega) lba h)⟩
        · cases hr : (run ok (readCluster v c size v.sectorsPerCluster 0 done buf) d).1 with
          | none =>
            rw [hr] at h
            cases h
          | some q =>
            obtain ⟨done, buf⟩ := q
            rw [hr] at h
            dsimp only at h
            by_cases hd : done < size
            · rw [if_pos hd, accessed_bind, accessed_checkedNext hc, run_checkedNext hc] at h
              rcases List.mem_append.mp h with h | h
              · exact ⟨0, reached_zero hc, .inr h⟩
              · -- past the link check: an accepted link is followed
                cases he : isEoc v (fatVal ok v d c) with
                | true =>
                  rw [he] at h
                  cases h
                | false =>
                  rw [he] at h
                  refine OnWalk.step hc he ?_
                  cases hval : validDataCluster v (fatVal ok v d c) with
                  | false =>
                    rw [hval] at h
                    cases h
                  | true =>
                    rw [hval] at h
                    simp only [Bool.false_eq_true, if_false, if_true] at h
                    split_ifs at h
                    · cases h
                    · exact ih _ _ _ _ _ _ _ lba h
                    · exact ih _ _ _ _ _ _ _ lba h
            · rw [if_neg hd] at h
              exact ih _ _ _ _ _ _ _ lba h
    · rw [if_neg hd] at h
      cases h

/-- Behind the directory search, `fat_read` touches only sectors on the walk from
    the entry's first cluster. -/
theorem accessed_fatRead (hm : Mounted v) {name : CString} {maxSize idx : Nat} {e : Entry}
    (hfind : (run ok (findEntry v v.currentCluster name) d).1 = some (e, idx)) :
    ∃ touched, accessed ok (fatRead v name maxSize) d =
        accessed ok (findEntry v v.currentCluster name) d ++ touched ∧
      ∀ lba ∈ touched, OnWalk ok v d (entryCluster v e) lba := by
  rw [fatRead, if_neg hm.available, accessed_bind,
    (findEntry_noWrites v _ name).readOnly ok d, hfind]
  refine ⟨_, rfl, ?_⟩
  dsimp only
  intro lba h
  split_ifs at h
  · cases h
  · cases h
  · exact accessed_readLoop (Mounted.geometry hm) _ _ _ _ _ _ _ _ _ lba h

/-- A sector on the walk belongs to the data area, or holds table entries of a data
    cluster. -/
theorem OnWalk.data_or_table {lba : Nat} (h : OnWalk ok v d c lba) :
    InData v lba ∨ ∃ x, validDataCluster v x ∧ lba ∈ accessed ok (fatGet v x) d := by
  obtain ⟨j, hj, h⟩ := h
  have hc : validDataCluster v (walk ok v d c j) := by
    by_contra hbad
    exact hj ⟨j, Nat.lt_succ_self j, .inl (by simpa using hbad)⟩
  rcases h with h | h
  · obtain ⟨h2, hlt⟩ := valid_bounds hc
    exact .inl ⟨_, h2, hlt, h⟩
  · exact .inr ⟨_, hc, h⟩

end Touched

/-! ## Reading a file on a disk that does not fail -/

/-- No sector fails. -/
def allOk : Nat → Bool := fun _ => true

/-- **THE CHAIN, EXACTLY**: whatever the table holds, for a file entry of `s` bytes
    that fits the caller's buffer, with `n` clusters to deliver and the walk along
    `fat_get` from the entry's cluster: a result of 0 means the first `s` bytes of the
    walk's sectors; `n` distinct data clusters are delivered; a walk that leaves the
    data clusters within `n` steps is refused.  In every case the sectors read behind
    the directory search lie in the data area or hold a data cluster's table entry. -/
theorem fatRead_follows_chain {v : Vol} {d : Disk} (hm : Mounted v) {name : CString}
    {maxSize idx : Nat} {e : Entry}
    (hfind : (run allOk (findEntry v v.currentCluster name) d).1 = some (e, idx))
    (hfile : e.isDirectory = false) (hmax : e.size ≤ maxSize) :
    ((run allOk (fatRead v name maxSize) d).1.ret →
      (run allOk (fatRead v name maxSize) d).1.size = some e.size ∧
      (run allOk (fatRead v name maxSize) d).1.buffer =
        (List.range e.size).map (fileByte allOk v d (entryCluster v e))) ∧
    (¬ LeavesData allOk v d (entryCluster v e) (clustersFor v e.size) →
      Distinct (walk allOk v d (entryCluster v e)) (clustersFor v e.size) →
      (run allOk (fatRead v name maxSize) d).1.ret) ∧
    (LeavesData allOk v d (entryCluster v e) (clustersFor v e.size) →
      (run allOk (fatRead v name maxSize) d).1.ret = false) ∧
    ∃ touched, accessed allOk (fatRead v name maxSize) d =
        accessed allOk (findEntry v v.currentCluster name) d ++ touched ∧
      ∀ lba ∈ touched, InData v lba ∨
        ∃ x, validDataCluster v x ∧ lba ∈ accessed allOk (fatGet v x) d := by
  obtain ⟨r, hr, hret, hdel⟩ := run_fatRead hm hfind hfile hmax
  rw [hr, rest_zero_iff] at *
  refine ⟨fun h => ⟨(hdel h).1, (hdel h).2.1⟩, fun hin hdist => ?_, fun hleave => ?_, ?_⟩
  · exact hret.mpr ⟨hin, fun _ _ _ _ _ => rfl, unnoticed_of_distinct hdist⟩
  · by_contra h
    exact (hret.mp (by simpa using h)).1 hleave
  · obtain ⟨touched, heq, htouched⟩ := accessed_fatRead hm hfind
    exact ⟨touched, heq, fun lba h => (htouched lba h).data_or_table⟩

/-- The file of `rhoDisk`: its five clusters `2 → 3 → 4 → 5 → 4` are delivered, all
    of its 2049 bytes, from sectors of the data area. -/
theorem fatRead_follows_chain_rho :
    (run allOk (fatRead rhoVol rhoName 4096) rhoDisk).1.size = some 2049 ∧
      (run allOk (fatRead rhoVol rhoName 4096) rhoDisk).1.buffer =
        (List.range 2049).map (fileByte allOk rhoVol rhoDisk 2) :=
  (fatRead_follows_chain rhoVol_mounted
    (show (run allOk (findEntry rhoVol rhoVol.currentCluster rhoName) rhoDisk).1
      = some (entryAt (rhoDisk.sector 2) 0, 0) from rfl)
    (by decide) (by decide)).1 (by decide)

end FatReadExact
