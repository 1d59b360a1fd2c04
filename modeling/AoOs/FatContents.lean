import AoOs.FatTree

/-! # Reading a file

    What `fat_read` returns, in terms of the slots of the directory and the clusters of
    the file: on a volume whose chains are in order the cluster loop visits the chain of
    the entry, its test for cycles never strikes, and the buffer is the bytes of the
    clusters in the order of the chain. -/

namespace FatContents

open BlockIO FatTypes FatDriver FatRead FatImage FatFill FatDirs FatScan FatTree BrentWalk
open BlockIO.BlockM (run exec)

variable {I : Image} {e : Entry}

/-- The first `n` bytes of the clusters of `l` laid end to end. -/
def contents (v : Vol) (I : Image) (l : List Nat) (n : Nat) : List UInt8 :=
  (List.range n).map fun k => I.data (l.getD (k / clusterBytes v) 0) (k % clusterBytes v)

theorem contents_congr {v : Vol} {J : Image} {l : List Nat} {n : Nat}
    (hn : clustersFor v n ≤ l.length) (hspc : 0 < v.sectorsPerCluster)
    (h : ∀ c ∈ l, J.data c = I.data c) : contents v J l n = contents v I l n := by
  refine List.map_congr_left fun k hk => ?_
  have hlt : k / clusterBytes v < l.length := by
    refine Nat.lt_of_lt_of_le ((lt_clustersFor hspc _ n).mpr ?_) hn
    exact Nat.lt_of_le_of_lt (Nat.div_mul_le_self _ _) (List.mem_range.mp hk)
  rw [h _ (List.getD_eq_getElem l 0 hlt ▸ List.getElem_mem hlt)]

/-- Clusters that hold a file have it for their contents. -/
theorem contents_of_holds {v : Vol} {l : List Nat} {data : List UInt8} (h : Holds v I l data)
    (hn : clustersFor v data.length ≤ l.length) (hspc : 0 < v.sectorsPerCluster) :
    contents v I l data.length = data := by
  refine List.ext_getElem (by rw [contents, List.length_map, List.length_range]) fun k h1 h2 => ?_
  refine (List.getElem_map _).trans ?_
  rw [List.getElem_range, h k h2 ?_, List.getD_eq_getElem data 0 h2]
  have hlt := (lt_clustersFor hspc l.length data.length).not.mp (Nat.not_lt.mpr hn)
  omega

section Chain

variable {v : Vol} (hv : Numbered v) {d : Disk} {c : Nat} {l : List Nat}
  (hl : (image v d).Chain v c l)

include hv hl

/-- The walk along the table visits the chain. -/
theorem walk_chain {k : Nat} (hk : k < l.length) :
    walk (fun _ => true) v d c k = l.get ⟨k, hk⟩ := by
  induction k with
  | zero =>
    obtain ⟨t, rfl⟩ := hl.head
    rfl
  | succ k ih =>
    have hmem : l.get ⟨k, by omega⟩ ∈ l := List.get_mem l ⟨k, by omega⟩
    rw [walk, ih (by omega), ← (hl.getElem_next hk).1]
    exact congrArg Prod.fst (hv.exec_fatGet d (hl.good_of_mem hmem))

theorem fileByte_chain {k : Nat} (hk : k / clusterBytes v < l.length) :
    fileByte (fun _ => true) v d c k =
      (image v d).data (l.getD (k / clusterBytes v) 0) (k % clusterBytes v) := by
  have hspc := hv.geometry.perCluster_pos
  have hgood := hl.good_of_mem (List.get_mem l ⟨_, hk⟩)
  have hcb : clusterBytes v = 512 * v.sectorsPerCluster := rfl
  have hmod := Nat.mod_lt k (show 0 < clusterBytes v by omega)
  have hsec : k % clusterBytes v / 512 < v.sectorsPerCluster := by omega
  have hlow : k % clusterBytes v % 512 = k % 512 := Nat.mod_mod_of_dvd k ⟨_, hcb⟩
  rw [fileByte, walk_chain hv hl hk, (hv.cluster_sectors hgood hsec).1, List.getD_eq_getElem l 0 hk]
  refine Eq.trans ?_ (if_pos ⟨hgood, hmod⟩).symm
  refine congrArg d ?_
  generalize clusterSector v (l.get ⟨k / clusterBytes v, hk⟩) = b
  omega

/-- The read loop meets no obstacle on a chain that is long enough. -/
theorem rest_chain {size : Nat} (hlen : clustersFor v size ≤ l.length) :
    Rest (fun _ => true) v d c size 0 := by
  refine (rest_zero_iff c size).mpr ⟨?_, fun _ _ _ _ _ => rfl, unnoticed_of_distinct ?_⟩
  · rintro ⟨i, hi, hbad | ⟨hpos, heoc⟩⟩
    · rw [walk_chain hv hl (Nat.lt_of_lt_of_le hi hlen),
        hl.good_of_mem (List.get_mem l ⟨i, Nat.lt_of_lt_of_le hi hlen⟩)] at hbad
      cases hbad
    · obtain ⟨m, rfl⟩ : ∃ m, i = m + 1 := ⟨i - 1, by omega⟩
      rw [walk_chain hv hl (Nat.lt_of_lt_of_le hi hlen)] at heoc
      exact (hl.getElem_next (Nat.lt_of_lt_of_le hi hlen)).2 heoc
  · intro i j hij hj
    rw [walk_chain hv hl (by omega), walk_chain hv hl (by omega)]
    intro heq
    exact absurd ((List.Nodup.get_inj_iff hl.nodup).mp heq) (by simp only [Fin.mk.injEq]; omega)

end Chain

/-- What a read of `size` bytes along the chain `l` returns. -/
def delivered (v : Vol) (I : Image) (l : List Nat) (size : Nat) : ReadResult :=
  ⟨true, some size, contents v I l size, l.take (clustersFor v size)⟩

/-- The clusters of a file entry, long enough for its size. -/
def Stretch (v : Vol) (I : Image) (e : Entry) (l : List Nat) : Prop :=
  (entryCluster v e = 0 ∧ e.size = 0 ∧ l = []) ∨
    (I.Chain v (entryCluster v e) l ∧ clustersFor v e.size ≤ l.length)

variable {v : Vol}

theorem exists_stretch (h : FileChain v I e) : ∃ l, Stretch v I e l := by
  rcases h with ⟨h0, hz⟩ | ⟨l, hl, hlen⟩
  · exact ⟨[], .inl ⟨h0, hz, rfl⟩⟩
  · exact ⟨l, .inr ⟨hl, hlen⟩⟩

theorem clustersFor_zero (hspc : 0 < v.sectorsPerCluster) : clustersFor v 0 = 0 :=
  Nat.eq_zero_of_not_pos fun h => by
    have := (lt_clustersFor hspc 0 0).mp h
    omega

theorem Stretch.length {l : List Nat} (h : Stretch v I e l) (hspc : 0 < v.sectorsPerCluster) :
    clustersFor v e.size ≤ l.length := by
  rcases h with ⟨_, hz, _⟩ | ⟨_, hlen⟩
  · rw [hz, clustersFor_zero hspc]
    exact Nat.zero_le _
  · exact hlen

/-- **`fat_read` returns the bytes on the chain of the entry it finds.** -/
theorem exec_fatRead (hv : Numbered v) {d : Disk} {A : Area} {name : CString} {i maxSize : Nat}
    {l : List Nat} (hA : Locates v (image v d) v.currentCluster A)
    (hf : lookup (A.slot v (image v d)) name = some (e, i)) (hfile : e.isDirectory = false)
    (hl : Stretch v (image v d) e l) (hmax : e.size ≤ maxSize) :
    exec (fatRead v name maxSize) d = (delivered v (image v d) l e.size, d) := by
  have hspc := hv.geometry.perCluster_pos
  have hfind : (run (fun _ => true) (findEntry v v.currentCluster name) d).1 = some (e, i) :=
    (congrArg Prod.fst (exec_findEntry hv hA name)).trans hf
  obtain ⟨r, hrun, hret, hdel⟩ := run_fatRead hv.mounted hfind hfile hmax
  have hrest : Rest (fun _ => true) v d (entryCluster v e) e.size 0 := by
    rcases hl with ⟨_, hz, _⟩ | ⟨hl, hlen⟩
    · intro m _ hm
      rw [hz, clustersFor_zero hspc] at hm
      omega
    · exact rest_chain hv hl hlen
  obtain ⟨hsize, hbuf, hclu⟩ := hdel (hret.mpr hrest)
  rw [List.nil_append, Nat.sub_zero, ← List.range_eq_range'] at hclu
  have hlen := hl.length hspc
  refine hrun.trans (Prod.ext ?_ rfl)
  obtain ⟨ret, size, buffer, clusters⟩ := r
  obtain rfl : size = some e.size := hsize
  obtain rfl : ret := hret.mpr hrest
  rw [delivered, ReadResult.mk.injEq]
  refine ⟨rfl, rfl, hbuf.trans ?_, hclu.trans ?_⟩
  · refine List.map_congr_left fun k hk => ?_
    have hk' := List.mem_range.mp hk
    rcases hl with ⟨_, hz, _⟩ | ⟨hl, _⟩
    · omega
    · refine fileByte_chain hv hl (Nat.lt_of_lt_of_le ((lt_clustersFor hspc _ _).mpr ?_) hlen)
      exact Nat.lt_of_le_of_lt (Nat.div_mul_le_self _ _) hk'
  · refine List.ext_getElem (by simp [hlen]) fun k h1 h2 => ?_
    have hk : k < clustersFor v e.size := by simpa using h1
    rw [List.getElem_map, List.getElem_range, List.getElem_take]
    rcases hl with ⟨_, hz, rfl⟩ | ⟨hl, _⟩
    · rw [hz, clustersFor_zero hspc] at hk
      omega
    · exact walk_chain hv hl (Nat.lt_of_lt_of_le hk hlen)

/-- A read that succeeds has found a file that fits. -/
theorem fatRead_found (hv : Numbered v) {d : Disk} {A : Area} {name : CString} {maxSize : Nat}
    (hA : Locates v (image v d) v.currentCluster A) (h : (exec (fatRead v name maxSize) d).1.ret) :
    ∃ e i, lookup (A.slot v (image v d)) name = some (e, i) ∧ e.isDirectory = false ∧
      e.size ≤ maxSize := by
  have hfind := exec_findEntry hv hA name
  rw [fatRead, if_neg hv.mounted.available, exec_bind, hfind] at h
  dsimp only at h
  cases hf : lookup (A.slot v (image v d)) name with
  | none =>
    rw [hf] at h
    cases h
  | some p =>
    obtain ⟨e, i⟩ := p
    rw [hf] at h
    dsimp only at h
    by_cases hd : e.isDirectory
    · rw [if_pos hd] at h
      cases h
    · rw [if_neg hd] at h
      by_cases hm : maxSize < e.size
      · rw [if_pos hm] at h
        cases h
      · exact ⟨e, i, rfl, by simpa using hd, by omega⟩

end FatContents
