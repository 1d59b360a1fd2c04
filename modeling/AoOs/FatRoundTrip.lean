import AoOs.FatFrame
import AoOs.FatUsage

/-! # Writing and reading back

    After a `fat_create` that returns 0 the search for the name finds the entry that was
    written (`found_created`): a new file is in the first slot that is not in use, behind
    used slots with other names, and an old one stays in its slot.  Its chain holds the data,
    because the clusters of the chain were free and are not those of the directory. -/

namespace FatRoundTrip

open BlockIO FatTypes FatDriver FatRead FatImage FatAlloc FatFill
open FatDirs FatScan FatTree FatReslot FatEntries FatOps FatChange FatContents
open FatCopies FatWellFormed FatFresh FatPaths FatFrame Relation
open BlockIO.BlockM (run exec)

/-- A name of ASCII characters. -/
def Ascii (name : CString) : Prop := ∀ c ∈ name.chars, c < 128

theorem Ascii.visible {name : CString} (h : Ascii name) : Visible name := by
  intro hhead
  exact absurd (h _ (List.mem_of_mem_head? hhead)) (by decide)

/-- The file `data` is found under the name. -/
structure Found (v : Vol) (I : Image) (D : Nat) (name : CString) (data : List UInt8)
    (A : Area) (i : Nat) (e : Entry) (L : List Nat) : Prop where
  loc : Locates v I D A
  lookup : FatScan.lookup (A.slot v I) name = some (e, i)
  file : e.isDirectory = false
  size : e.size = data.length
  chain : I.Chain v (entryCluster v e) L
  length : L.length = needed v data.length
  contents : FatContents.contents v I L data.length = data

section Stored

variable {v : Vol} (hv : Numbered v) {I J K I' : Image} {D i c : Nat} {A : Area} {e e₀ : Entry}
  {data : List UInt8} {L : List Nat} {name : CString} (hs : Chained v I) (hD : IsDir v I D)
  (hA : Locates v I D A) (hclear : Cleared v I D i J) (hst : Stored v data A e i J L c K I')

include hv hs hD hA hclear hst

/-- The directory has none of the clusters of the file. -/
theorem stored_data {k : Nat} (hk : k ∈ L) : I'.data k = K.data k := by
  rw [hst.eq]
  cases A with
  | fixed => rfl
  | chain m =>
    refine if_neg fun hmem => ?_
    have hloose := (hclear.free k).mp (hst.filling.free k hk).2
    exact dir_firm hs hv.geometry hD (Reslot.not_self hs hv.geometry hD) hA
      (List.mem_of_getElem? hmem) hloose

/-- The chain of the file holds the data. -/
theorem stored_contents : FatContents.contents v I' L data.length = data := by
  have hlen : clustersFor v data.length ≤ L.length := by
    rw [hst.length]
    exact Nat.le_max_right _ _
  have hspc := hv.geometry.perCluster_pos
  rw [contents_congr hlen hspc fun k hk => stored_data hv hs hD hA hclear hst hk]
  exact contents_of_holds hst.filling.holds hlen hspc

/-- **A stored file is found**, if the slots before it do not stop the search. -/
theorem stored_found (hold : A.slot v I i = some e₀) (hdot : ¬ IsDot e₀) (hi : i < maxDirEntries)
    (hpass : ∀ k < i, ∃ x, A.slot v I k = some x ∧ Passed name x) (hfile : e.isDirectory = false)
    (hsfn : e.sfn = makeSfn name) (hlive : Live e) (hsize : data.length < 2 ^ 32) :
    Found v I' D name data A i (setEntrySize (setEntryCluster v e c) data.length) L := by
  have hg := hv.geometry
  have hr := stored_reslot hclear hst hD hA hold hdot
  obtain ⟨hloc, hslot⟩ := hr.kept hs hg hD (Reslot.not_self hs hg hD) hA
  have hattr : (setEntrySize (setEntryCluster v e c) data.length).attr = e.attr := by
    rw [attr_setEntrySize, attr_setEntryCluster]
  refine ⟨hloc, ?_, (isDirectory_congr hattr).trans hfile, size_setEntrySize _ _ hsize, ?_,
    hst.length, stored_contents hv hs hD hA hclear hst⟩
  · refine lookupFrom_hit (Nat.zero_le i) (by omega) ?_ (by rw [hslot, if_pos ⟨rfl, rfl⟩]) hlive.1
      ?_ (nameMatch_iff.mpr hsfn)
    · intro k _ hk
      rw [hslot, if_neg fun h => absurd h.2 (Nat.ne_of_lt hk)]
      exact hpass k hk
    · exact hlive.2
  · rw [stored_cluster hv hst]
    exact stored_chain hst

end Stored

section Created

variable {v : Vol} (hv : Numbered v) {I I' : Image} {D : Nat} {A : Area} {data : List UInt8}
  {name : CString} (hs : Chained v I) (hD : IsDir v I D) (hA : Locates v I D A)

include hv hA

/-- The slots before the first vacant one do not stop the search. -/
theorem passed_before {A₁ : Area} {i : Nat} {I₁ : Image} (hslot : Slotted v I D A₁ i I₁)
    (hl : lookup (A.slot v I) name = none) {k : Nat} (hk : k < i) :
    ∃ x, A₁.slot v I₁ k = some x ∧ Passed name x := by
  obtain ⟨hi, hused, _⟩ := hslot.vacant
  -- a used slot was there before the directory grew
  have hold : ∀ j < i, ∃ x, A₁.slot v I₁ j = some x ∧ A.slot v I j = some x ∧ Used x := by
    intro j hj
    obtain ⟨x, hx, hu⟩ := hused j hj
    refine ⟨x, hx, ?_, hu⟩
    rcases hslot.grow with rfl | ⟨l, c, hr⟩
    · exact hA.unique hslot.loc ▸ hx
    · obtain rfl := hA.unique hr.loc
      obtain ⟨hloc, hkeep, hnew, _⟩ := hr.grown_self hv
      obtain rfl := hslot.loc.unique hloc
      cases hy : (Area.chain l).slot v I j with
      | none => exact absurd (hnew hy hx) hu.1
      | some y => exact (hkeep hy).symm.trans hx
  obtain ⟨x, hx, hx', hu⟩ := hold k hk
  refine ⟨x, hx, hu.1, ?_⟩
  cases hsk : skipped x with
  | true => exact .inl rfl
  | false =>
    refine .inr (lookupFrom_none hl (Nat.zero_le k) (by omega) (fun j _ hj => ?_) hx' hu.1 hsk)
    obtain ⟨y, _, hy, hyu⟩ := hold j (by omega)
    exact ⟨y, hy, hyu.1⟩

include hs hD

/-- **A file that was created is found**, with its data. -/
theorem found_created (hout : Create v I D A name data true I') (hvis : Visible name)
    (hsize : data.length < 2 ^ 32) : ∃ A' i e L, Found v I' D name data A' i e L := by
  cases hout with
  | @made A₁ i c I₁ K _ L hl hslot hst =>
    obtain ⟨hi, _, y, hy, hu⟩ := hslot.vacant
    refine ⟨_, _, _, _, stored_found hv (hslot.chained hv hs) ((hslot.isDir_iff hv hs D).mp hD)
      hslot.loc hslot.cleared hst hy (not_used hu).1 hi
      (fun k hk => passed_before hv hA hslot hl hk) ?_ ?_ ?_ hsize⟩
    · rw [Entry.isDirectory, attr_freshEntry]
      decide
    · exact sfn_freshEntry (length_makeSfn name) 0x20
    · exact hvis.live (sfn_freshEntry (length_makeSfn name) 0x20) (.inl rfl)
  | @replaced e i c J K _ L hl hfile hclear hst =>
    obtain ⟨hi, he, hsfn⟩ := lookup_some hA hl
    obtain ⟨_, _, _, _, _, _, hpass⟩ := lookupFrom_some hl
    exact ⟨_, _, _, _, stored_found hv hs hD hA hclear hst (he.slot hA) he.named.2 hi
      (fun k hk => hpass k (Nat.zero_le k) hk) hfile hsfn he.named.1 hsize⟩

end Created

/-- The file `AB` on the fresh volume. -/
theorem oneFileDisk_found : ∃ A i e L, Found freshVol (image freshVol oneFileDisk)
    freshVol.currentCluster plainName [1, 2, 3] A i e L := by
  have hcur := freshVol_current freshDisk
  have hs := freshVol_flat.sound.toChained
  obtain ⟨r, d', hrun, hout, _⟩ := exec_fatCreate freshVol_numbered hs hcur
    (freshVol_flat.isDir hcur) plainName [1, 2, 3]
  cases oneFileDisk_run.symm.trans hrun
  exact found_created freshVol_numbered hs hcur (freshVol_flat.isDir hcur) hout
    (by rw [Visible]; decide) (by decide)

/-- Reading a file that is found. -/
theorem Found.read {v : Vol} (hv : Numbered v) {d : Disk} {name : CString} {data : List UInt8}
    {A : Area} {i : Nat} {e : Entry} {L : List Nat}
    (hf : Found v (image v d) v.currentCluster name data A i e L) {maxSize : Nat}
    (hmax : data.length ≤ maxSize) : (exec (fatRead v name maxSize) d).1.ret ∧
      (exec (fatRead v name maxSize) d).1.size = some data.length ∧
      (exec (fatRead v name maxSize) d).1.buffer = data := by
  have hlen : clustersFor v e.size ≤ L.length := by
    rw [hf.size, hf.length]
    exact Nat.le_max_right _ _
  rw [exec_fatRead hv hf.loc hf.lookup hf.file (.inr ⟨hf.chain, hlen⟩) (hf.size ▸ hmax), delivered,
    hf.size]
  exact ⟨rfl, rfl, hf.contents⟩

/-- **WRITE AND READ BACK**: what `fat_create` has stored, in any directory and with any
    length, `fat_read` returns. -/
theorem read_created {v : Vol} {d d' : Disk} (hv : Numbered v) (hs : Chained v (image v d))
    (hcur : IsDir v (image v d) v.currentCluster) {name : CString} (hname : Ascii name)
    {data : List UInt8} (hsize : data.length < 2 ^ 32)
    (hrun : exec (fatCreate v name data) d = (true, d')) {maxSize : Nat}
    (hmax : data.length ≤ maxSize) : (exec (fatRead v name maxSize) d').1.ret ∧
      (exec (fatRead v name maxSize) d').1.size = some data.length ∧
      (exec (fatRead v name maxSize) d').1.buffer = data := by
  obtain ⟨A, hA⟩ := hs.located hv.geometry hcur
  have hout := (of_exec (exec_fatCreate hv hs hcur hA name data) hrun).1
  obtain ⟨_, _, _, _, hf⟩ := found_created hv hs hcur hA hout hname.visible hsize
  exact hf.read hv hmax

/-- A file on a new volume. -/
theorem read_created_fresh :
    exec (fatCreate freshVol plainName [1, 2, 3]) freshDisk = (true, oneFileDisk) ∧
      (exec (fatRead freshVol plainName 3) oneFileDisk).1.buffer = [1, 2, 3] :=
  ⟨oneFileDisk_run, (read_created freshVol_numbered freshVol_flat.sound.toChained
    (freshVol_current freshDisk) (by simp [Ascii, plainName]) (by decide) oneFileDisk_run
    (le_refl 3)).2.2⟩

/-! ## Create, then delete -/

section Delete

variable {v : Vol} (hv : Numbered v) {d : Disk} {A : Area} {name : CString}

include hv

/-- Without a need to grow the directory, a new file goes to the first vacant slot. -/
theorem exec_fatCreate_vacant (hA : Locates v (image v d) v.currentCluster A)
    (hl : lookup (A.slot v (image v d)) name = none) (hname : name.chars ≠ []) {i : Nat}
    (hi : Vacant (A.slot v (image v d)) i) (data : List UInt8) : exec (fatCreate v name data) d =
      exec (createAt v (freshEntry (makeSfn name) 0x20) i data) d := by
  rw [fatCreate, if_neg fun h => h.elim hv.geometry.available hname, exec_bind,
    exec_findEntry hv hA, hl]
  dsimp only
  rw [exec_bind, exec_freeEntryIndex_vacant hv hA hi]

/-- The table at a cluster is what the image has there. -/
theorem tableEntry_eq {c : Nat} (hc : validDataCluster v c) :
    FatUsage.tableEntry v d c = (image v d).val c :=
  congrArg Prod.fst ((FatUsage.exec_fatGet hv.geometry d c).symm.trans (hv.exec_fatGet d hc))

theorem diskInfo_congr {d' : Disk} (h : ∀ c, (image v d').val c = (image v d).val c) :
    (exec (fatGetDiskInfo v) d').1 = (exec (fatGetDiskInfo v) d).1 := by
  have hcount : (List.range' 2 (clusterLimit v - 2)).countP
        (fun c => FatUsage.tableEntry v d' c = 0) =
      (List.range' 2 (clusterLimit v - 2)).countP (fun c => FatUsage.tableEntry v d c = 0) := by
    refine List.countP_congr fun c hc => ?_
    obtain ⟨h2, hlt⟩ := List.mem_range'_1.mp hc
    have hvalid : validDataCluster v c := valid_of_range hv h2 (by omega)
    rw [tableEntry_eq hv hvalid, tableEntry_eq hv hvalid, h]
  rw [fatGetDiskInfo, exec_bind, exec_bind, FatUsage.exec_countFree hv.geometry,
    FatUsage.exec_countFree hv.geometry, hcount]
  rfl

omit hv in
/-- **The table after both**: what the file had is free again, and nothing else changes. -/
theorem val_removed {I K I' I'' : Image} {D i c : Nat} {e : Entry} {data : List UInt8}
    {L : List Nat} {A' : Area} (hst : Stored v data A e i I L c K I')
    (hf : Found v I' D name data A' i (setEntrySize (setEntryCluster v e c) data.length) L)
    (hD : IsDir v I' D)
    (hrem : Removed v I' D i A' (setEntrySize (setEntryCluster v e c) data.length) I'') (k : Nat) :
    I''.val k = I.val k := by
  have hI' : ∀ k ∉ L, I'.val k = I.val k := fun k hk => by
    rw [hst.eq, put_val]
    exact hst.filling.tab 0 k hk
  have he := (lookup_some hf.loc hf.lookup).2.1
  by_cases hk : k ∈ L
  · rw [hrem.freed k (.inr ⟨L, ⟨hD, _, he, hf.chain⟩, hk⟩)]
    exact (hst.filling.free k hk).2.symm
  · by_cases hloose : Loose v I' D i k
    · rw [hrem.freed k hloose]
      rcases hloose with h0 | ⟨l, ⟨_, x, hx, hl⟩, hmem⟩
      · exact h0.symm.trans (hI' k hk)
      · rw [← he.unique hx] at hl
        exact absurd (hl.unique hf.chain ▸ hmem) hk
    · exact (hrem.reslot.val k hloose).trans (hI' k hk)

omit hv in
/-- A deleted entry in a slot that was not in use brings nothing to light. -/
theorem lookup_removed {I : Image} {D i : Nat} {y e : Entry} (hs : Sound v I) (hD : IsDir v I D)
    (hA : Locates v I D A) (hl : lookup (A.slot v I) name = none) (hy : A.slot v I i = some y)
    {s : Nat → Option Entry}
    (hslot : ∀ j, s j = if j = i then some (markDeleted e) else A.slot v I j) :
    lookup s name = none := by
  cases hfound : lookup s name with
  | none => rfl
  | some p =>
    obtain ⟨x, j⟩ := p
    obtain ⟨_, hj, hx, hx0, hsk, hm, hpass⟩ := lookupFrom_some hfound
    have hji : j ≠ i := by
      rintro rfl
      rw [hslot, if_pos rfl] at hx
      exact not_live_markDeleted e (Option.some.inj hx ▸ ⟨hx0, hsk⟩)
    rw [hslot, if_neg hji] at hx
    -- the old search came as far as slot `j`, unless it ended at slot `i`
    by_cases hend : i < j ∧ y 0 = 0
    · exact absurd ⟨hx0, hsk⟩ (hs.ends hD hA hy hend.2 (Nat.le_of_lt hend.1) hx)
    · have hfalse := lookupFrom_none hl (Nat.zero_le j) hj (fun k _ hk => ?_) hx hx0 hsk
      · cases hfalse.symm.trans hm
      · by_cases hki : k = i
        · subst hki
          exact ⟨y, hy, fun h0 => hend ⟨hk, h0⟩⟩
        · obtain ⟨z, hz, hz0, _⟩ := hpass k (Nat.zero_le k) hk
          rw [hslot, if_neg hki] at hz
          exact ⟨z, hz, hz0⟩

/-- All copies of the table, from the first. -/
theorem tab_eq {d' : Disk} (hcopies : Identical v d) (hup : Updates v (image v d) (image v d'))
    (hval : ∀ c, (image v d').val c = (image v d).val c) : (image v d').tab = (image v d).tab := by
  have hagree := (identical_iff hv d).mp hcopies
  funext i c
  by_cases hi : i < v.fatCount
  · rw [(hagree.updates hup).tab i c hi, hagree.tab i c hi]
    exact hval c
  · exact (if_neg fun h => hi h.1).trans (if_neg fun h => hi h.1).symm

end Delete

/-- The empty name is refused. -/
theorem ne_nil_of_created {v : Vol} {d d' : Disk} {name : CString} {data : List UInt8}
    (hrun : exec (fatCreate v name data) d = (true, d')) : name.chars ≠ [] := by
  intro hnil
  rw [fatCreate, if_pos (.inr hnil)] at hrun
  cases congrArg Prod.fst hrun

/-- The current directory is in `A`, and its first vacant slot is `i`. -/
structure Room (v : Vol) (d : Disk) (A : Area) (i : Nat) : Prop where
  sound : Sound v (image v d)
  dir : IsDir v (image v d) v.currentCluster
  loc : Locates v (image v d) v.currentCluster A
  vacant : Vacant (A.slot v (image v d)) i

/-- The file is found on the clusters `L`. -/
def OnClusters (v : Vol) (d : Disk) (name : CString) (data : List UInt8) (L : List Nat) : Prop :=
  ∃ A i e, Found v (image v d) v.currentCluster name data A i e L

namespace Room

variable {v : Vol} (hv : Numbered v) {d d₂ e : Disk} {A A₂ : Area} {i i₂ : Nat}
  (hr : Room v d A i) {name : CString} {data : List UInt8}

include hv hr

/-- A new file is stored and found in the vacant slot, or all free clusters do not suffice. -/
theorem create (hl : lookup (A.slot v (image v d)) name = none) (hname : name.chars ≠ [])
    (hvis : Visible name) (hsize : data.length < 2 ^ 32) :
    (∃ L c K d', exec (fatCreate v name data) d = (true, d') ∧
      Stored v data A (freshEntry (makeSfn name) 0x20) i (image v d) L c K (image v d') ∧
      Updates v (image v d) (image v d') ∧
      Found v (image v d') v.currentCluster name data A i (fileEntry v name c data.length) L) ∨
    ∃ M d', exec (fatCreate v name data) d = (false, d') ∧
      Undone v (image v d) M (image v d') ∧ M.length < needed v data.length := by
  obtain ⟨hs, hcur, hA, hi⟩ := hr
  obtain ⟨hlt, _, y, hy, hu⟩ := id hi
  have hclear := Cleared.of_unowned (unowned_of_slot hA hy fun hn => (not_used hu).2 hn.1)
  rw [exec_fatCreate_vacant hv hA hl hname hi]
  rcases exec_createAt hv hs.toChained hcur hA hy hclear (freshEntry (makeSfn name) 0x20) data with
    ⟨L, c, K, d', hrun, hst, hup⟩ | hfail
  · refine .inl ⟨L, c, K, d', hrun, hst, hup, ?_⟩
    have hsfn := sfn_freshEntry (length_makeSfn name) 0x20
    exact stored_found hv hs.toChained hcur hA hclear hst hy (not_used hu).1 hlt
      (fun k hk => passed_before hv hA ⟨.inl rfl, hA, hi⟩ hl hk)
      (by rw [Entry.isDirectory, attr_freshEntry]; decide) hsfn (hvis.live hsfn (.inl rfl)) hsize
  · exact .inr hfail

/-- **The table decides which clusters a new file gets.** -/
theorem same_clusters (hr₂ : Room v d₂ A₂ i₂)
    (hval : ∀ c, (image v d₂).val c = (image v d).val c)
    (hl : lookup (A.slot v (image v d)) name = none)
    (hl₂ : lookup (A₂.slot v (image v d₂)) name = none) (hvis : Visible name)
    (hsize : data.length < 2 ^ 32) (hrun : exec (fatCreate v name data) d = (true, e)) :
    ∃ e₂ L, exec (fatCreate v name data) d₂ = (true, e₂) ∧ OnClusters v e name data L ∧
      OnClusters v e₂ name data L := by
  have hunused : Unused v (image v d₂) = Unused v (image v d) := by
    funext c
    rw [Unused, Unused, hval]
  rcases hr.create hv hl (ne_nil_of_created hrun) hvis hsize with
    ⟨L, c, K, d', hrun', hst, _, hf⟩ | ⟨_, _, hno, _⟩
  swap
  · cases congrArg Prod.fst (hrun.symm.trans hno)
  cases hrun.symm.trans hrun'
  rcases hr₂.create hv hl₂ (ne_nil_of_created hrun) hvis hsize with
    ⟨M, _, _, e₂, hrun₂, hst₂, _, hf₂⟩ | ⟨M, _, _, hundo, hlt⟩
  · have hlow := hst₂.filling.lowest
    rw [hunused] at hlow
    obtain rfl := hst.filling.lowest.unique hlow (hst.length.trans hst₂.length.symm)
    exact ⟨e₂, L, hrun₂, ⟨_, _, _, hf⟩, _, _, _, hf₂⟩
  · -- the clusters that sufficed before are still free
    have hsub : L ⊆ M := fun c hc =>
      hundo.all c (hst.filling.free c hc).1 ((hval c).trans (hst.filling.free c hc).2)
    have hle := (hst.filling.nodup.subperm hsub).length_le
    rw [hst.length] at hle
    omega

end Room

/-- **DELETE UNDOES CREATE**: if the directory has a vacant slot for a new name, then after
    `fat_create` and `fat_delete` all bytes of all copies of the FAT are what they were,
    with them the figures of `fat_get_disk_info`, and the name is gone; a file that could
    have been created at first can be created now, on the same clusters. -/
theorem delete_restores {v : Vol} {d d' : Disk} (hw : WellFormed v d)
    (hcur : IsDir v (image v d) v.currentCluster) {name : CString} (hname : Ascii name)
    {data : List UInt8} (hsize : data.length < 2 ^ 32)
    (hnew : (exec (findEntry v v.currentCluster name) d).1 = none)
    (hfree : ∃ A i, Locates v (image v d) v.currentCluster A ∧ Vacant (A.slot v (image v d)) i)
    (hrun : exec (fatCreate v name data) d = (true, d')) :
    ∃ d'', exec (fatDelete v name) d' = (true, d'') ∧
      (∀ i < v.fatCount, ∀ o < 512 * v.fatSize,
        d'' (512 * copyBase v i + o) = d (512 * copyBase v i + o)) ∧
      (exec (fatGetDiskInfo v) d'').1 = (exec (fatGetDiskInfo v) d).1 ∧
      (exec (findEntry v v.currentCluster name) d'').1 = none ∧
      ∀ other more e, Ascii other → more.length < 2 ^ 32 →
        (exec (findEntry v v.currentCluster other) d).1 = none →
        exec (fatCreate v other more) d = (true, e) →
        ∃ e' L, exec (fatCreate v other more) d'' = (true, e') ∧ OnClusters v e other more L ∧
          OnClusters v e' other more L := by
  obtain ⟨hv, hcopies, hs, _, _⟩ := hw
  obtain ⟨A, i, hA, hi⟩ := hfree
  have hr : Room v d A i := ⟨hs, hcur, hA, hi⟩
  rw [exec_findEntry hv hA] at hnew
  rcases hr.create hv hnew (ne_nil_of_created hrun) hname.visible hsize with
    ⟨L, c, K, d₁, hrun₁, hst, hup, hf⟩ | ⟨_, _, hno, _⟩
  swap
  · cases congrArg Prod.fst (hrun.symm.trans hno)
  cases hrun.symm.trans hrun₁
  have hg := hv.geometry
  have hch := change_created hv hs hcur hA hsize hnew ⟨.inl rfl, hA, hi⟩ hst
  have hs₁ := hch.sound hg hs
  have hcur₁ := hch.reslot.isDir_self hs.toChained hg
  -- the file is found, and removed
  obtain ⟨r, d₂, hrun₂, hout, hup₂⟩ := exec_fatDelete hv hs₁.toChained hcur₁ hf.loc name
  generalize hI₂ : image v d₂ = I₂ at hout
  cases hout with
  | refused h => cases (h _ _ hf.lookup).symm.trans hf.file
  | @removed e' i' _ hl' hfile' hrem =>
    subst hI₂
    cases Option.mem_unique hf.lookup hl'
    obtain ⟨hlt, hused, y, hy, hu⟩ := id hi
    have hval := val_removed hst hf hcur₁ hrem
    have hupd := hup.trans hup₂
    have hcreated := (hch.reslot.kept hs.toChained hg hcur
      (Reslot.not_self hs.toChained hg hcur) hA).2
    obtain ⟨hloc, hkept⟩ := hrem.reslot.kept hs₁.toChained hg hcur₁
      (Reslot.not_self hs₁.toChained hg hcur₁) hf.loc
    have hslots : ∀ j, A.slot v (image v d₂) j =
        if j = i then some (markDeleted (fileEntry v name c data.length))
        else A.slot v (image v d) j := by
      intro j
      rw [hkept]
      by_cases hj : j = i
      · rw [if_pos ⟨rfl, hj⟩, if_pos hj]
      · rw [if_neg fun h => hj h.2, if_neg hj, hcreated, if_neg fun h => hj h.2]
    have hgone : ∀ {n}, lookup (A.slot v (image v d)) n = none →
        lookup (A.slot v (image v d₂)) n = none :=
      fun hn => lookup_removed hs hcur hA hn hy hslots
    refine ⟨d₂, hrun₂, fun k hk o ho => ?_, diskInfo_congr hv hval, ?_, ?_⟩
    · exact bytes_of_table hv (tab_eq hv hcopies hupd hval) (slack_updates hupd) hk ho
    · rw [exec_findEntry hv hloc]
      exact hgone hnew
    · intro other more e hother hmore hfresh hrun'
      rw [exec_findEntry hv hA] at hfresh
      -- the slot of the deleted file is the first vacant one again
      have hr₂ : Room v d₂ A i := ⟨(change_removed hlt hrem).sound hg hs₁,
        hrem.reslot.isDir_self hs₁.toChained hg, hloc, hlt, fun j hj => ?_, _,
        (hslots i).trans (if_pos rfl), fun h => h.2 (markDeleted_first _)⟩
      · exact hr.same_clusters hv hr₂ hval hfresh (hgone hfresh) hother.visible hmore hrun'
      · rw [hslots, if_neg (Nat.ne_of_lt hj)]
        exact hused j hj

/-- A file on a new volume comes and goes, and comes again on the same clusters. -/
theorem delete_restores_fresh :
    ∃ d'' e' L, exec (fatDelete freshVol plainName) oneFileDisk = (true, d'') ∧
      (∀ o < 512, d'' (512 + o) = freshDisk (512 + o)) ∧
      exec (fatCreate freshVol plainName [1, 2, 3]) d'' = (true, e') ∧
      OnClusters freshVol oneFileDisk plainName [1, 2, 3] L ∧
      OnClusters freshVol e' plainName [1, 2, 3] L := by
  have hnew : (exec (findEntry freshVol freshVol.currentCluster plainName) freshDisk).1 = none :=
    Option.isNone_iff_eq_none.mp (by decide +kernel)
  have hcur := freshVol_current freshDisk
  have hslot : Area.fixed.slot freshVol (image freshVol freshDisk) 0 =
      some fun j => (image freshVol freshDisk).root (32 * 0 + j.val) := by
    rw [Area.slot, if_pos (by decide)]
  have hvacant : Vacant (Area.fixed.slot freshVol (image freshVol freshDisk)) 0 :=
    ⟨by decide, fun j hj => absurd hj (Nat.not_lt_zero j), _, hslot,
      fun hu => hu.1 (freshDisk_root _)⟩
  have hname : Ascii plainName := by simp [Ascii, plainName]
  obtain ⟨d'', hdel, hbytes, _, _, hnext⟩ := delete_restores freshDisk_wellFormed hcur
    hname (by decide) hnew ⟨.fixed, 0, freshVol_flat.isDir hcur, hvacant⟩ oneFileDisk_run
  obtain ⟨e', L, hrun, hon, hon'⟩ := hnext _ _ _ hname (by decide) hnew oneFileDisk_run
  exact ⟨d'', e', L, hdel, hbytes 0 (by decide), hrun, hon, hon'⟩

end FatRoundTrip
