import AoOs.FatRoundTrip

/-! # A creation that fails

    `fat_create` may fail after it has grown the directory, or after it has allocated some
    clusters; those it frees again, so that nothing is lost.  But it frees the chain of an
    old file of the same name before it looks for room, and leaves the entry as it is: if
    then the disk is full, the old file is gone, and its entry refers to a free cluster. -/

namespace FatFailedCreate

open BlockIO FatTypes FatDriver FatGeometry FatImage FatAlloc FatFill
open FatDirs FatScan FatTree FatReslot FatGrow FatOps FatChange FatContents
open FatFrame FatRoundTrip FatWellFormed FatFresh FatPaths Relation
open BlockIO.BlockM (run exec)

/-- Every file that could be read can be read, no entry refers to a free cluster, and a free
    cluster that is now in use belongs to a directory. -/
structure LosesNothing (v : Vol) (d d' : Disk) : Prop where
  reads : ∀ h cwd name maxSize, IsDir v (image v d) h →
    (exec (fatRead (moved v h cwd) name maxSize) d).1.ret →
    (exec (fatRead (moved v h cwd) name maxSize) d').1 =
      (exec (fatRead (moved v h cwd) name maxSize) d).1
  refers : ∀ h i e, IsDir v (image v d') h → HasEntry v (image v d') h i e →
    entryCluster v e = 0 ∨ (image v d').val (entryCluster v e) ≠ 0
  keeps : ∀ c, (image v d).val c = 0 → (image v d').val c ≠ 0 →
    ∃ h l, IsDir v (image v d') h ∧ Locates v (image v d') h (.chain l) ∧ c ∈ l

/-- The name is that of a file in the current directory that has clusters. -/
def Overwrites (v : Vol) (d : Disk) (name : CString) : Prop :=
  name.chars ≠ [] ∧ ∃ e i, (exec (findEntry v v.currentCluster name) d).1 = some (e, i) ∧
    e.isDirectory = false ∧ entryCluster v e ≠ 0

/-! ## What stays readable -/

/-- The directories keep their entries, and all files are kept. -/
structure Undamaged (v : Vol) (I I' : Image) : Prop where
  chained : Chained v I'
  slots : ∀ {h B}, IsDir v I h → Locates v I h B → ∃ B', Locates v I' h B' ∧
    ∀ {j x}, B.slot v I j = some x → B'.slot v I' j = some x
  kept : ∀ {h j x}, IsFile v I h j x → Kept v I I' h j x

section Undamaged

variable {v : Vol} {I I₁ I' : Image}

theorem undamaged_refl (hs : Chained v I) : Undamaged v I I :=
  ⟨hs, fun _ hB => ⟨_, hB, fun h => h⟩, fun hf => hf.kept⟩

theorem undamaged_spare (hr : Spare v I I') (hs : Chained v I) (hg : Geometry v) :
    Undamaged v I I' where
  chained := hr.chained hs hg
  slots := fun _ hB => by
    obtain ⟨hloc, hslot⟩ := hr.kept hB
    exact ⟨_, hloc, fun h => (hslot _).trans h⟩
  kept := fun hf => kept_spare hr hs hg hf

theorem undamaged_growth {D c : Nat} {l : List Nat} (hr : Growth v I D l c I') (hv : Numbered v)
    (hs : Chained v I) : Undamaged v I I' where
  chained := hr.chained hv hs
  slots := fun hh hB => by
    obtain ⟨B', hloc, hslot, _⟩ := hr.slots hv hs hh hB
    exact ⟨B', hloc, hslot⟩
  kept := fun hf => kept_growth hr hv hs hf

theorem Undamaged.trans (h : Undamaged v I I₁) (h' : Undamaged v I₁ I')
    (hdir : ∀ k, IsDir v I k → IsDir v I₁ k) : Undamaged v I I' where
  chained := h'.chained
  slots := fun hh hB => by
    obtain ⟨B₁, hB₁, hslot₁⟩ := h.slots hh hB
    obtain ⟨B', hB', hslot'⟩ := h'.slots (hdir _ hh) hB₁
    exact ⟨B', hB', fun hx => hslot' (hslot₁ hx)⟩
  kept := fun hf => (h.kept hf).trans (h'.kept ((h.kept hf).isFile hf))

/-- A search that has found its entry does not look at more slots. -/
theorem lookup_mono {s s' : Nat → Option Entry} {name : CString} {p : Entry × Nat}
    (h : ∀ {j x}, s j = some x → s' j = some x) (hl : lookup s name = some p) :
    lookup s' name = some p := by
  obtain ⟨e, i⟩ := p
  obtain ⟨h0, hi, hs, he0, hsk, hm, hpass⟩ := lookupFrom_some hl
  refine lookupFrom_hit h0 hi (fun k hk hki => ?_) (h hs) he0 hsk hm
  obtain ⟨x, hx, hp⟩ := hpass k hk hki
  exact ⟨x, h hx, hp⟩

/-- **Undamaged files are read as before.** -/
theorem Undamaged.reads {v : Vol} {d d' : Disk} (h : Undamaged v (image v d) (image v d'))
    (hv : Numbered v) (hs : Chained v (image v d)) (hcur : IsDir v (image v d) v.currentCluster)
    {name : CString} {maxSize : Nat} (hret : (exec (fatRead v name maxSize) d).1.ret) :
    (exec (fatRead v name maxSize) d').1 = (exec (fatRead v name maxSize) d).1 := by
  have hg := hv.geometry
  obtain ⟨B, hB⟩ := hs.located hg hcur
  obtain ⟨e, i, hl, hfile, hmax⟩ := fatRead_found hv hB hret
  have he := (lookup_some hB hl).2.1
  obtain ⟨B', hB', hslot⟩ := h.slots hcur hB
  obtain ⟨l, hst⟩ := exists_stretch (hs.fileChain hcur he hfile)
  obtain ⟨hst', hcontents⟩ := (h.kept ⟨hcur, he, hfile⟩).contents hg.perCluster_pos hst
  rw [exec_fatRead hv hB hl hfile hst hmax,
    exec_fatRead hv hB' (lookup_mono hslot hl) hfile hst' hmax, delivered, delivered, hcontents]

theorem Undamaged.losesNothing {v : Vol} {d d' : Disk}
    (h : Undamaged v (image v d) (image v d')) (hv : Numbered v) (hs : Chained v (image v d))
    (hkeeps : ∀ c, (image v d).val c = 0 → (image v d').val c ≠ 0 →
      ∃ h l, IsDir v (image v d') h ∧ Locates v (image v d') h (.chain l) ∧ c ∈ l) :
    LosesNothing v d d' where
  reads := fun g cwd name maxSize hg hret => by
    have hmoved : Undamaged (moved v g cwd) (image v d) (image v d') :=
      ⟨chained_moved g cwd h.chained, h.slots, fun hf =>
        have hk := h.kept ⟨hf.dir, hf.entry, hf.file⟩
        ⟨hk.dir, hk.entry, hk.chain, hk.data⟩⟩
    exact hmoved.reads (numbered_moved g cwd hv) (chained_moved g cwd hs) hg hret
  refers := fun g i e hg he => by
    by_cases h0 : entryCluster v e = 0
    · exact .inl h0
    · obtain ⟨l, hl⟩ := h.chained.chain_of_ne_zero hg he h0
      exact .inr (chain_val_ne_zero hl hl.mem_head)
  keeps := hkeeps

end Undamaged

/-! ## The ways to fail -/

section Outcomes

variable {v : Vol} (hv : Numbered v) {d d' : Disk} (hs : Chained v (image v d)) {D : Nat}
  {A : Area} (hD : IsDir v (image v d) D)

include hv hs

theorem losesNothing_same (himg : image v d' = image v d) : LosesNothing v d d' := by
  have hsame : Undamaged v (image v d) (image v d') := by
    rw [himg]
    exact undamaged_refl hs
  refine hsame.losesNothing hv hs fun c h0 hne => ?_
  rw [himg] at hne
  exact absurd h0 hne

include hD

/-- All clusters are freed again; the directory may have grown. -/
theorem losesNothing_undone {A₁ : Area} {i : Nat} {I₁ : Image} {M : List Nat}
    (hslot : Slotted v (image v d) D A₁ i I₁) (hundo : Undone v I₁ M (image v d')) :
    LosesNothing v d d' := by
  have hg := hv.geometry
  have hval := undone_val hg.fatCount_pos hundo
  have hspare := spare_undone hundo
  have hs₁ := hslot.chained hv hs
  have hafter := undamaged_spare hspare hs₁ hg
  rcases hslot.grow with rfl | ⟨l, c, hr⟩
  · refine hafter.losesNothing hv hs fun k h0 hne => ?_
    rw [hval] at hne
    exact absurd h0 hne
  · refine ((undamaged_growth hr hv hs).trans hafter fun k hk =>
      (hr.isDir_iff hv hs k).mp hk).losesNothing hv hs fun k h0 hne => ?_
    have hk : k = c := by
      by_contra hkc
      rw [hval, hr.val_other hkc] at hne
      · exact hne h0
      · rintro rfl
        exact chain_val_ne_zero hr.loc.2 hr.last_mem h0
    subst hk
    have hD₁ := (hr.isDir_iff hv hs D).mp hD
    refine ⟨D, _, (hspare.isDir_iff hs₁ hg D).mp hD₁, (hspare.kept (hr.grown_self hv).1).1, ?_⟩
    exact List.mem_append_right l List.mem_cons_self

omit hD in
/-- The directories stay, if what is loose belongs to a file. -/
theorem isDir_aside {i : Nat} {J : Image} (ha : Aside v (image v d) D i J)
    (hno : ∀ g, ¬ ChildAt v (image v d) D i g) {h : Nat} (hh : IsDir v (image v d) h) :
    IsDir v J h ∧ ∀ j e, HasEntry v (image v d) h j e → HasEntry v J h j e := by
  have hg := hv.geometry
  have hentry : ∀ {p j e}, IsDir v (image v d) p → HasEntry v (image v d) p j e →
      HasEntry v J p j e := by
    rintro p j e hp ⟨B, hB, hslot, hn⟩
    have hfirm : ∀ l, B = .chain l → ∀ c ∈ l, ¬ Loose v (image v d) D i c := by
      rintro l rfl c hc
      exact dir_firm hs hg hp (hno p) hB hc
    refine ⟨B, ?_, ?_, hn⟩
    · cases B with
      | fixed => exact hB
      | chain l =>
        exact ⟨hB.1, SuccessorChain.Chain.congr hB.2 fun c hc => ha.val c (hfirm l rfl c hc)⟩
    · rw [slot_congr (fun _ => ha.root) fun l hl c hc => ha.data c (hfirm l hl c hc)]
      exact hslot
  refine ⟨?_, fun j e he => hentry hh he⟩
  induction hh with
  | refl => exact .root
  | tail hp hc ih =>
    obtain ⟨j, e, he, hd, hcl⟩ := hc
    exact ih.child ⟨e, hentry hp he, hd, hcl⟩

section Lost

variable {e : Entry} {i : Nat} {J : Image} {M : List Nat}
  (hclear : Cleared v (image v d) D i J) (hundo : Undone v J M (image v d'))

include hclear hundo

omit hs hD in
theorem val_lost (c : Nat) : (image v d').val c = 0 ↔ Loose v (image v d) D i c := by
  rw [undone_val hv.geometry.fatCount_pos hundo]
  exact hclear.free c

omit hD in
/-- An old file without clusters has nothing to lose. -/
theorem losesNothing_empty (he : HasEntry v (image v d) D i e) (h0 : entryCluster v e = 0) :
    LosesNothing v d d' := by
  have hnone : ∀ c, Loose v (image v d) D i c → (image v d).val c = 0 := by
    rintro c (hz | ⟨l, ⟨_, x, hx, hchain⟩, _⟩)
    · exact hz
    · rw [← he.unique hx, h0] at hchain
      exact absurd rfl (chain_head_ne_zero hchain)
  have htouched := hclear.touched hundo.toTouched
  have hspare : Spare v (image v d) (image v d') :=
    ⟨fun c hc => htouched.val c fun hlo => hc (hnone c hlo),
      fun c hc => htouched.data c fun hlo => hc (hnone c hlo), htouched.root⟩
  refine (undamaged_spare hspare hs hv.geometry).losesNothing hv hs fun c hz hne => ?_
  exact absurd ((val_lost hv hclear hundo c).mpr (.inl hz)) hne

/-- **The old file is lost**: its entry is there, and its first cluster is free. -/
theorem not_losesNothing (he : HasEntry v (image v d) D i e) (hfile : e.isDirectory = false)
    (h0 : entryCluster v e ≠ 0) : ¬ LosesNothing v d d' := by
  intro hn
  obtain ⟨l, hchain⟩ := hs.chain_of_ne_zero hD he h0
  obtain ⟨hdir, hentry⟩ := isDir_aside hv hs (hclear.touched hundo.toTouched)
    (fun g => file_no_child he hfile g) hD
  have hfree := (val_lost hv hclear hundo (entryCluster v e)).mpr
    (.inr ⟨l, ⟨hD, e, he, hchain⟩, hchain.mem_head⟩)
  exact (hn.refers D i e hdir (hentry i e he)).elim h0 fun hne => hne hfree

end Lost

end Outcomes

/-- **WHEN A FAILED CREATION LOSES NOTHING**: exactly if the name is not that of an old file
    with clusters. -/
theorem failed_create_iff {v : Vol} {d d' : Disk} (hv : Numbered v) (hs : Chained v (image v d))
    (hcur : IsDir v (image v d) v.currentCluster) {name : CString} {data : List UInt8}
    (hrun : exec (fatCreate v name data) d = (false, d')) :
    LosesNothing v d d' ↔ ¬ Overwrites v d name := by
  by_cases hname : name.chars = []
  · rw [fatCreate, if_pos (.inr hname)] at hrun
    have himg : image v d' = image v d := congrArg (image v) (congrArg Prod.snd hrun).symm
    exact ⟨fun _ ho => ho.1 hname, fun _ => losesNothing_same hv hs himg⟩
  obtain ⟨A, hA⟩ := hs.located hv.geometry hcur
  have hout := (of_exec (exec_fatCreate hv hs hcur hA name data) hrun).1
  rw [Overwrites, exec_findEntry hv hA]
  generalize hI : image v d' = I' at hout
  cases hout with
  | refused h =>
    refine ⟨fun _ ho => ?_, fun _ => losesNothing_same hv hs hI⟩
    obtain ⟨e, i, hl, hdir⟩ := h.resolve_left hname
    obtain ⟨_, x, j, hl', hfile, _⟩ := ho
    cases Option.mem_unique hl hl'
    cases hdir.symm.trans hfile
  | noSlot hl hno =>
    refine ⟨fun _ ho => ?_, fun _ => losesNothing_same hv hs hI⟩
    obtain ⟨_, e, i, hl', _⟩ := ho
    cases hl.symm.trans hl'
  | undone hl hslot hundo hlt =>
    subst hI
    refine ⟨fun _ ho => ?_, fun _ => losesNothing_undone hv hs hcur hslot hundo⟩
    obtain ⟨_, e, i, hl', _⟩ := ho
    cases hl.symm.trans hl'
  | lost hl hfile hclear hundo hlt =>
    subst hI
    have he := (lookup_some hA hl).2.1
    refine ⟨fun hn ho => ?_, fun ho => ?_⟩
    · obtain ⟨_, x, j, hl', hfile', h0⟩ := ho
      cases Option.mem_unique hl hl'
      exact not_losesNothing hv hs hcur hclear hundo he hfile h0 hn
    · refine losesNothing_empty hv hs hclear hundo he ?_
      by_contra h0
      exact ho ⟨hname, _, _, hl, hfile, h0⟩

/-! ## A full disk -/

/-- More than fits on the disk. -/
def tooMuch : List UInt8 := List.replicate 20480 0

/-- There are not that many clusters. -/
theorem not_stored_tooMuch {A : Area} {e : Entry} {i c : Nat} {J K I' : Image} {L : List Nat} :
    ¬ Stored freshVol tooMuch A e i J L c K I' := by
  intro hst
  have hle := chain_length_le freshVol_numbered hst.chain
  rw [hst.length, tooMuch, List.length_replicate] at hle
  exact absurd hle (by decide)

/-- **Overwriting a file on a disk that is too small** fails, and the old file is lost. -/
theorem overwrite_loses_file : WellFormed freshVol oneFileDisk ∧
    IsDir freshVol (image freshVol oneFileDisk) freshVol.currentCluster ∧
    (exec (fatRead freshVol plainName 3) oneFileDisk).1.ret ∧
    ∃ d', exec (fatCreate freshVol plainName tooMuch) oneFileDisk = (false, d') ∧
      ¬ LosesNothing freshVol oneFileDisk d' := by
  obtain ⟨hw, _, hcur⟩ := oneFileDisk_inv
  have hv := freshVol_numbered
  have hs := hw.sound.toChained
  obtain ⟨A, i, e, L, hf⟩ := oneFileDisk_found
  refine ⟨hw, hcur, (hf.read hv (le_refl 3)).1, ?_⟩
  obtain ⟨r, d', hrun, hout, _⟩ := exec_fatCreate hv hs hcur hf.loc plainName tooMuch
  generalize hI : image freshVol d' = I' at hout
  cases hout with
  | refused h =>
    obtain ⟨x, j, hl, hdir⟩ := h.resolve_left (by decide)
    cases Option.mem_unique hf.lookup hl
    cases hdir.symm.trans hf.file
  | noSlot hl _ => cases hf.lookup.symm.trans hl
  | undone hl _ _ _ => cases hf.lookup.symm.trans hl
  | made hl _ _ => cases hf.lookup.symm.trans hl
  | replaced hl hfile hclear hst =>
    exact absurd hst not_stored_tooMuch
  | lost hl hfile hclear hundo hlt =>
    subst hI
    cases Option.mem_unique hf.lookup hl
    exact ⟨d', hrun, not_losesNothing hv hs hcur hclear hundo (lookup_some hf.loc hl).2.1 hfile
      (chain_head_ne_zero hf.chain)⟩

/-- More than fits under a new name is refused, and nothing is lost. -/
theorem failed_create_new :
    ∃ d', exec (fatCreate freshVol plainName tooMuch) freshDisk = (false, d') ∧
      LosesNothing freshVol freshDisk d' := by
  have hcur := freshVol_current freshDisk
  have hnone : (exec (findEntry freshVol freshVol.currentCluster plainName) freshDisk).1.isNone =
      true := by decide +kernel
  obtain ⟨r, d', hrun, hout, _⟩ := exec_fatCreate freshVol_numbered
    freshVol_flat.sound.toChained hcur (freshVol_flat.isDir hcur) plainName tooMuch
  generalize image freshVol d' = I' at hout
  cases r with
  | true =>
    cases hout with
    | made _ _ hst => exact absurd hst not_stored_tooMuch
    | replaced _ _ _ hst => exact absurd hst not_stored_tooMuch
  | false =>
    refine ⟨d', hrun, (failed_create_iff freshVol_numbered freshVol_flat.sound.toChained hcur
      hrun).mpr fun ho => ?_⟩
    obtain ⟨_, e, i, hl, _⟩ := ho
    rw [hl] at hnone
    cases hnone

end FatFailedCreate
