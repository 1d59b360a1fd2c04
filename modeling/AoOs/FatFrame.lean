import AoOs.FatWellFormed
import AoOs.FatContents

/-! # What a call leaves alone — frame of the FAT operations

    A call that returns 0 changes one slot of the current directory and clusters that were
    free or belonged to that slot.  So every file in another slot keeps its directory entry,
    its chain and its bytes: growing a directory adds a free cluster to the chain of that
    directory, and the change of a slot touches loose clusters and the directory. -/

namespace FatFrame

open BlockIO FatTypes FatDriver FatGeometry FatImage FatAlloc FatDirs FatScan FatTree FatReslot
open FatGrow FatEntries FatOps FatChange FatConfined FatWellFormed FatFresh Relation
open FatPaths (plainName)
open BlockIO.BlockM (run exec)

variable {i : Nat} {e : Entry} {A₁ : Area}

/-- The entry `e` in slot `i` of the directory `h` is a file. -/
structure IsFile (v : Vol) (I : Image) (h i : Nat) (e : Entry) : Prop where
  dir : IsDir v I h
  entry : HasEntry v I h i e
  file : e.isDirectory = false

/-- The file keeps its directory entry, its chain, and the bytes of its clusters. -/
structure Kept (v : Vol) (I I' : Image) (h i : Nat) (e : Entry) : Prop where
  dir : IsDir v I' h
  entry : HasEntry v I' h i e
  chain : ∀ l, I.Chain v (entryCluster v e) l → I'.Chain v (entryCluster v e) l
  data : ∀ l, I.Chain v (entryCluster v e) l → ∀ c ∈ l, I'.data c = I.data c

section Kept

variable {v : Vol} {I I₁ I' : Image} {h j : Nat} {x : Entry} {D : Nat}

theorem IsFile.kept (hf : IsFile v I h j x) : Kept v I I h j x :=
  ⟨hf.dir, hf.entry, fun _ hl => hl, fun _ _ _ _ => rfl⟩

theorem Kept.isFile (hk : Kept v I I' h j x) (hf : IsFile v I h j x) : IsFile v I' h j x :=
  ⟨hk.dir, hk.entry, hf.file⟩

theorem Kept.trans (hk : Kept v I I₁ h j x) (hk' : Kept v I₁ I' h j x) : Kept v I I' h j x :=
  ⟨hk'.dir, hk'.entry, fun l hl => hk'.chain l (hk.chain l hl), fun l hl c hc =>
    (hk'.data l (hk.chain l hl) c hc).trans (hk.data l hl c hc)⟩

/-- The chain of a file is not the chain of a directory. -/
theorem IsFile.off_dir (hs : Chained v I) (hg : Geometry v) (hf : IsFile v I h j x) {l m : List Nat}
    (hD : IsDir v I D) (hloc : Locates v I D (.chain m)) (hl : I.Chain v (entryCluster v x) l) :
    List.Disjoint l m := by
  obtain ⟨o, ho⟩ := hD.owner
  refine hs.disjoint (o := some (h, j)) ⟨hf.dir, x, hf.entry, hl⟩ (hs.dir_owns hg ho hloc) ?_
  rintro rfl
  exact file_no_child hf.entry hf.file D ho.2

/-- **The change of one slot keeps the files in the others.** -/
theorem kept_reslot {A : Area} (hr : Reslot v I D i A e I') (hs : Chained v I) (hg : Geometry v)
    (hf : IsFile v I h j x) (hne : (h, j) ≠ (D, i))
    (hout : ∀ g, ChildAt v I D i g → ¬ ReflTransGen (Child v I) g h) : Kept v I I' h j x := by
  have hown : ∀ {l}, I.Chain v (entryCluster v x) l → Owns v I (some (h, j)) l :=
    fun hl => ⟨hf.dir, x, hf.entry, hl⟩
  have hne' : some (h, j) ≠ some (D, i) := fun heq => hne (Option.some.inj heq)
  refine ⟨hr.isDir_kept hs hg hf.dir hout, ?_, fun l hl => hr.chain_kept hs (hown hl) hne' hl, ?_⟩
  · rw [hr.entry_iff hs hg hf.dir fun hc => hout h hc .refl,
      if_neg fun hh => hne (Prod.ext_iff.mpr hh)]
    exact hf.entry
  · intro l hl c hc
    rw [hr.data c (not_loose hs (hown hl) hne' hc)]
    have hloc := hr.loc
    cases A with
    | fixed => rfl
    | chain m =>
      refine if_neg fun hk => ?_
      exact hf.off_dir hs hg hr.dir hloc hl hc (List.mem_of_getElem? hk)

/-- Growing a directory keeps all files. -/
theorem kept_growth {D c : Nat} {m : List Nat} (hr : Growth v I D m c I') (hv : Numbered v)
    (hs : Chained v I) (hf : IsFile v I h j x) : Kept v I I' h j x := by
  refine ⟨(hr.isDir_iff hv hs h).mp hf.dir, (hr.entry_iff hv hs hf.dir).mp hf.entry, ?_, ?_⟩
  · intro l hl
    refine hr.chain_other hv hs (o := some (h, j)) ⟨hf.dir, x, hf.entry, hl⟩ ?_ hl
    intro ho
    exact file_no_child hf.entry hf.file D ho.2
  · intro l hl k hk
    rw [hr.data_eq, if_neg]
    rintro rfl
    exact chain_val_ne_zero hl hk hr.free

/-- So does a change of free clusters. -/
theorem kept_spare (hr : Spare v I I') (hs : Chained v I) (hg : Geometry v)
    (hf : IsFile v I h j x) :
    Kept v I I' h j x :=
  ⟨(hr.isDir_iff hs hg h).mp hf.dir, (hr.entry_iff hs hg hf.dir).mp hf.entry,
    fun _ hl => hr.chain hl, fun _ hl c hc => hr.data c (chain_val_ne_zero hl hc)⟩

theorem kept_slotted (hslot : Slotted v I D A₁ i I₁) (hv : Numbered v) (hs : Chained v I)
    (hf : IsFile v I h j x) : Kept v I I₁ h j x := by
  rcases hslot.grow with rfl | ⟨l, c, hr⟩
  · exact hf.kept
  · exact kept_growth hr hv hs hf

/-- A file is not in a vacant slot. -/
theorem ne_vacant (hslot : Slotted v I D A₁ i I₁) (he : HasEntry v I₁ h j x) : (h, j) ≠ (D, i) := by
  rintro heq
  cases heq
  obtain ⟨_, _, y, hy, hu⟩ := hslot.vacant
  exact (not_used hu).2 (Option.some.inj ((he.slot hslot.loc).symm.trans hy) ▸ he.named.1)

/-- A file with another name is not in the slot that was found. -/
theorem ne_found {A : Area} {name : CString} (hA : Locates v I D A)
    (hl : lookup (A.slot v I) name = some (e, i)) (he : HasEntry v I h j x)
    (hother : ¬ (h = D ∧ x.sfn = makeSfn name)) : (h, j) ≠ (D, i) := by
  rintro heq
  cases heq
  obtain ⟨_, he', hsfn⟩ := lookup_some hA hl
  exact hother ⟨rfl, he.unique he' ▸ hsfn⟩

/-- A slot filled after a vacant one was found. -/
theorem kept_filled (hv : Numbered v) (hs : Chained v I) (hslot : Slotted v I D A₁ i I₁)
    (hr : Reslot v I₁ D i A₁ e I') (hf : IsFile v I h j x) : Kept v I I' h j x := by
  have hk := kept_slotted hslot hv hs hf
  refine hk.trans (kept_reslot hr (hslot.chained hv hs) hv.geometry (hk.isFile hf)
    (ne_vacant hslot hk.entry) fun g hg => ?_)
  exact absurd hg (Slotted.no_child hslot g)

/-- The contents of a file that is kept. -/
theorem Kept.contents (hk : Kept v I I' h j x) (hspc : 0 < v.sectorsPerCluster) {l : List Nat}
    (hl : FatContents.Stretch v I x l) : FatContents.Stretch v I' x l ∧
      FatContents.contents v I' l x.size = FatContents.contents v I l x.size := by
  have hlen := hl.length hspc
  rcases hl with ⟨h0, hsize, rfl⟩ | ⟨hl, hn⟩
  · exact ⟨.inl ⟨h0, hsize, rfl⟩, by rw [hsize]; rfl⟩
  · exact ⟨.inr ⟨hk.chain l hl, hn⟩, FatContents.contents_congr hlen hspc (hk.data l hl)⟩

end Kept

/-! ## The calls -/

section Outcomes

variable {v : Vol} (hv : Numbered v) {I I' : Image} (hs : Chained v I) {D : Nat} {A : Area}
  (hD : IsDir v I D) (hA : Locates v I D A) {name : CString} {h j : Nat} {x : Entry}
  (hf : IsFile v I h j x)

include hv hs hf

theorem kept_made {I₁ J : Image} (hD : IsDir v I D) (hslot : Slotted v I D A₁ i I₁)
    (ha : Aside v I₁ D i J) (e : Entry) : Kept v I (A₁.put v J e i) h j x := by
  obtain ⟨_, _, y, hy, hu⟩ := hslot.vacant
  exact kept_filled hv hs hslot (ha.reslot ((hslot.isDir_iff hv hs D).mp hD) hslot.loc hy
    (not_used hu).1 e) hf

include hD hA

theorem kept_created {data : List UInt8} (hout : Create v I D A name data true I')
    (hother : ¬ (h = D ∧ x.sfn = makeSfn name)) : Kept v I I' h j x := by
  cases hout with
  | made hl hslot hst =>
    rw [hst.eq]
    exact kept_made hv hs hf hD hslot (hslot.cleared.touched hst.filling.toTouched) _
  | replaced hl hfile hclear hst =>
    obtain ⟨_, he, hsfn⟩ := lookup_some hA hl
    refine kept_reslot (stored_reslot hclear hst hD hA (he.slot hA) he.named.2) hs
      hv.geometry hf (ne_found hA hl hf.entry hother) fun g hg => ?_
    exact absurd hg (file_no_child he hfile g)

omit hD in
theorem kept_deleted (hout : Delete v I D A name true I')
    (hother : ¬ (h = D ∧ x.sfn = makeSfn name)) : Kept v I I' h j x := by
  cases hout with
  | removed hl hfile hrem =>
    have he := (lookup_some hA hl).2.1
    refine kept_reslot hrem.reslot hs hv.geometry hf (ne_found hA hl hf.entry hother)
      fun g hg => ?_
    exact absurd hg (file_no_child he hfile g)

omit hA in
theorem kept_madeDir (hout : Mkdir v I D A name true I') : Kept v I I' h j x := by
  cases hout with
  | made hl hslot hfree =>
    exact kept_made hv hs hf hD hslot (aside_dotted (firstFree_some hv hfree).2.1) _

omit hD in
theorem kept_removedDir (hout : Rmdir v I D A name true I')
    (hother : ¬ (h = D ∧ x.sfn = makeSfn name))
    (hinside : ∀ e i, lookup (A.slot v I) name = some (e, i) →
      ¬ ReflTransGen (Child v I) (entryCluster v e) h) : Kept v I I' h j x := by
  cases hout with
  | @removed e i B _ hl hdir hB hblank hrem =>
    have he := (lookup_some hA hl).2.1
    refine kept_reslot hrem.reslot hs hv.geometry hf (ne_found hA hl hf.entry hother)
      fun g hg => ?_
    obtain rfl := ChildAt.unique ⟨e, he, hdir, rfl⟩ hg
    exact hinside e i hl

end Outcomes

/-- The name that a call of `fat_create`, `fat_delete`, `fat_mkdir` or `fat_rmdir` is about. -/
def named : Call → Option CString
  | .create name _ => some name
  | .delete name => some name
  | .mkdir name => some name
  | .rmdir name => some name
  | _ => none

/-- The directory that a successful `fat_rmdir` removes. -/
def Removes (v : Vol) (I : Image) (call : Call) (g : Nat) : Prop :=
  ∃ name A e i, call = .rmdir name ∧ Locates v I v.currentCluster A ∧
    lookup (A.slot v I) name = some (e, i) ∧ entryCluster v e = g

/-- **OTHER FILES ARE LEFT ALONE**: after a call that returns 0, every file with another
    directory or another short name, and not inside a removed directory, has the entry, the
    chain and the bytes it had. -/
theorem others_kept {v : Vol} {d : Disk} (hv : Numbered v) (hs : Chained v (image v d))
    (hcur : IsDir v (image v d) v.currentCluster) {call : Call} {name : CString}
    (hcall : named call = some name) (hret : Returns (v, d) call) {h i : Nat} {e : Entry}
    (hf : IsFile v (image v d) h i e) (hother : ¬ (h = v.currentCluster ∧ e.sfn = makeSfn name))
    (hout : ∀ g, Removes v (image v d) call g → ¬ ReflTransGen (Child v (image v d)) g h) :
    Kept v (image v d) (image v (after (fun _ => true) (v, d) call).2) h i e := by
  obtain ⟨A, hA⟩ := hs.located hv.geometry hcur
  cases call with
  | create n data =>
    obtain rfl := Option.some.inj hcall
    have hcreate := of_exec (exec_fatCreate hv hs hcur hA n data) (Prod.ext hret rfl)
    exact kept_created hv hs hcur hA hf hcreate.1 hother
  | delete n =>
    obtain rfl := Option.some.inj hcall
    have hdelete := of_exec (exec_fatDelete hv hs hcur hA n) (Prod.ext hret rfl)
    exact kept_deleted hv hs hA hf hdelete.1 hother
  | mkdir n =>
    have hmkdir := of_exec (exec_fatMkdir hv hs hcur hA n) (Prod.ext hret rfl)
    exact kept_madeDir hv hs hcur hf hmkdir.1
  | rmdir n =>
    obtain rfl := Option.some.inj hcall
    have hrmdir := of_exec (exec_fatRmdir hv hs hcur hA n) (Prod.ext hret rfl)
    refine kept_removedDir hv hs hA hf hrmdir.1 hother fun x j hl => ?_
    exact hout _ ⟨n, A, x, j, rfl, hA, hl, rfl⟩
  | read _ _ | list | chdir _ | getDiskInfo => cases hcall

/-! ## A file beside another one -/

/-- The file `AB` with three bytes. -/
def oneFileDisk : Disk := (exec (fatCreate freshVol plainName [1, 2, 3]) freshDisk).2

theorem oneFileDisk_run :
    exec (fatCreate freshVol plainName [1, 2, 3]) freshDisk = (true, oneFileDisk) :=
  Prod.ext (by decide +kernel) rfl

theorem oneFileDisk_inv : FatWellFormed.Inv (freshVol, oneFileDisk) :=
  FatWellFormed.Inv.create ⟨freshDisk_wellFormed, freshVol_flat.short_freshVol,
    freshVol_current freshDisk⟩ (by decide) (by rw [Visible]; decide) oneFileDisk_run

/-- `"CD"`. -/
def otherName : CString := ⟨[67, 68], by decide⟩

/-- Creating `CD` leaves `AB` on its clusters. -/
theorem others_kept_oneFile : ∃ i e L,
    IsFile freshVol (image freshVol oneFileDisk) freshVol.currentCluster i e ∧
    (image freshVol oneFileDisk).Chain freshVol (entryCluster freshVol e) L ∧ L ≠ [] ∧
    Kept freshVol (image freshVol oneFileDisk)
      (image freshVol (after (fun _ => true) (freshVol, oneFileDisk) (.create otherName [4])).2)
      freshVol.currentCluster i e := by
  obtain ⟨hw, _, hcur⟩ := oneFileDisk_inv
  have hs := hw.sound.toChained
  obtain ⟨A, hA⟩ := hs.located freshVol_numbered.geometry hcur
  have hfind : ((exec (findEntry freshVol freshVol.currentCluster plainName) oneFileDisk).1.map
      fun p => (p.1.isDirectory, p.1.size)) = some (false, 3) := by decide +kernel
  rw [exec_findEntry freshVol_numbered hA] at hfind
  obtain ⟨⟨e, i⟩, hl, hp⟩ := Option.map_eq_some_iff.mp hfind
  obtain ⟨hfile, hsize⟩ := Prod.mk.inj hp
  obtain ⟨_, he, hsfn⟩ := lookup_some hA hl
  rcases hs.fileChain hcur he hfile with ⟨_, h0⟩ | ⟨L, hL, _⟩
  · exact absurd (hsize.symm.trans h0) (by decide)
  obtain ⟨t, rfl⟩ := hL.head
  refine ⟨i, e, _, ⟨hcur, he, hfile⟩, hL, List.cons_ne_nil _ t, ?_⟩
  have hret : Returns (freshVol, oneFileDisk) (.create otherName [4]) := by
    show (exec (fatCreate freshVol otherName [4]) oneFileDisk).1
    decide +kernel
  refine others_kept freshVol_numbered hs hcur rfl hret
    ⟨hcur, he, hfile⟩ (fun h => ?_) fun g ⟨_, _, _, _, h, _⟩ => nomatch h
  exact absurd (hsfn.symm.trans h.2) (by decide)

end FatFrame
