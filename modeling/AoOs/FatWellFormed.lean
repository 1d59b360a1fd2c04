import AoOs.FatCopies
import AoOs.FatPaths

/-! # Well-formed volumes stay well-formed

    A volume is well-formed when its copies of the table are equal, its tree is sound,
    the live names of a directory differ, and every cluster in use is on the chain of a
    live entry.  The calls that succeed keep it that way, in directories that the driver
    can see to the end, with one exception: a name whose first byte is 0xE5.  The entry
    written for it carries the mark of deleted entries, so its clusters are lost.

    The failing calls differ.  `fat_mkdir` takes its cluster before it asks whether there
    is a slot; without one the cluster is lost. -/

namespace FatWellFormed

open BlockIO FatTypes FatDriver FatGeometry FatTable FatImage FatAlloc FatDirs FatScan FatTree
open FatReslot FatGrow FatEntries FatOps FatChange FatCopies FatConfined FatPaths FatFresh CwdBuffer
open StepSystem Relation
open BlockIO.BlockM (run exec)

variable {D i : Nat} {I₁ : Image} {name : CString} {e : Entry}

/-- In every directory the live entries have different names. -/
def Distinct (v : Vol) (I : Image) : Prop :=
  ∀ ⦃h A i j e e'⦄, IsDir v I h → Locates v I h A → A.slot v I i = some e →
    A.slot v I j = some e' → Live e → Live e' → e.sfn = e'.sfn → i = j

structure WellFormed (v : Vol) (d : Disk) : Prop where
  numbered : Numbered v
  copies : Identical v d
  sound : Sound v (image v d)
  distinct : Distinct v (image v d)
  accounted : Accounted v (image v d)

section Distinct

variable {v : Vol} {I I' : Image}

theorem distinct_of_short (hs : Sound v I) (hshort : Short v I) : Distinct v I :=
  fun _ _ _ _ _ _ hh hA hx hy hlx hly hxy =>
    hs.names hh hA (hshort hh hA hx hlx) (hshort hh hA hy hly) hx hy hlx hly hxy

theorem Distinct.growth {c : Nat} {l : List Nat} (h : Distinct v I) (hr : Growth v I D l c I')
    (hv : Numbered v) (hs : Sound v I) : Distinct v I' := by
  intro k B' i j x y hh hB' hx hy hlx hly hxy
  obtain ⟨B, hh, hB, _, hnew⟩ := hr.slots_back hv hs hh hB'
  rcases hnew hx with hx | ⟨hx0, _⟩
  · rcases hnew hy with hy | ⟨hy0, _⟩
    · exact h hh hB hx hy hlx hly hxy
    · exact absurd hy0 hly.1
  · exact absurd hx0 hlx.1

end Distinct

/-- A volume of empty files and no cluster in use. -/
theorem wellFormed_of_flat {d : Disk} (hf : Flat freshVol (image freshVol d))
    (hlow : ∀ a < 1536, d a = freshDisk a) (hfree : ∀ c, (image freshVol d).val c = 0) :
    WellFormed freshVol d where
  numbered := freshVol_numbered
  copies := fun i hi o ho => by
    have hi : i < 2 := hi
    have ho : o < 512 := ho
    have hcopy : ∀ k, copyBase freshVol k = 1 + k := fun k => by
      rw [copyBase, show freshVol.reservedSectors = 1 from rfl, show freshVol.fatSize = 1 from rfl,
        Nat.mul_one]
    rw [hcopy, hcopy, hlow _ (by omega), hlow _ (by omega)]
    -- three bytes, and zeros behind them
    rcases Nat.lt_or_ge o 3 with h3 | h3
    · have key : ∀ i : Fin 2, ∀ o : Fin 3,
          freshDisk (512 * (1 + i.val) + o.val) = freshDisk (512 * (1 + 0) + o.val) := by decide
      exact key ⟨i, hi⟩ ⟨o, h3⟩
    · rw [freshDisk_zero (by omega) (by omega), freshDisk_zero (by omega) (by omega)]
  sound := hf.sound
  distinct := distinct_of_short hf.sound hf.short_freshVol
  accounted := fun c _ hnz => absurd (hfree c) hnz

theorem freshDisk_wellFormed : WellFormed freshVol freshDisk :=
  wellFormed_of_flat freshVol_flat (fun _ _ => rfl) freshDisk_free

theorem fullDisk_wellFormed : WellFormed freshVol fullDisk :=
  wellFormed_of_flat fullDisk_flat (fun _ => fullDisk_low) fullDisk_free

theorem freshVol_current (d : Disk) : IsDir freshVol (image freshVol d) freshVol.currentCluster :=
  (show freshVol.currentCluster = rootDir freshVol by decide) ▸ .root

/-! ## A directory that could not be made -/

/-- The driver finds no slot in the directory although clusters may be free: the first
    512 slots are in use, or it is the fixed root directory and all its slots are. -/
def DirFull (v : Vol) (I : Image) (h : Nat) : Prop :=
  ∃ A, Locates v I h A ∧
    (UsedUpTo (A.slot v I) maxDirEntries ∨ A = .fixed ∧ ∃ n, Full (A.slot v I) n)

/-- A new name, no slot for it, and a free cluster. -/
structure Leaks (v : Vol) (I : Image) (h : Nat) (name : CString) : Prop where
  named : name.chars ≠ []
  fresh : ∀ i e, i < maxDirEntries → HasEntry v I h i e → e.sfn ≠ makeSfn name
  full : DirFull v I h
  free : ∃ c, validDataCluster v c ∧ I.val c = 0

section Mkdir

variable {v : Vol} {d : Disk} (hw : WellFormed v d)
  (hcur : IsDir v (image v d) v.currentCluster) {name : CString}

/-- A slot found, and none there. -/
theorem Slotted.not_full {I : Image} {A₁ : Area} (h : Slotted v I D A₁ i I₁) (hv : Numbered v) :
    ¬ DirFull v I D := by
  rintro ⟨A, hA, hfull⟩
  obtain ⟨hi, _, e, he, hu⟩ := h.vacant
  rcases h.grow with rfl | ⟨l, c, hgrow⟩
  · rw [← hA.unique h.loc] at he
    rcases hfull with hused | ⟨-, n, hn, hused, hnone⟩
    · obtain ⟨x, hx, hux⟩ := hused i hi
      exact hu (Option.mem_unique hx he ▸ hux)
    · rcases Nat.lt_or_ge i n with hlt | hge
      · obtain ⟨x, hx, hux⟩ := hused i hlt
        exact hu (Option.mem_unique hx he ▸ hux)
      · obtain ⟨x, hx⟩ := slot_of_lt he hge
        cases hnone.symm.trans hx
  · have hAl := hA.unique hgrow.loc
    rcases hfull with hused | ⟨hfixed, _⟩
    · subst hAl
      obtain ⟨hloc, hold, _⟩ := hgrow.grown_self hv
      rw [h.loc.unique hloc] at he
      obtain ⟨x, hx, hux⟩ := hused i hi
      exact hu (Option.some.inj ((hold hx).symm.trans he) ▸ hux)
    · cases hAl.symm.trans hfixed

include hw hcur

/-- A cluster is lost. -/
theorem mkdir_leaks (hl : Leaks v (image v d) v.currentCluster name) :
    ∃ d', exec (fatMkdir v name) d = (false, d') ∧ ¬ Accounted v (image v d') := by
  have hv := hw.numbered
  have hs := hw.sound
  obtain ⟨A, hA⟩ := hs.located hv.geometry hcur
  obtain ⟨r, d', hrun, hout, _⟩ := exec_fatMkdir hv hs.toChained hcur hA name
  generalize hI : image v d' = I' at hout
  obtain ⟨c₀, hc₀, hz₀⟩ := hl.free
  cases hout with
  | refused h =>
    rcases h with h | h
    · exact absurd h hl.named
    · obtain ⟨⟨e, i⟩, hf⟩ := Option.ne_none_iff_exists'.mp h
      obtain ⟨hi, he, hsfn⟩ := lookup_some hA hf
      exact absurd hsfn (hl.fresh i e hi he)
  | full _ _ hfree => exact absurd hz₀ (firstFree_none hv hfree hc₀)
  | slotOnly _ hslot _ => exact absurd hl.full (Slotted.not_full hslot hv)
  | made _ hslot _ => exact absurd hl.full (Slotted.not_full hslot hv)
  | @leaked c _ _ _ hfree =>
    obtain ⟨hc, hz, _⟩ := firstFree_some hv hfree
    refine ⟨d', hrun, fun hacc => ?_⟩
    -- the cluster is in use, and was on no chain
    have hspare := spare_allocated (v := v) hz
    have hval : ((image v d).allocated v c).val c = eocValue v := by
      rw [Image.val, Image.tab_allocated, if_pos ⟨hv.geometry.fatCount_pos, rfl⟩]
    have hlt : eocMin v ≤ eocValue v := by simpa [isEoc] using isEoc_eocValue v
    have hpos : 0 < eocMin v := Nat.lt_of_le_of_lt (Nat.zero_le _) hv.small
    obtain ⟨o, l, ho, hmem⟩ := hI ▸ hacc c hc (by rw [hI, hval]; omega) (by rw [hI, hval]; omega)
    rw [← hspare.owns_iff hs.toChained hv.geometry] at ho
    obtain ⟨x, hx⟩ := owns_chain ho
    exact chain_not_free hx hz hmem

/-- **A failed `fat_mkdir`** leaves a well-formed volume exactly when it did not take a
    cluster for a directory that has no slot. -/
theorem mkdir_failed_wellFormed_iff {d' : Disk} (hrun : exec (fatMkdir v name) d = (false, d')) :
    WellFormed v d' ↔ ¬ Leaks v (image v d) v.currentCluster name := by
  have hv := hw.numbered
  have hs := hw.sound
  constructor
  · intro hw' hl
    obtain ⟨d₁, hrun₁, hno⟩ := mkdir_leaks hw hcur hl
    cases hrun.symm.trans hrun₁
    exact hno hw'.accounted
  · intro hno
    obtain ⟨A, hA⟩ := hs.located hv.geometry hcur
    obtain ⟨hout, hup⟩ := of_exec (exec_fatMkdir hv hs.toChained hcur hA name) hrun
    have hcopies := identical_updates hv hw.copies hup
    suffices h : Sound v (image v d') ∧ Distinct v (image v d') ∧ Accounted v (image v d') from
      ⟨hv, hcopies, h.1, h.2.1, h.2.2⟩
    clear hrun hup hcopies
    generalize image v d' = I' at hout
    cases hout with
    | refused | full => exact ⟨hs, hw.distinct, hw.accounted⟩
    | @leaked c hname hl hslot hfree =>
      obtain ⟨hc, hz, _⟩ := firstFree_some hv hfree
      refine absurd ⟨hname, fun i e hi he hsfn => ?_, ⟨A, hA, ?_⟩, c, hc, hz⟩ hno
      · cases hl.symm.trans ((hs.lookup_iff hcur hA).mpr ⟨hi, he, hsfn⟩)
      · rcases hslot with hused | ⟨hfull, hfixed | hnone⟩
        · exact .inl hused
        · exact .inr ⟨hfixed, hfull⟩
        · cases hnone.symm.trans hfree
    | slotOnly _ hslot _ =>
      refine ⟨Slotted.sound hslot hv hs, ?_, Slotted.accounted hslot hv hs hw.accounted⟩
      rcases hslot.grow with rfl | ⟨l, c, hgrow⟩
      · exact hw.distinct
      · exact hw.distinct.growth hgrow hv hs

end Mkdir

/-- The name `Q`. -/
def newName : CString := ⟨[81], by decide⟩

theorem fullDisk_leaks :
    Leaks freshVol (image freshVol fullDisk) freshVol.currentCluster newName where
  named := by decide
  fresh := fun i e _ he hsfn => by
    have hs := he.slot (fullDisk_flat.isDir (freshVol_current fullDisk))
    have hi := freshVol_slot_lt hs
    cases (fullDisk_slot hi).symm.trans hs
    have key : ∀ i : Fin 16, UInt8.ofNat (65 + i.val) ≠ 81 := by decide
    exact key ⟨i, hi⟩ (List.cons.inj hsfn).1
  full := ⟨.fixed, fullDisk_flat.isDir (freshVol_current fullDisk), .inr ⟨rfl, 16, by decide,
    fun j hj => ⟨_, fullDisk_slot hj, (letterEntry_live hj).2⟩, by
      rw [Area.slot, if_neg (by decide)]⟩⟩
  free := ⟨2, by decide, fullDisk_free 2⟩

/-- **The cluster of a directory without a slot** is lost: `mkdir Q` in a root directory
    of 16 files. -/
theorem mkdir_full_root : WellFormed freshVol fullDisk ∧
    IsDir freshVol (image freshVol fullDisk) freshVol.currentCluster ∧
    ∃ d', exec (fatMkdir freshVol newName) fullDisk = (false, d') ∧ ¬ WellFormed freshVol d' := by
  obtain ⟨d', hrun, hno⟩ :=
    mkdir_leaks fullDisk_wellFormed (freshVol_current fullDisk) fullDisk_leaks
  exact ⟨fullDisk_wellFormed, freshVol_current fullDisk, d', hrun, fun h => hno h.accounted⟩

theorem letterA_noNul : (0 : UInt8) ∉ [65] := by decide

/-- `"A"`. -/
def letterA : CString := ⟨[65], letterA_noNul⟩

/-- `mkdir A` where there is a file `A` leaves the volume well formed. -/
theorem mkdir_failed_existing :
    ∃ d', exec (fatMkdir freshVol letterA) fullDisk = (false, d') ∧ WellFormed freshVol d' := by
  have hcur := freshVol_current fullDisk
  have hrun : (exec (fatMkdir freshVol letterA) fullDisk).1 = false := by decide +kernel
  have hsome : (exec (findEntry freshVol freshVol.currentCluster letterA) fullDisk).1.isSome := by
    decide +kernel
  rw [exec_findEntry freshVol_numbered (fullDisk_flat.isDir hcur)] at hsome
  obtain ⟨⟨e, i⟩, hl⟩ := Option.isSome_iff_exists.mp hsome
  dsimp only at hl
  obtain ⟨hi, he, hsfn⟩ := lookup_some (fullDisk_flat.isDir hcur) hl
  exact ⟨_, Prod.ext hrun rfl, (mkdir_failed_wellFormed_iff fullDisk_wellFormed hcur
    (Prod.ext hrun rfl)).mpr fun h => h.fresh i e hi he hsfn⟩

/-! ## Calls that succeed -/

/-- The call returns 0; only the five calls of the tree do here. -/
def Returns (s : Vol × Disk) : Call → Prop
  | .create name data => (exec (fatCreate s.1 name data) s.2).1
  | .delete name => (exec (fatDelete s.1 name) s.2).1
  | .mkdir name => (exec (fatMkdir s.1 name) s.2).1
  | .rmdir name => (exec (fatRmdir s.1 name) s.2).1
  | .chdir name => (exec (fatChdir s.1 name) s.2).1 ≠ none
  | _ => False

/-- A name whose entry is not taken for a deleted one. -/
def Visible (name : CString) : Prop := name.chars.head? ≠ some 0xE5

/-- A size is a 32-bit number, and the names of new entries are visible. -/
def Sane : Call → Prop
  | .create name data => data.length < 2 ^ 32 ∧ Visible name
  | .mkdir name => Visible name
  | _ => True

/-- The short name of a visible name does not start with the mark of deleted entries. -/
theorem Visible.sfn (h : Visible name) (he : e.sfn = makeSfn name) : e 0 ≠ 0xE5 := by
  intro h0
  have hhead : (makeSfn name).head? = some 0xE5 := by
    rw [← he]
    exact congrArg some h0
  rw [makeSfn] at hhead
  cases hchars : name.chars with
  | nil =>
    rw [hchars] at hhead
    exact absurd hhead (by decide)
  | cons c cs =>
    rw [hchars] at hhead
    by_cases hdot : c = 46
    · rw [hdot] at hhead
      exact absurd (Option.some.inj hhead) (by decide)
    · have hc : upcase c = 0xE5 := by
        rw [List.takeWhile_cons_of_pos (by simpa using hdot)] at hhead
        exact Option.some.inj hhead
      refine h ?_
      rw [hchars]
      refine congrArg some ?_
      rw [upcase] at hc
      split at hc
      · rename_i hrange
        have h1 : 97 ≤ c.toNat := hrange.1
        have h2 : c.toNat ≤ 122 := hrange.2
        have := congrArg UInt8.toNat hc
        rw [UInt8.toNat_sub_of_le _ _ (UInt8.le_iff_toNat_le.mpr (by
          rw [show (32 : UInt8).toNat = 32 from rfl]; omega)),
          show (32 : UInt8).toNat = 32 from rfl, show (0xE5 : UInt8).toNat = 229 from rfl] at this
        omega
      · exact hc

/-- The invariant of runs of successful calls. -/
structure Inv (s : Vol × Disk) : Prop where
  wellFormed : WellFormed s.1 s.2
  short : Short s.1 (image s.1 s.2)
  current : IsDir s.1 (image s.1 s.2) s.1.currentCluster

section Steps

variable {v : Vol} {d d' : Disk}

/-- What a changed slot leaves of the invariant. -/
theorem Inv.change (hi : Inv (v, d)) {A : Area} (hs₁ : Sound v I₁) (hshort₁ : Short v I₁)
    (hacc₁ : Accounted v I₁) (hch : Change v I₁ v.currentCluster i A e (image v d'))
    (hlive : (∀ c, Loose v I₁ v.currentCluster i c → (image v d').val c = 0) ∨ Live e)
    (hempty : ∀ g j x, ChildAt v I₁ v.currentCluster i g → ¬ HasEntry v I₁ g j x)
    (hup : Updates v (image v d) (image v d')) : Inv (v, d') := by
  have hg := hi.wellFormed.numbered.geometry
  have hs' := hch.sound hg hs₁
  have hshort' : Short v (image v d') := hch.short hg hs₁ hshort₁
  exact ⟨⟨hi.wellFormed.numbered, identical_updates hi.wellFormed.numbered hi.wellFormed.copies hup,
    hs', distinct_of_short hs' hshort', hch.accounted hg hs₁ hacc₁ hlive hempty⟩, hshort',
    hch.reslot.isDir_self hs₁.toChained hg⟩

/-- A slot without a named entry is no directory. -/
theorem Slotted.no_child {I : Image} {A₁ : Area} (h : Slotted v I D A₁ i I₁) (g : Nat) :
    ¬ ChildAt v I₁ D i g := by
  rintro ⟨e, he, _, _⟩
  obtain ⟨_, _, x, hx, hu⟩ := h.vacant
  exact (not_used hu).2 (Option.some.inj ((he.slot h.loc).symm.trans hx) ▸ he.named.1)

theorem file_no_child {I : Image} (he : HasEntry v I D i e) (hfile : e.isDirectory = false)
    (g : Nat) : ¬ ChildAt v I D i g := by
  rintro ⟨x, hx, hd, _⟩
  rw [← he.unique hx, hfile] at hd
  cases hd

/-- A new entry is live. -/
theorem Visible.live (h : Visible name) (he : e.sfn = makeSfn name) (hp : Plain e) : Live e := by
  obtain ⟨b, t, hb, hb0, _⟩ := makeSfn_head name
  refine hp.live_iff.mpr ⟨?_, h.sfn he⟩
  rw [show e 0 = b from (List.cons.inj (he.trans hb)).1]
  exact hb0

variable (hi : Inv (v, d))

include hi

theorem Inv.create {data : List UInt8} (hsize : data.length < 2 ^ 32) (hvis : Visible name)
    (hrun : exec (fatCreate v name data) d = (true, d')) : Inv (v, d') := by
  obtain ⟨hv, _, hs, _, hacc⟩ := hi.wellFormed
  have hcur := hi.current
  obtain ⟨A, hA⟩ := hs.located hv.geometry hcur
  obtain ⟨hout, hup⟩ := of_exec (exec_fatCreate hv hs.toChained hcur hA name data) hrun
  generalize hI : image v d' = I' at hout
  cases hout with
  | @made A₁ i c I₁ K _ L hl hslot hst =>
    have hch := change_created hv hs hcur hA hsize hl hslot hst
    rw [← hI] at hch
    exact hi.change (Slotted.sound hslot hv hs) (Slotted.short hslot hv hs hi.short)
      (Slotted.accounted hslot hv hs hacc) hch
      (.inr (hvis.live (sfn_fileEntry v name c _) (fileEntry_plain v name c _)))
      (fun g j x hg => absurd hg (Slotted.no_child hslot g)) hup
  | @replaced e i c J K _ L hl hfile hclear hst =>
    have hch := change_replaced hv hs hcur hA hsize hl hfile hclear hst
    rw [← hI] at hch
    have he := (lookup_some hA hl).2.1
    exact hi.change hs hi.short hacc hch (.inr he.named.1)
      (fun g j x hg => absurd hg (file_no_child he hfile g)) hup

theorem Inv.delete (hrun : exec (fatDelete v name) d = (true, d')) : Inv (v, d') := by
  obtain ⟨hv, _, hs, _, hacc⟩ := hi.wellFormed
  have hcur := hi.current
  obtain ⟨A, hA⟩ := hs.located hv.geometry hcur
  obtain ⟨hout, hup⟩ := of_exec (exec_fatDelete hv hs.toChained hcur hA name) hrun
  generalize hI : image v d' = I' at hout
  cases hout with
  | removed hl hfile hrem =>
    subst hI
    obtain ⟨hlt, he, _⟩ := lookup_some hA hl
    exact hi.change hs hi.short hacc (change_removed hlt hrem) (.inl hrem.freed)
      (fun g j x hg => absurd hg (file_no_child he hfile g)) hup

theorem Inv.mkdir (hvis : Visible name) (hrun : exec (fatMkdir v name) d = (true, d')) :
    Inv (v, d') := by
  obtain ⟨hv, _, hs, _, hacc⟩ := hi.wellFormed
  have hcur := hi.current
  obtain ⟨A, hA⟩ := hs.located hv.geometry hcur
  obtain ⟨hout, hup⟩ := of_exec (exec_fatMkdir hv hs.toChained hcur hA name) hrun
  generalize hI : image v d' = I' at hout
  cases hout with
  | @made A₁ i c I₁ hl hslot hfree =>
    have hch := change_made hv hs hcur hA hl hslot hfree
    rw [← hI] at hch
    obtain ⟨hc, _, _⟩ := firstFree_some hv hfree
    exact hi.change (Slotted.sound hslot hv hs) (Slotted.short hslot hv hs hi.short)
      (Slotted.accounted hslot hv hs hacc) hch
      (.inr (hvis.live (dirEntry_fields hv name hc).1 (.inr rfl)))
      (fun g j x hg => absurd hg (Slotted.no_child hslot g)) hup

theorem Inv.rmdir (hrun : exec (fatRmdir v name) d = (true, d')) : Inv (v, d') := by
  obtain ⟨hv, _, hs, _, hacc⟩ := hi.wellFormed
  have hcur := hi.current
  obtain ⟨A, hA⟩ := hs.located hv.geometry hcur
  obtain ⟨hout, hup⟩ := of_exec (exec_fatRmdir hv hs.toChained hcur hA name) hrun
  generalize hI : image v d' = I' at hout
  cases hout with
  | @removed e i B _ hl hdir hB hblank hrem =>
    subst hI
    obtain ⟨hlt, he, _⟩ := lookup_some hA hl
    have hc : ChildAt v (image v d) v.currentCluster i (entryCluster v e) := ⟨e, he, hdir, rfl⟩
    refine hi.change hs hi.short hacc (change_removed hlt hrem) (.inl hrem.freed) ?_ hup
    intro g j x hg hx
    obtain rfl := hc.unique hg
    -- all of the directory is in sight
    have hj := hi.short (hcur.child hc) hB (hx.slot hB) hx.named.1
    exact rmdir_empty hs hcur hc hB hblank hj hx

theorem Inv.chdir (name : CString) : Inv (after (fun _ => true) (v, d) (.chdir name)) := by
  have hv := hi.wellFormed.numbered
  have hs := hi.wellFormed.sound
  have hg := hv.geometry
  have hmove : ∀ c cwd, IsDir v (image v d) c → Inv (moved v c cwd, d) := fun c cwd hc =>
    ⟨⟨numbered_moved c cwd hv, hi.wellFormed.copies, sound_moved c cwd hs, hi.wellFormed.distinct,
      hi.wellFormed.accounted⟩, hi.short, hc⟩
  have hmoves := chdir_moves (fun _ => true) v d name
  have hdisk := (fatChdir_noWrites v name).readOnly (fun _ => true) d
  rw [after]
  dsimp only
  rw [hdisk]
  generalize (run (fun _ => true) (fatChdir v name) d).1 = r at hmoves ⊢
  generalize (run (fun _ => true) (chdirStores v name) d).1 = ws at hmoves
  cases hmoves with
  | root _ => exact hmove _ _ .root
  | top | stuck | missing => exact hi
  | @up e _ htop he =>
    refine hmove _ _ ?_
    -- the entry `..` names the parent
    obtain ⟨o, ho⟩ := hi.current.owner
    cases o with
    | none => exact absurd ho htop
    | some q =>
      obtain ⟨B, hB⟩ := hs.located hg hi.current
      obtain ⟨e₀, e₁, _, _, h1, _, hparent⟩ := hs.dots ho.1 ho.2 hB
      have he' : e₁ = e := by
        have := congrArg Prod.fst (exec_dirRead hv hB 1)
        exact Option.some.inj (h1.symm.trans (this.symm.trans he))
      rw [← he', hparent, parentCluster]
      by_cases hroot : q.1 = rootDir v
      · rw [if_pos hroot, if_neg (by simp)]
        exact .root
      · rw [if_neg hroot]
        split
        · exact ho.1
        · exact .root
  | @down e i _ _ hf hdir =>
    obtain ⟨A, hA⟩ := hs.located hg hi.current
    have hl : lookup (A.slot v (image v d)) name = some (e, i) :=
      (congrArg Prod.fst (exec_findEntry hv hA name)).symm.trans hf
    exact hmove _ _ (hi.current.child ⟨e, (lookup_some hA hl).2.1, hdir, rfl⟩)

end Steps

/-- One call on a disk that does not fail. -/
def volStep (s : Vol × Disk) (call : Call) : Option (Vol × Disk) :=
  some (after (fun _ => true) s call)

theorem Inv.step {s s' : Vol × Disk} {call : Call} (hi : Inv s)
    (hc : Returns s call ∧ Sane call) (hstep : volStep s call = some s') : Inv s' := by
  cases hstep
  obtain ⟨hret, hsane⟩ := hc
  cases call with
  | create name data => exact Inv.create hi hsane.1 hsane.2 (Prod.ext hret rfl)
  | delete name => exact Inv.delete hi (Prod.ext hret rfl)
  | mkdir name => exact Inv.mkdir hi hsane (Prod.ext hret rfl)
  | rmdir name => exact Inv.rmdir hi (Prod.ext hret rfl)
  | chdir name => exact Inv.chdir hi name
  | read | list | getDiskInfo => exact absurd hret id

/-- **Well-formedness is an invariant** of successful calls with visible names. -/
theorem wellFormed_run {v : Vol} {d : Disk} (hw : WellFormed v d) (hshort : Short v (image v d))
    (hcur : IsDir v (image v d) v.currentCluster) {calls : List Call} {s : Vol × Disk}
    (hrun : Steps volStep (fun s call => Returns s call ∧ Sane call) (v, d) calls s) :
    WellFormed s.1 s.2 :=
  (hrun.invariant (fun _ _ _ hi hc hstep => Inv.step hi hc hstep) ⟨hw, hshort, hcur⟩).wellFormed

/-- `create AB` with two bytes, then `rm AB`, on a fresh disk. -/
theorem wellFormed_run_fresh :
    ∃ s, Steps volStep (fun s call => Returns s call ∧ Sane call) (freshVol, freshDisk)
      [.create plainName [1, 2], .delete plainName] s ∧ WellFormed s.1 s.2 := by
  have hrun : Steps volStep (fun s call => Returns s call ∧ Sane call) (freshVol, freshDisk)
      [.create plainName [1, 2], .delete plainName]
      (after (fun _ => true) (after (fun _ => true) (freshVol, freshDisk)
        (.create plainName [1, 2])) (.delete plainName)) := by
    refine .cons rfl ⟨?_, by decide, by rw [Visible]; decide⟩ (.cons rfl ⟨?_, trivial⟩ (.nil _))
    · show (exec (fatCreate freshVol plainName [1, 2]) freshDisk).1
      decide +kernel
    · show (exec (fatDelete freshVol plainName)
        (exec (fatCreate freshVol plainName [1, 2]) freshDisk).2).1
      decide +kernel
  exact ⟨_, hrun, wellFormed_run freshDisk_wellFormed freshVol_flat.short_freshVol
    (freshVol_current freshDisk) hrun⟩

/-! ## A name that looks deleted -/

/-- A chain for an entry that does not live is lost. -/
theorem not_accounted_of_hidden {v : Vol} {I' : Image} {c : Nat} {A : Area} {L : List Nat}
    (hv : Numbered v) (hs : Sound v I₁) (hch : Change v I₁ D i A e I') (hdead : ¬ Live e)
    (hchain : I'.Chain v c L) (hl : ∀ k ∈ L, Loose v I₁ D i k) : ¬ Accounted v I' := by
  intro hacc
  have hlast := List.getLast_mem hchain.ne_nil
  have hstop : eocMin v ≤ I'.val (L.getLast hchain.ne_nil) := by
    simpa [isEoc] using (hchain.stop_iff_last hlast).mpr rfl
  have hpos : 0 < eocMin v := Nat.lt_of_le_of_lt (Nat.zero_le _) hv.small
  obtain ⟨o, l, ho, hmem⟩ := hacc _ (hchain.good_of_mem hlast) (by omega) (by omega)
  rcases hch.reslot.owns_cases hs.toChained hv.geometry hch.placed ho with
    ⟨hne, ho⟩ | ⟨_, hn, _⟩
  · exact not_loose hs.toChained ho hne hmem (hl _ hlast)
  · exact hdead hn.1

/-- A name that starts with 0xE5. -/
def hiddenName : CString := ⟨[0xE5, 65], by decide⟩

/-- **A file whose name starts with 0xE5** is created, and its cluster is lost. -/
theorem hidden_name_loses_cluster : WellFormed freshVol freshDisk ∧
    Short freshVol (image freshVol freshDisk) ∧
    IsDir freshVol (image freshVol freshDisk) freshVol.currentCluster ∧
    ∃ s, Steps volStep Returns (freshVol, freshDisk) [.create hiddenName [1]] s ∧
      ¬ WellFormed s.1 s.2 := by
  have hv := freshVol_numbered
  have hs := freshVol_flat.sound
  have hcur := freshVol_current freshDisk
  have hA := freshVol_flat.isDir hcur
  have hret : (exec (fatCreate freshVol hiddenName [1]) freshDisk).1 := by decide +kernel
  refine ⟨freshDisk_wellFormed, freshVol_flat.short_freshVol, hcur, _, .cons rfl hret (.nil _),
    fun hw => ?_⟩
  obtain ⟨r, d', hrun, hout, _⟩ := exec_fatCreate hv hs.toChained hcur hA hiddenName [1]
  have hacc : Accounted freshVol
      (image freshVol (exec (fatCreate freshVol hiddenName [1]) freshDisk).2) := hw.accounted
  rw [hrun] at hacc
  rw [show r from (congrArg Prod.fst hrun).symm.trans hret] at hout
  generalize image freshVol d' = I' at hout hacc
  cases hout with
  | @made A₁ i c I₁ K _ L hl hslot hst =>
    refine not_accounted_of_hidden hv (Slotted.sound hslot hv hs)
      (change_created hv hs hcur hA (by decide) hl hslot hst) (fun hlive => ?_) (stored_chain hst)
      (fun k hk => .inl (hst.filling.free k hk).2) hacc
    refine ((fileEntry_plain freshVol hiddenName c _).live_iff.mp hlive).2 ?_
    exact (List.cons.inj (sfn_fileEntry freshVol hiddenName c _)).1
  | @replaced e i c J K _ L hl _ _ _ =>
    have he := (lookup_some hA hl).2.1
    exact absurd he.named.1 (freshDisk_dead (he.slot hA))

end FatWellFormed
