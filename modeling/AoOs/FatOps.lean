import AoOs.FatEntries
import AoOs.FatGrow

/-! # What the calls of the driver do to a volume

    The four calls that change a volume, on a disk that does not fail and from a
    directory of the tree: which outcomes they have, and what the volume is afterwards.
    Each outcome is a constructor of an inductive relation, so that what holds of every
    outcome is proved by cases.

    A successful call frees what the slot owned (`Cleared`), works on free clusters, and
    writes the slot.  A call that needs a slot takes the first one that is not in use and
    grows the directory if there is none (`Slotted`). -/

namespace FatOps

open BlockIO FatTypes FatDriver FatRead FatGeometry FatTable FatImage FatAlloc FatFill
open FatDirs FatScan FatTree FatReslot FatGrow FatEntries
open BlockIO.BlockM (run exec)

/-! ## Clearing a slot -/

/-- What slot `i` of `D` owned is free, and nothing else has changed. -/
structure Cleared (v : Vol) (I : Image) (D i : Nat) (J : Image) : Prop extends Aside v I D i J where
  free : ∀ c, J.val c = 0 ↔ Loose v I D i c

section Cleared

variable {v : Vol} {I : Image} {D i : Nat}

/-- A slot that owns nothing. -/
theorem Cleared.of_unowned (h : ∀ l, ¬ Owns v I (some (D, i)) l) : Cleared v I D i I where
  toAside := .refl v I D i
  free := fun _ => ⟨.inl, fun hl => hl.resolve_right fun ⟨l, ho, _⟩ => h l ho⟩

theorem unowned_of_slot {A : Area} {e : Entry} (hA : Locates v I D A) (hs : A.slot v I i = some e)
    (he : ¬ Named e) (l : List Nat) : ¬ Owns v I (some (D, i)) l := by
  rintro ⟨_, x, hx, _⟩
  exact he (Option.some.inj ((hx.slot hA).symm.trans hs) ▸ hx.named)

/-- The clusters of the slot given back. -/
theorem Cleared.of_released (hcount : 0 < v.fatCount) {l : List Nat}
    (ho : Owns v I (some (D, i)) l) : Cleared v I D i (Image.releasedAll v l I) := by
  obtain ⟨_, hroot, hdata⟩ := Image.releasedAll_parts (v := v) l I
  have hval : ∀ c, (Image.releasedAll v l I).val c = if c ∈ l then 0 else I.val c := by
    intro c
    rw [Image.val, Image.tab_releasedAll]
    simp only [hcount, true_and]
    rfl
  refine ⟨⟨fun c hc => ?_, fun c _ => congrFun hdata c, hroot⟩, fun c => ?_⟩
  · rw [hval, if_neg fun hl => hc (.inr ⟨l, ho, hl⟩)]
  · rw [hval]
    by_cases hc : c ∈ l
    · rw [if_pos hc]
      exact ⟨fun _ => .inr ⟨l, ho, hc⟩, fun _ => rfl⟩
    · rw [if_neg hc]
      refine ⟨.inl, fun hl => hl.resolve_right ?_⟩
      rintro ⟨l', ho', hc'⟩
      exact hc (owns_unique ho' ho ▸ hc')

/-- **`free_chain` clears the slot of a file or directory.** -/
theorem exec_freeChain_slot (hv : Numbered v) {d : Disk} (hs : Chained v (image v d))
    (hD : IsDir v (image v d) D) {e : Entry} (he : HasEntry v (image v d) D i e) :
    ∃ d', exec (freeChain v (entryCluster v e)) d = ((), d') ∧
      Cleared v (image v d) D i (image v d') ∧ Updates v (image v d) (image v d') := by
  by_cases h0 : entryCluster v e = 0
  · refine ⟨d, exec_freeChain_invalid (by simp [h0, validDataCluster]), .of_unowned ?_, .refl⟩
    rintro l ⟨_, x, hx, hl⟩
    rw [hx.unique he] at hl
    exact chain_head_ne_zero hl h0
  · obtain ⟨l, hl⟩ := hs.chain_of_ne_zero hD he h0
    obtain ⟨d', hrun, himg⟩ := exec_freeChain hv hl
    refine ⟨d', hrun, ?_, ?_⟩
    · rw [himg]
      exact .of_released hv.geometry.fatCount_pos ⟨hD, e, he, hl⟩
    · rw [himg]
      exact updates_releasedAll l _ hl.nodup fun c hc =>
        ⟨hl.good_of_mem hc, chain_val_ne_zero hl hc⟩

end Cleared

/-! ## Finding a slot -/

/-- Slot `i` of `D` is there to be used, the directory having grown if it had to. -/
structure Slotted (v : Vol) (I : Image) (D : Nat) (A : Area) (i : Nat) (I₁ : Image) : Prop where
  grow : I₁ = I ∨ ∃ l c, Growth v I D l c I₁
  loc : Locates v I₁ D A
  vacant : Vacant (A.slot v I₁) i

/-- There is no slot: the directory is as long as the driver can see, or it is full and
    cannot grow. -/
def NoSlot (v : Vol) (I : Image) (A : Area) : Prop :=
  UsedUpTo (A.slot v I) maxDirEntries ∨
    (∃ n, Full (A.slot v I) n) ∧ (A = .fixed ∨ I.firstFree v = none)

section Slots

variable {v : Vol} (hv : Numbered v) {d : Disk} {D : Nat} {A : Area}

include hv

omit hv in
/-- The slots of a full directory end where its clusters end. -/
theorem full_index {I : Image} {l : List Nat} {n : Nat} (hper : 0 < perCluster v)
    (hn : Full ((Area.chain l).slot v I) n) : n / perCluster v = l.length := by
  obtain ⟨_, hused, hnone⟩ := hn
  rw [Area.slot, Option.map_eq_none_iff, List.getElem?_eq_none_iff] at hnone
  refine Nat.le_antisymm (by_contra fun hlt => ?_) hnone
  -- a slot of the first cluster behind would be in use
  have hle : l.length * perCluster v < n := by
    have h1 : (l.length + 1) * perCluster v ≤ n / perCluster v * perCluster v :=
      Nat.mul_le_mul_right _ (by omega)
    have h2 := Nat.div_mul_le_self n (perCluster v)
    rw [Nat.succ_mul] at h1
    omega
  obtain ⟨x, hx, _⟩ := hused _ hle
  rw [Area.slot, Nat.mul_div_cancel _ hper, List.getElem?_eq_none (Nat.le_refl _)] at hx
  cases hx

/-- **`free_entry_index` finds a slot, or there is none.** -/
theorem exec_freeEntryIndex (hD : IsDir v (image v d) D) (hA : Locates v (image v d) D A) :
    (NoSlot v (image v d) A ∧ exec (freeEntryIndex v D) d = (none, d)) ∨
    ∃ A₁ i d₁, exec (freeEntryIndex v D) d = (some i, d₁) ∧
      Slotted v (image v d) D A₁ i (image v d₁) ∧ Updates v (image v d) (image v d₁) := by
  rcases slots_cases (A.slot v (image v d)) with ⟨i, hi⟩ | ⟨n, hn⟩ | hlong
  · exact .inr ⟨A, i, d, exec_freeEntryIndex_vacant hv hA hi, ⟨.inl rfl, hA, hi⟩, .refl⟩
  · rw [exec_freeEntryIndex_full hv hA hn]
    cases A with
    | fixed =>
      rw [if_pos (show D = 0 ∧ v.type ≠ .fat32 from hA)]
      exact .inl ⟨.inr ⟨⟨n, hn⟩, .inl rfl⟩, rfl⟩
    | chain l =>
      rw [if_neg hA.1, exec_bind]
      obtain ⟨hnone, hsome⟩ := exec_growDirectory hv hA
      cases hfree : (image v d).firstFree v with
      | none =>
        rw [hnone hfree]
        exact .inl ⟨.inr ⟨⟨n, hn⟩, .inr hfree⟩, rfl⟩
      | some c =>
        obtain ⟨d₁, hrun, himg, hup⟩ := hsome c hfree
        obtain ⟨hvalid, hz, _⟩ := firstFree_some hv hfree
        rw [hrun]
        -- every slot there is lies in front of the end
        have hfull : ∀ {j x}, (Area.chain l).slot v (image v d) j = some x → x 0 ≠ 0 := by
          intro j x hx
          have hlt : j < n := by_contra fun hge => by
            obtain ⟨y, hy⟩ := slot_of_lt hx (Nat.not_lt.mp hge)
            cases hn.2.2.symm.trans hy
          obtain ⟨y, hy, hu⟩ := hn.2.1 j hlt
          exact Option.mem_unique hy hx ▸ hu.1
        have hgrow : Growth v (image v d) D l c (image v d₁) :=
          ⟨hD, hA, hvalid, hz, hfull, himg⟩
        obtain ⟨hloc, hold, hnew, hex⟩ := hgrow.grown_self hv
        have hper := perCluster_pos hv.geometry.perCluster_pos
        refine .inr ⟨_, n, d₁, rfl, ⟨.inr ⟨l, c, hgrow⟩, hloc, hn.1, fun j hj => ?_, ?_⟩, hup⟩
        · obtain ⟨x, hx, hu⟩ := hn.2.1 j hj
          exact ⟨x, hold hx, hu⟩
        · obtain ⟨x, hx⟩ := hex (full_index hper hn)
          exact ⟨x, hx, fun hu => hu.1 (hnew hn.2.2 hx)⟩
  · exact .inl ⟨.inl hlong, exec_freeEntryIndex_long hv hA hlong⟩

end Slots

/-! ## Removing -/

/-- The entry in slot `i` is marked deleted, and what it owned is free. -/
structure Removed (v : Vol) (I : Image) (D i : Nat) (A : Area) (e : Entry) (I' : Image) : Prop where
  reslot : Reslot v I D i A (markDeleted e) I'
  freed : ∀ c, Loose v I D i c → I'.val c = 0

/-- `fat_delete`: the result and the volume afterwards. -/
inductive Delete (v : Vol) (I : Image) (D : Nat) (A : Area) (name : CString) : Bool → Image → Prop
  | refused (h : ∀ e i, lookup (A.slot v I) name = some (e, i) → e.isDirectory) :
      Delete v I D A name false I
  | removed {e : Entry} {i : Nat} {I' : Image} (h : lookup (A.slot v I) name = some (e, i))
      (hfile : e.isDirectory = false) (hrem : Removed v I D i A e I') : Delete v I D A name true I'

/-- The scan of `fat_rmdir` over a row of slots. -/
def blankFrom (s : Nat → Option Entry) : Nat → Nat → Bool
  | 0, _ => true
  | n + 1, j =>
    match s j with
    | none => true
    | some x => if x 0 = 0 then true else if x 0 ≠ 0xE5 then false else blankFrom s n (j + 1)

/-- `fat_rmdir`: the result and the volume afterwards. -/
inductive Rmdir (v : Vol) (I : Image) (D : Nat) (A : Area) (name : CString) : Bool → Image → Prop
  | refused : Rmdir v I D A name false I
  | removed {e : Entry} {i : Nat} {B : Area} {I' : Image}
      (h : lookup (A.slot v I) name = some (e, i)) (hdir : e.isDirectory)
      (hB : Locates v I (entryCluster v e) B)
      (hblank : blankFrom (B.slot v I) (maxDirEntries - 2) 2)
      (hrem : Removed v I D i A e I') : Rmdir v I D A name true I'

section Remove

variable {v : Vol} (hv : Numbered v) {d : Disk} (hs : Chained v (image v d)) {A : Area}
  (hD : IsDir v (image v d) v.currentCluster) (hA : Locates v (image v d) v.currentCluster A)

include hv

theorem exec_emptyFrom {h : Nat} {B : Area} (hB : Locates v (image v d) h B) (n j) :
    exec (emptyFrom v h n j) d = (blankFrom (B.slot v (image v d)) n j, d) := by
  induction n generalizing j with
  | zero => rfl
  | succ n ih =>
    rw [emptyFrom, exec_bind, exec_dirRead hv hB, blankFrom]
    dsimp only
    cases B.slot v (image v d) j with
    | none => rfl
    | some x =>
      dsimp only
      rw [exec_ite, exec_ite, ih]
      split
      · rfl
      · split <;> rfl

include hs hD hA

/-- Freeing the chain and marking the entry. -/
theorem exec_remove {e : Entry} {i : Nat} (he : HasEntry v (image v d) v.currentCluster i e) :
    ∃ d', exec (do freeChain v (entryCluster v e); dirWrite v v.currentCluster i (markDeleted e)) d
        = (true, d') ∧ Removed v (image v d) v.currentCluster i A e (image v d') ∧
      Updates v (image v d) (image v d') := by
  obtain ⟨d₁, hrun, hclear, hup⟩ := exec_freeChain_slot hv hs hD he
  obtain ⟨hloc, hslot⟩ := hclear.kept hs hv.geometry hD hA
  have hold := he.slot hA
  obtain ⟨d', hrun', himg, hup'⟩ := exec_dirWrite hv hloc ((hslot i).trans hold) (markDeleted e)
  refine ⟨d', ?_, ⟨?_, fun c hc => ?_⟩, hup.trans hup'⟩
  · rw [exec_bind, hrun]
    exact hrun'
  · rw [himg]
    exact hclear.reslot hD hA hold he.named.2 _
  · rw [himg, put_val]
    exact (hclear.free c).mpr hc

/-- **`fat_delete`.** -/
theorem exec_fatDelete (name : CString) : ∃ r d', exec (fatDelete v name) d = (r, d') ∧
    Delete v (image v d) v.currentCluster A name r (image v d') ∧
    Updates v (image v d) (image v d') := by
  rw [fatDelete, exec_bind, exec_findEntry hv hA]
  dsimp only
  cases hl : lookup (A.slot v (image v d)) name with
  | none => exact ⟨false, d, rfl, .refused fun e i h => (by cases hl.symm.trans h), .refl⟩
  | some p =>
    obtain ⟨e, i⟩ := p
    dsimp only
    cases hdir : e.isDirectory with
    | true =>
      refine ⟨false, d, by rw [if_pos rfl]; rfl, .refused fun e' i' h => ?_, .refl⟩
      rw [← (Prod.mk.inj (Option.mem_unique hl h)).1]
      exact hdir
    | false =>
      obtain ⟨d', hrun, hrem, hup⟩ := exec_remove hv hs hD hA (lookup_some hA hl).2.1
      refine ⟨true, d', ?_, .removed hl hdir hrem, hup⟩
      rw [if_neg (by decide)]
      exact hrun

/-- **`fat_rmdir`.** -/
theorem exec_fatRmdir (name : CString) : ∃ r d', exec (fatRmdir v name) d = (r, d') ∧
    Rmdir v (image v d) v.currentCluster A name r (image v d') ∧
    Updates v (image v d) (image v d') := by
  rw [fatRmdir, exec_bind, exec_findEntry hv hA]
  dsimp only
  cases hl : lookup (A.slot v (image v d)) name with
  | none => exact ⟨false, d, rfl, .refused, .refl⟩
  | some p =>
    obtain ⟨e, i⟩ := p
    dsimp only
    cases hdir : e.isDirectory with
    | false => exact ⟨false, d, rfl, .refused, .refl⟩
    | true =>
      have he := (lookup_some hA hl).2.1
      obtain ⟨B, hB⟩ := hs.located hv.geometry (hD.child ⟨e, he, hdir, rfl⟩)
      rw [if_neg (by decide), exec_bind, exec_emptyFrom hv hB]
      dsimp only
      cases hblank : blankFrom (B.slot v (image v d)) (maxDirEntries - 2) 2 with
      | false => exact ⟨false, d, rfl, .refused, .refl⟩
      | true =>
        obtain ⟨d', hrun, hrem, hup⟩ := exec_remove hv hs hD hA he
        refine ⟨true, d', ?_, .removed hl hdir hB hblank hrem, hup⟩
        rw [if_pos rfl]
        exact hrun

end Remove

/-! ## Creating -/

/-- A file's data on the chain `L` from `c`, and its entry in slot `i`: `J` is the volume
    before, `K` the volume without the entry. -/
structure Stored (v : Vol) (data : List UInt8) (A : Area) (e : Entry) (i : Nat) (J : Image)
    (L : List Nat) (c : Nat) (K I' : Image) : Prop where
  filling : Filling v data J L K
  length : L.length = needed v data.length
  chain : K.Chain v c L
  eq : I' = A.put v K (setEntrySize (setEntryCluster v e c) data.length) i

/-- `fat_create`: the result and the volume afterwards. -/
inductive Create (v : Vol) (I : Image) (D : Nat) (A : Area) (name : CString) (data : List UInt8) :
    Bool → Image → Prop
  | refused (h : name.chars = [] ∨ ∃ e i, lookup (A.slot v I) name = some (e, i) ∧
      e.isDirectory) : Create v I D A name data false I
  | noSlot (h : lookup (A.slot v I) name = none) (hno : NoSlot v I A) :
      Create v I D A name data false I
  | undone {A₁ : Area} {i : Nat} {I₁ I' : Image} {M : List Nat}
      (h : lookup (A.slot v I) name = none) (hslot : Slotted v I D A₁ i I₁)
      (hundo : Undone v I₁ M I') (hlt : M.length < needed v data.length) :
      Create v I D A name data false I'
  | made {A₁ : Area} {i c : Nat} {I₁ K I' : Image} {L : List Nat}
      (h : lookup (A.slot v I) name = none) (hslot : Slotted v I D A₁ i I₁)
      (hst : Stored v data A₁ (freshEntry (makeSfn name) 0x20) i I₁ L c K I') :
      Create v I D A name data true I'
  | lost {e : Entry} {i : Nat} {J I' : Image} {M : List Nat}
      (h : lookup (A.slot v I) name = some (e, i)) (hfile : e.isDirectory = false)
      (hclear : Cleared v I D i J) (hundo : Undone v J M I')
      (hlt : M.length < needed v data.length) : Create v I D A name data false I'
  | replaced {e : Entry} {i c : Nat} {J K I' : Image} {L : List Nat}
      (h : lookup (A.slot v I) name = some (e, i)) (hfile : e.isDirectory = false)
      (hclear : Cleared v I D i J) (hst : Stored v data A e i J L c K I') :
      Create v I D A name data true I'

section Create

variable {v : Vol} {I J K I' : Image} {D i c : Nat} {A : Area} {e : Entry} {data : List UInt8}
  {L : List Nat}

/-- Clusters that were free are loose. -/
theorem Cleared.touched (hc : Cleared v I D i J) (ht : Touched v J L K) : Aside v I D i K := by
  have hfirm : ∀ c, ¬ Loose v I D i c → c ∉ L := fun c hl hmem =>
    hl ((hc.free c).mp (ht.free c hmem).2)
  refine ⟨fun c hl => ?_, fun c hl => ?_, ht.root.trans hc.root⟩
  · exact (ht.tab 0 c (hfirm c hl)).trans (hc.val c hl)
  · exact (ht.bytes c (hfirm c hl)).trans (hc.data c hl)

variable (hv : Numbered v) {d : Disk}

include hv

/-- The second half of `fat_create`, from a slot that has been cleared. -/
theorem exec_createAt (hs : Chained v I) (hD : IsDir v I v.currentCluster)
    (hA : Locates v I v.currentCluster A) {e₀ : Entry} (hold : A.slot v I i = some e₀)
    (hclear : Cleared v I v.currentCluster i (image v d)) (e : Entry) (data : List UInt8) :
    (∃ L c K d', exec (createAt v e i data) d = (true, d') ∧
      Stored v data A e i (image v d) L c K (image v d') ∧ Updates v (image v d) (image v d')) ∨
    ∃ M d', exec (createAt v e i data) d = (false, d') ∧ Undone v (image v d) M (image v d') ∧
      M.length < needed v data.length := by
  have hfuel : needed v data.length < data.length + 2 + ([] : List Nat).length := by
    have hpos := hv.geometry.perCluster_pos
    have hle : clustersFor v data.length ≤ data.length := by
      have := (lt_clustersFor hpos data.length data.length).not
      rw [Nat.not_lt] at this
      refine this.mpr (Nat.not_lt.mpr ?_)
      have hcb : 1 ≤ clusterBytes v := by
        rw [clusterBytes]
        omega
      exact Nat.le_mul_of_pos_right _ hcb
    rw [needed, List.length_nil]
    omega
  rw [createAt, exec_bind]
  rcases exec_createLoop hv (data.length + 2) [] d (Filling.start v data (image v d))
    (Nat.zero_le _) hfuel with ⟨L, c, d₁, hrun, hfill, hlen, hchain⟩ | ⟨M, d', hrun, hundo, hlt⟩
  · simp only [List.headD_nil, List.getLastD_nil, List.length_nil, Nat.zero_mul,
      Nat.min_zero] at hrun
    have haside := hclear.touched hfill.toTouched
    obtain ⟨hloc, hslot⟩ := haside.kept hs hv.geometry hD hA
    obtain ⟨d', hrun', himg, hup⟩ := exec_dirWrite hv hloc ((hslot i).trans hold)
      (setEntrySize (setEntryCluster v e c) data.length)
    refine .inl ⟨L, c, image v d₁, d', ?_, ⟨hfill, hlen, hchain, himg⟩, hfill.updates.trans hup⟩
    rw [hrun]
    exact hrun'
  · simp only [List.headD_nil, List.getLastD_nil, List.length_nil, Nat.zero_mul,
      Nat.min_zero] at hrun
    refine .inr ⟨M, d', ?_, hundo, hlt⟩
    rw [hrun]
    rfl

end Create

section Slotted

variable {v : Vol} {I I₁ : Image} {D i : Nat} {A A₁ : Area}

variable (h : Slotted v I D A₁ i I₁)

include h

theorem Slotted.chained (hv : Numbered v) (hs : Chained v I) : Chained v I₁ := by
  rcases h.grow with rfl | ⟨l, c, hg⟩
  · exact hs
  · exact hg.chained hv hs

theorem Slotted.isDir_iff (hv : Numbered v) (hs : Chained v I) (k : Nat) :
    IsDir v I k ↔ IsDir v I₁ k := by
  rcases h.grow with rfl | ⟨l, c, hg⟩
  · rfl
  · exact hg.isDir_iff hv hs k

/-- The slot found owns nothing. -/
theorem Slotted.cleared : Cleared v I₁ D i I₁ := by
  obtain ⟨_, _, e, he, hu⟩ := h.vacant
  exact .of_unowned (unowned_of_slot h.loc he fun hn => (not_used hu).2 hn.1)

end Slotted

section Calls

variable {v : Vol} (hv : Numbered v) {d : Disk} (hs : Chained v (image v d)) {A : Area}
  (hD : IsDir v (image v d) v.currentCluster) (hA : Locates v (image v d) v.currentCluster A)

include hv hs hD hA

/-- **`fat_create`.** -/
theorem exec_fatCreate (name : CString) (data : List UInt8) :
    ∃ r d', exec (fatCreate v name data) d = (r, d') ∧
      Create v (image v d) v.currentCluster A name data r (image v d') ∧
      Updates v (image v d) (image v d') := by
  rw [fatCreate]
  by_cases hname : v.type = .none ∨ name.chars = []
  · rw [if_pos hname]
    exact ⟨false, d, rfl, .refused (.inl (hname.resolve_left hv.geometry.available)), .refl⟩
  rw [if_neg hname, exec_bind, exec_findEntry hv hA]
  dsimp only
  cases hl : lookup (A.slot v (image v d)) name with
  | some p =>
    obtain ⟨e, i⟩ := p
    dsimp only
    cases hdir : e.isDirectory with
    | true =>
      exact ⟨false, d, by rw [if_pos rfl]; rfl, .refused (.inr ⟨e, i, hl, hdir⟩), .refl⟩
    | false =>
      have he := (lookup_some hA hl).2.1
      obtain ⟨d₁, hrun, hclear, hup⟩ := exec_freeChain_slot hv hs hD he
      rw [if_neg (by decide), exec_bind, hrun]
      dsimp only
      rcases exec_createAt hv hs hD hA (he.slot hA) hclear e data with
        ⟨L, c, K, d', hrun', hst, hup'⟩ | ⟨M, d', hrun', hundo, hlt⟩
      · exact ⟨true, d', hrun', .replaced hl hdir hclear hst, hup.trans hup'⟩
      · exact ⟨false, d', hrun', .lost hl hdir hclear hundo hlt, hup.trans hundo.updates⟩
  | none =>
    dsimp only
    rw [exec_bind]
    rcases exec_freeEntryIndex hv hD hA with ⟨hno, hrun⟩ | ⟨A₁, i, d₁, hrun, hslot, hup⟩
    · rw [hrun]
      exact ⟨false, d, rfl, .noSlot hl hno, .refl⟩
    · obtain ⟨_, _, e₀, he₀, _⟩ := hslot.vacant
      rw [hrun]
      dsimp only
      rcases exec_createAt hv (hslot.chained hv hs) ((hslot.isDir_iff hv hs _).mp hD) hslot.loc he₀
        hslot.cleared (freshEntry (makeSfn name) 0x20) data with
        ⟨L, c, K, d', hrun', hst, hup'⟩ | ⟨M, d', hrun', hundo, hlt⟩
      · exact ⟨true, d', hrun', .made hl hslot hst, hup.trans hup'⟩
      · exact ⟨false, d', hrun', .undone hl hslot hundo hlt, hup.trans hundo.updates⟩

end Calls

/-! ## Making a directory -/

/-- The `.` entry of a directory at cluster `c`. -/
def dotEntry (v : Vol) (c : Nat) : Entry := setEntryCluster v (freshEntry dotName 0x10) c

/-- The `..` entry of a subdirectory of `D`. -/
def dotDotEntry (v : Vol) (D : Nat) : Entry :=
  setEntryCluster v (freshEntry dotDotName 0x10) (parentCluster v D)

/-- Cluster `c` made into an empty subdirectory of `D`. -/
def dotted (v : Vol) (D c : Nat) (I : Image) : Image :=
  (Area.chain [c]).put v ((Area.chain [c]).put v (I.allocated v c) (dotEntry v c) 0)
    (dotDotEntry v D) 1

/-- The entry of a new directory. -/
def dirEntry (v : Vol) (name : CString) (c : Nat) : Entry :=
  setEntryCluster v (freshEntry (makeSfn name) 0x10) c

/-- `fat_mkdir`: the result and the volume afterwards. -/
inductive Mkdir (v : Vol) (I : Image) (D : Nat) (A : Area) (name : CString) : Bool → Image → Prop
  | refused (h : name.chars = [] ∨ lookup (A.slot v I) name ≠ none) : Mkdir v I D A name false I
  | full (h : lookup (A.slot v I) name = none) (hno : NoSlot v I A) (hfree : I.firstFree v = none) :
      Mkdir v I D A name false I
  | leaked {c : Nat} (hname : name.chars ≠ []) (h : lookup (A.slot v I) name = none)
      (hno : NoSlot v I A) (hfree : I.firstFree v = some c) :
      Mkdir v I D A name false (I.allocated v c)
  | slotOnly {A₁ : Area} {i : Nat} {I₁ : Image} (h : lookup (A.slot v I) name = none)
      (hslot : Slotted v I D A₁ i I₁) (hfree : I₁.firstFree v = none) :
      Mkdir v I D A name false I₁
  | made {A₁ : Area} {i c : Nat} {I₁ : Image} (h : lookup (A.slot v I) name = none)
      (hslot : Slotted v I D A₁ i I₁) (hfree : I₁.firstFree v = some c) :
      Mkdir v I D A name true (A₁.put v (dotted v D c I₁) (dirEntry v name c) i)

section Dotted

variable {v : Vol} (hv : Numbered v) {I : Image} {D c : Nat} (hc : validDataCluster v c)

include hv hc

omit hc in
theorem two_le_perCluster : 2 ≤ perCluster v := by
  have := hv.geometry.perCluster_pos
  rw [perCluster]
  omega

/-- The new cluster is a chain of its own. -/
theorem chain_allocated : (I.allocated v c).Chain v c [c] := by
  refine .last hc ?_
  rw [Image.val, Image.tab_allocated, if_pos ⟨hv.geometry.fatCount_pos, rfl⟩]
  exact isEoc_eocValue v

omit hv hc in
theorem locates_alone {J : Image} (hJ : J.Chain v c [c]) : Locates v J c (.chain [c]) :=
  (locates_chain_iff (chain_head_ne_zero hJ)).mpr hJ

omit hv hc in
theorem val_dotted (k : Nat) : (dotted v D c I).val k = (I.allocated v c).val k := rfl

omit hv hc in
theorem root_dotted : (dotted v D c I).root = I.root := Image.adjust_root _ _

omit hv hc in
theorem data_dotted {k : Nat} (hk : k ≠ c) : (dotted v D c I).data k = I.data k := by
  have hne : ∀ j : Nat, ¬ ([c] : List Nat)[j]? = some k := by
    intro j hj
    exact hk (List.mem_singleton.mp (List.mem_of_getElem? hj))
  simp only [dotted, Area.put, hne, if_false]
  funext o
  rw [Image.data_allocated, if_neg hk]

omit hv hc in
/-- The slots of the new directory: its dot entries, and nothing behind them. -/
theorem slot_dotted (hper : 2 ≤ perCluster v) :
    (Area.chain [c]).slot v (dotted v D c I) 0 = some (dotEntry v c) ∧
    (Area.chain [c]).slot v (dotted v D c I) 1 = some (dotDotEntry v D) ∧
    ∀ j x, 2 ≤ j → (Area.chain [c]).slot v (dotted v D c I) j = some x → x 0 = 0 := by
  have hfirst : ∀ (J : Image) (j : Nat), j < perCluster v →
      ∃ x, (Area.chain [c]).slot v J j = some x := by
    intro J j hj
    rw [Area.slot, Nat.div_eq_of_lt hj]
    exact ⟨_, rfl⟩
  have hnodup : ∀ l, Area.chain [c] = .chain l → l.Nodup := by
    intro l hl
    obtain rfl := Area.chain.inj hl
    exact List.nodup_singleton c
  refine ⟨?_, ?_, fun j x hj hx => ?_⟩
  · obtain ⟨x, hx⟩ := hfirst (I.allocated v c) 0 (by omega)
    rw [dotted, slot_put_other (by decide) hnodup]
    exact slot_put_same hx _
  · obtain ⟨x, hx⟩ :=
      hfirst ((Area.chain [c]).put v (I.allocated v c) (dotEntry v c) 0) 1 (by omega)
    exact slot_put_same hx _
  · rw [dotted, slot_put_other (by omega) hnodup, slot_put_other (by omega) hnodup, Area.slot] at hx
    obtain ⟨k, hk, rfl⟩ := Option.map_eq_some_iff.mp hx
    have hkc : k = c := List.mem_singleton.mp (List.mem_of_getElem? hk)
    exact (Image.data_allocated c k _).trans (if_pos hkc)

/-- The two dot entries written to a fresh cluster. -/
theorem exec_dots {d : Disk} (himg : image v d = I.allocated v c) (D : Nat) :
    ∃ d₁ d₂, exec (dirWrite v c 0 (dotEntry v c)) d = (true, d₁) ∧
      exec (dirWrite v c 1 (dotDotEntry v D)) d₁ = (true, d₂) ∧ image v d₂ = dotted v D c I ∧
      Updates v (image v d) (image v d₂) := by
  have hper := two_le_perCluster hv
  have hslot : ∀ (J : Image) (j : Nat), j < 2 → ∃ x, (Area.chain [c]).slot v J j = some x := by
    intro J j hj
    rw [Area.slot, Nat.div_eq_of_lt (by omega)]
    exact ⟨_, rfl⟩
  have hchain := chain_allocated hv (I := I) hc
  obtain ⟨x, hx⟩ := hslot (image v d) 0 (by decide)
  obtain ⟨d₁, hrun₁, himg₁, hup₁⟩ := exec_dirWrite hv
    (locates_alone (himg ▸ hchain)) hx (dotEntry v c)
  have hchain₁ : (image v d₁).Chain v c [c] := by
    rw [himg₁, himg]
    exact hchain
  obtain ⟨y, hy⟩ := hslot (image v d₁) 1 (by decide)
  obtain ⟨d₂, hrun₂, himg₂, hup₂⟩ := exec_dirWrite hv (locates_alone hchain₁) hy
    (dotDotEntry v D)
  refine ⟨d₁, d₂, hrun₁, hrun₂, ?_, hup₁.trans hup₂⟩
  rw [himg₂, himg₁, himg]
  rfl

end Dotted

section Calls

variable {v : Vol} (hv : Numbered v) {d : Disk} (hs : Chained v (image v d)) {A : Area}
  (hD : IsDir v (image v d) v.currentCluster) (hA : Locates v (image v d) v.currentCluster A)

/-- The root directory is `root_cluster`, for every type. -/
theorem rootCluster_eq (hg : Geometry v) : v.rootCluster = rootDir v := by
  rw [rootDir]
  by_cases ht : v.type = .fat32
  · rw [if_pos ht]
  · rw [if_neg ht]
    exact hg.root_eq ht

/-- A fresh cluster is loose. -/
theorem aside_dotted {I : Image} {D i c : Nat} (hz : I.val c = 0) :
    Aside v I D i (dotted v D c I) := by
  have hne : ∀ k, ¬ Loose v I D i k → k ≠ c := by
    rintro k hl rfl
    exact hl (.inl hz)
  refine ⟨fun k hl => ?_, fun k hl => data_dotted (hne k hl), root_dotted⟩
  rw [val_dotted, Image.val, Image.tab_allocated, if_neg fun h => hne k hl h.2]
  rfl

include hv hs hD hA

/-- **`fat_mkdir`.** -/
theorem exec_fatMkdir (name : CString) : ∃ r d', exec (fatMkdir v name) d = (r, d') ∧
    Mkdir v (image v d) v.currentCluster A name r (image v d') ∧
    Updates v (image v d) (image v d') := by
  rw [fatMkdir]
  by_cases hname : name.chars = []
  · rw [if_pos hname]
    exact ⟨false, d, rfl, .refused (.inl hname), .refl⟩
  rw [if_neg hname, exec_bind, exec_findEntry hv hA]
  dsimp only
  cases hl : lookup (A.slot v (image v d)) name with
  | some p => exact ⟨false, d, rfl, .refused (.inr (by rw [hl]; simp)), .refl⟩
  | none =>
    dsimp only
    rw [exec_bind]
    rcases exec_freeEntryIndex hv hD hA with ⟨hno, hrun⟩ | ⟨A₁, i, d₁, hrun, hslot, hup⟩
    · rw [hrun]
      dsimp only
      rw [exec_bind]
      cases hfree : (image v d).firstFree v with
      | none =>
        rw [exec_allocCluster_none hv hfree]
        exact ⟨false, d, rfl, .full hl hno hfree, .refl⟩
      | some c =>
        obtain ⟨hc, hz, _⟩ := firstFree_some hv hfree
        obtain ⟨d', halloc, himg⟩ := exec_allocCluster_some hv hfree
        rw [halloc]
        refine ⟨false, d', rfl, ?_, ?_⟩
        · rw [himg]
          exact .leaked hname hl hno hfree
        · rw [himg]
          exact .single (.alloc hc hz)
    · rw [hrun]
      dsimp only
      rw [exec_bind]
      cases hfree : (image v d₁).firstFree v with
      | none =>
        rw [exec_allocCluster_none hv hfree]
        exact ⟨false, d₁, rfl, .slotOnly hl hslot hfree, hup⟩
      | some c =>
        obtain ⟨hc, hz, _⟩ := firstFree_some hv hfree
        have hc0 : c ≠ 0 := by
          have := (valid_bounds hc).1
          omega
        obtain ⟨d₂, halloc, himg₂⟩ := exec_allocCluster_some hv hfree
        obtain ⟨d₃, d₄, hdot, hdotDot, himg₄, hup₄⟩ :=
          exec_dots hv hc himg₂ v.currentCluster
        -- the directory has not moved meanwhile
        have hs₁ := hslot.chained hv hs
        have hD₁ := (hslot.isDir_iff hv hs _).mp hD
        obtain ⟨_, _, e₀, he₀, _⟩ := hslot.vacant
        have haside : Aside v (image v d₁) v.currentCluster i (image v d₄) := by
          rw [himg₄]
          exact aside_dotted hz
        obtain ⟨hloc, hsame⟩ := haside.kept hs₁ hv.geometry hD₁ hslot.loc
        obtain ⟨d₅, hwrite, himg₅, hup₅⟩ := exec_dirWrite hv hloc ((hsame i).trans he₀)
          (dirEntry v name c)
        refine ⟨true, d₅, ?_, ?_, ?_⟩
        · rw [halloc]
          dsimp only
          rw [if_neg hc0, exec_bind]
          rw [show exec (dirWrite v c 0 (setEntryCluster v (freshEntry dotName 0x10) c)) d₂ =
            (true, d₃) from hdot]
          dsimp only
          rw [exec_bind, rootCluster_eq hv.geometry]
          rw [show exec (dirWrite v c 1 (setEntryCluster v (freshEntry dotDotName 0x10)
            (if v.currentCluster = rootDir v then 0 else v.currentCluster))) d₃ =
            (true, d₄) from hdotDot]
          exact hwrite
        · rw [himg₅, himg₄]
          exact .made hl hslot hfree
        · refine hup.trans (.head (.alloc hc hz) ?_)
          rw [← himg₂]
          exact hup₄.trans hup₅

end Calls

end FatOps
