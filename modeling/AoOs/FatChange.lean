import AoOs.FatOps

/-! # What every outcome keeps

    The outcomes of the calls against the tree.  A successful call changes one slot and
    meets what `FatReslot` asks for (`Change`), whatever the name; a failed one changes
    nothing but free clusters (`Spare`), apart from a grown directory and from the
    overwriting `fat_create`.  So a sound volume stays sound. -/

namespace FatChange

open FatTypes FatDriver FatGeometry FatImage FatAlloc FatFill FatDirs FatScan FatTree FatReslot
open FatEntries FatOps Relation

variable {h j : Nat} {B : Area} {x : Entry}

/-! ## Free clusters -/

/-- Only free clusters differ. -/
structure Spare (v : Vol) (I J : Image) : Prop where
  val : ∀ c, I.val c ≠ 0 → J.val c = I.val c
  data : ∀ c, I.val c ≠ 0 → J.data c = I.data c
  root : J.root = I.root

namespace Spare

variable {v : Vol} {I J : Image} (hr : Spare v I J) (hs : Chained v I) (hg : Geometry v)

include hr

theorem chain {x : Nat} {l : List Nat} (h : I.Chain v x l) : J.Chain v x l :=
  SuccessorChain.Chain.congr h fun c hc => hr.val c (chain_val_ne_zero h hc)

/-- Directories stay as they are. -/
theorem kept (hB : Locates v I h B) : Locates v J h B ∧ ∀ j, B.slot v J j = B.slot v I j := by
  constructor
  · cases B with
    | fixed => exact hB
    | chain l => exact ⟨hB.1, hr.chain hB.2⟩
  · refine slot_congr (fun _ => hr.root) ?_
    rintro l rfl c hc
    exact hr.data c (chain_val_ne_zero hB.2 hc)

include hs hg

theorem locates_iff (hh : IsDir v I h) : Locates v I h B ↔ Locates v J h B := by
  refine ⟨fun hB => (hr.kept hB).1, fun hB => ?_⟩
  obtain ⟨B', hB'⟩ := hs.located hg hh
  rwa [hB.unique (hr.kept hB').1]

theorem entry_iff (hh : IsDir v I h) : HasEntry v I h j x ↔ HasEntry v J h j x := by
  refine exists_congr fun B => ?_
  rw [← hr.locates_iff hs hg hh]
  refine and_congr_right fun hB => ?_
  rw [(hr.kept hB).2]

/-- **The same directories.** -/
theorem isDir_iff (h : Nat) : IsDir v I h ↔ IsDir v J h := by
  refine EdgeReach.reach_congr (fun p hp k => exists_congr fun j => exists_congr fun x => ?_) h
  rw [hr.entry_iff hs hg hp]

/-- **The same owners.** -/
theorem owns_iff {o : Option (Nat × Nat)} {l : List Nat} : Owns v I o l ↔ Owns v J o l := by
  have hto : ∀ {o l}, Owns v I o l → Owns v J o l := by
    intro o l ho
    cases o with
    | none => exact ⟨ho.1, hr.chain ho.2⟩
    | some p =>
      obtain ⟨hh, x, hx, hl⟩ := ho
      exact ⟨(hr.isDir_iff hs hg _).mp hh, x, (hr.entry_iff hs hg hh).mp hx, hr.chain hl⟩
  refine ⟨hto, fun ho => ?_⟩
  have hback : ∃ l', Owns v I o l' := by
    cases o with
    | none =>
      obtain ⟨l', hl'⟩ := hs.rootChain ho.1
      exact ⟨l', ho.1, hl'⟩
    | some p =>
      obtain ⟨hh, x, hx, hl⟩ := ho
      rw [← hr.isDir_iff hs hg] at hh
      rw [← hr.entry_iff hs hg hh] at hx
      obtain ⟨l', hl'⟩ := hs.chain_of_ne_zero hh hx (chain_head_ne_zero hl)
      exact ⟨l', hh, x, hx, hl'⟩
  obtain ⟨l', ho'⟩ := hback
  rwa [owns_unique ho (hto ho')]

theorem chained : Chained v J where
  rootChain := fun ht => (hs.rootChain ht).imp fun _ => hr.chain
  dirChain := fun hh hx hd => by
    rw [← hr.isDir_iff hs hg] at hh
    rw [← hr.entry_iff hs hg hh] at hx
    exact (hs.dirChain hh hx hd).imp fun _ => hr.chain
  fileChain := fun hh hx hd => by
    rw [← hr.isDir_iff hs hg] at hh
    rw [← hr.entry_iff hs hg hh] at hx
    exact (hs.fileChain hh hx hd).imp id fun ⟨l, hl, hlen⟩ => ⟨l, hr.chain hl, hlen⟩
  disjoint := fun ho ho' hne => by
    rw [← hr.owns_iff hs hg] at ho ho'
    exact hs.disjoint ho ho' hne

omit hs in
theorem sound (hs : Sound v I) : Sound v J where
  toChained := hr.chained hs.toChained hg
  ends := fun hh hB hx h0 hjk hy => by
    rw [← hr.isDir_iff hs.toChained hg] at hh
    rw [← hr.locates_iff hs.toChained hg hh] at hB
    rw [(hr.kept hB).2] at hx hy
    exact hs.ends hh hB hx h0 hjk hy
  names := fun hh hB hj hk hx hy hlx hly hxy => by
    rw [← hr.isDir_iff hs.toChained hg] at hh
    rw [← hr.locates_iff hs.toChained hg hh] at hB
    rw [(hr.kept hB).2] at hx hy
    exact hs.names hh hB hj hk hx hy hlx hly hxy
  dots := fun {h j k B} hh hc hB => by
    rw [← hr.isDir_iff hs.toChained hg] at hh
    obtain ⟨x, hx, hd, rfl⟩ := hc
    rw [← hr.entry_iff hs.toChained hg hh] at hx
    have hc : ChildAt v I h j (entryCluster v x) := ⟨x, hx, hd, rfl⟩
    rw [← hr.locates_iff hs.toChained hg (hh.child hc)] at hB
    obtain ⟨e₀, e₁, h0, hn0, h1, hn1, hp⟩ := hs.dots hh hc hB
    exact ⟨e₀, e₁, ((hr.kept hB).2 0).trans h0, hn0, ((hr.kept hB).2 1).trans h1, hn1, hp⟩

end Spare

/-- A cluster taken and left alone. -/
theorem spare_allocated {v : Vol} {I : Image} {c : Nat} (hz : I.val c = 0) :
    Spare v I (I.allocated v c) := by
  have hne : ∀ k, I.val k ≠ 0 → k ≠ c := fun k hk heq => hk (heq ▸ hz)
  refine ⟨fun k hk => ?_, fun k hk => ?_, Image.adjust_root _ _⟩
  · rw [Image.val, Image.tab_allocated, if_neg fun h => hne k hk h.2]
    rfl
  · funext o
    rw [Image.data_allocated, if_neg (hne k hk)]

/-- Clusters taken and given back. -/
theorem spare_undone {v : Vol} {I J : Image} {M : List Nat} (h : Undone v I M J) : Spare v I J := by
  have hne : ∀ k, I.val k ≠ 0 → k ∉ M := fun k hk hmem => hk (h.free k hmem).2
  exact ⟨fun k hk => h.tab 0 k (hne k hk), fun k hk => h.bytes k (hne k hk), h.root⟩

/-- What has been given back is free again. -/
theorem undone_val {v : Vol} (hcount : 0 < v.fatCount) {I J : Image} {M : List Nat}
    (h : Undone v I M J) (k : Nat) : J.val k = I.val k := by
  by_cases hk : k ∈ M
  · exact (h.freed 0 k hcount hk).trans (h.free k hk).2.symm
  · exact h.tab 0 k hk

/-! ## Changed slots -/

/-- A change of a slot that leaves a sound volume: the new entry is `Placed`, it `Fits`, and
    the loose clusters still in use are on its chain. -/
structure Change (v : Vol) (I : Image) (D i : Nat) (A : Area) (e : Entry) (I' : Image) : Prop where
  reslot : Reslot v I D i A e I'
  placed : Named e → Placed v I D i e I'
  fits : Fits v I i A e
  covers : ∀ c, Loose v I D i c → I'.val c ≠ 0 → ∃ l, I'.Chain v (entryCluster v e) l ∧ c ∈ l
  sight : i < maxDirEntries

namespace Change

variable {v : Vol} {I I' : Image} {D i : Nat} {A : Area} {e : Entry}
  (hr : Change v I D i A e I') (hg : Geometry v) (hs : Sound v I)

include hr hg hs

theorem sound : Sound v I' := hr.reslot.sound hs hg hr.placed hr.fits

theorem short (hshort : Short v I) : Short v I' :=
  hr.reslot.short hs hg hr.placed hshort fun _ => hr.sight

/-- Nothing is lost when the new entry is live, or nothing loose is in use. -/
theorem accounted (hacc : Accounted v I) (hlive : (∀ c, Loose v I D i c → I'.val c = 0) ∨ Live e)
    (hempty : ∀ g j x, ChildAt v I D i g → ¬ HasEntry v I g j x) : Accounted v I' := by
  refine hr.reslot.accounted hs hg hacc (fun c hl hnz => ?_) hempty
  rcases hlive with hfree | hlive
  · exact absurd (hfree c hl) hnz
  · exact ⟨⟨hlive, hr.fits.undotted⟩, hr.covers c hl hnz⟩

end Change

section Removed

variable {v : Vol} {I I' : Image} {D i : Nat} {A : Area} {e : Entry}

/-- Removing. -/
theorem change_removed (hi : i < maxDirEntries) (h : Removed v I D i A e I') :
    Change v I D i A (markDeleted e) I' where
  reslot := h.reslot
  placed := fun hn => absurd hn.1 (not_live_markDeleted e)
  fits := {
    first := by rw [markDeleted_first]; decide
    undotted := not_isDot_markDeleted e
    packed := fun hl => absurd hl (not_live_markDeleted e)
    fresh := fun hl => absurd hl (not_live_markDeleted e) }
  covers := fun c hl hnz => absurd (h.freed c hl) hnz
  sight := hi

/-- What the scan of `fat_rmdir` has seen: no live entry behind the dot entries. -/
theorem blank_not_live {s : Nat → Option Entry} {n k : Nat}
    (hends : ∀ {j k x y}, s j = some x → x 0 = 0 → j ≤ k → s k = some y → ¬ Live y)
    (hfront : ∀ {j k x}, s k = some x → j ≤ k → ∃ y, s j = some y) (h : blankFrom s n j)
    (hjk : j ≤ k) (hk : k < j + n) (hx : s k = some x) : ¬ Live x := by
  induction n generalizing j with
  | zero => omega
  | succ n ih =>
    obtain ⟨y, hy⟩ := hfront hx hjk
    rw [blankFrom, hy] at h
    dsimp only at h
    by_cases h0 : y 0 = 0
    · exact hends hy h0 hjk hx
    · rw [if_neg h0] at h
      by_cases hE5 : y 0 ≠ 0xE5
      · cases (if_pos hE5).symm.trans h
      · rw [if_neg hE5] at h
        rcases Nat.lt_or_eq_of_le hjk with hlt | rfl
        · exact ih h hlt (by omega)
        · obtain rfl := Option.mem_unique hy hx
          exact fun hl => (not_used fun hu => hE5 hu.2).2 hl

/-- A directory that `fat_rmdir` takes for empty is empty, as far as the driver sees. -/
theorem rmdir_empty (hs : Sound v I) (hD : IsDir v I D) {g : Nat} (hc : ChildAt v I D i g)
    (hB : Locates v I g B) (hblank : blankFrom (B.slot v I) (maxDirEntries - 2) 2)
    (hj : j < maxDirEntries) : ¬ HasEntry v I g j x := by
  intro hx
  have hgdir := hD.child hc
  have hslot := hx.slot hB
  by_cases hj2 : j < 2
  · exact hx.named.2 (dots_isDot (hs.dots hD hc hB) hslot hj2)
  · refine blank_not_live (fun hx h0 hjk hy => hs.ends hgdir hB hx h0 hjk hy)
      (fun hx hjk => slot_of_lt hx hjk) hblank (Nat.not_lt.mp hj2) ?_ hslot hx.named.1
    rw [maxDirEntries] at hj ⊢
    omega

end Removed

section Stored

variable {v : Vol} {I J K I' : Image} {D i c : Nat} {A : Area} {e e₀ : Entry} {data : List UInt8}
  {L : List Nat}

theorem stored_chain (h : Stored v data A e i J L c K I') : I'.Chain v c L := by
  refine SuccessorChain.Chain.congr h.chain fun k _ => ?_
  rw [h.eq, put_val]

theorem stored_cluster (hv : Numbered v) (h : Stored v data A e i J L c K I') :
    entryCluster v (setEntrySize (setEntryCluster v e c) data.length) = c := by
  rw [entryCluster_setEntrySize]
  exact entryCluster_written hv e (h.chain.good_of_mem h.chain.mem_head)

/-- The slot of a stored file. -/
theorem stored_reslot (hclear : Cleared v I D i J) (h : Stored v data A e i J L c K I')
    (hD : IsDir v I D) (hA : Locates v I D A) (hold : A.slot v I i = some e₀) (hdot : ¬ IsDot e₀) :
    Reslot v I D i A (setEntrySize (setEntryCluster v e c) data.length) I' := by
  rw [h.eq]
  exact (hclear.touched h.filling.toTouched).reslot hD hA hold hdot _

theorem stored_placed (hv : Numbered v) (hclear : Cleared v I D i J)
    (h : Stored v data A e i J L c K I') (hfile : e.isDirectory = false)
    (hsize : data.length < 2 ^ 32) :
    Placed v I D i (setEntrySize (setEntryCluster v e c) data.length) I' := by
  have hchain := stored_chain h
  have hcl := stored_cluster hv h
  have hnodir : (setEntrySize (setEntryCluster v e c) data.length).isDirectory = false :=
    (isDirectory_congr (by rw [attr_setEntrySize, attr_setEntryCluster])).trans hfile
  refine ⟨fun hd => ?_, fun _ => .inr ⟨L, by rwa [hcl], ?_⟩, fun {l} hl k hk => ?_, fun hd => ?_,
    fun hd => ?_⟩
  · cases hnodir.symm.trans hd
  · rw [size_setEntrySize _ _ hsize, h.length]
    exact Nat.le_max_right _ _
  · rw [hcl] at hl
    rw [hl.unique hchain] at hk
    exact (hclear.free k).mp (h.filling.free k hk).2
  · cases hnodir.symm.trans hd
  · cases hnodir.symm.trans hd

/-- Storing a file. -/
theorem change_stored (hv : Numbered v) (hclear : Cleared v I D i J)
    (h : Stored v data A e i J L c K I') (hD : IsDir v I D) (hA : Locates v I D A)
    (hold : A.slot v I i = some e₀) (hdot : ¬ IsDot e₀) (hfile : e.isDirectory = false)
    (hsize : data.length < 2 ^ 32) (hi : i < maxDirEntries)
    (hfits : Fits v I i A (setEntrySize (setEntryCluster v e c) data.length)) :
    Change v I D i A (setEntrySize (setEntryCluster v e c) data.length) I' where
  reslot := stored_reslot hclear h hD hA hold hdot
  placed := fun _ => stored_placed hv hclear h hfile hsize
  fits := hfits
  covers := fun k hk hnz => by
    refine ⟨L, ?_, by_contra fun hmem => hnz ?_⟩
    · rw [stored_cluster hv h]
      exact stored_chain h
    · rw [h.eq, put_val]
      exact (h.filling.tab 0 k hmem).trans ((hclear.free k).mpr hk)
  sight := hi

end Stored

/-! ## Names and places -/

section Fits

variable {v : Vol} {I I₁ : Image} {D i : Nat} {A A₁ : Area} {e e₀ : Entry} {name : CString}

theorem first_of_sfn {e e' : Entry} (h : e.sfn = e'.sfn) : e 0 = e' 0 := (List.cons.inj h).1

/-- An entry with the name of the one it replaces. -/
theorem fits_replaced (hs : Sound v I) (hD : IsDir v I D) (hA : Locates v I D A)
    (he₀ : HasEntry v I D i e₀) (hi : i < maxDirEntries) (hsfn : e.sfn = e₀.sfn) :
    Fits v I i A e where
  first := by
    rw [first_of_sfn hsfn]
    exact he₀.named.1.1
  undotted := fun hd => he₀.named.2 (hd.imp hsfn.symm.trans hsfn.symm.trans)
  packed := fun _ {j x} hj hx h0 =>
    hs.ends hD hA hx h0 (Nat.le_of_lt hj) (he₀.slot hA) he₀.named.1
  fresh := fun _ {j x} hne hj hx hlx heq =>
    hne (hs.names hD hA hj hi hx (he₀.slot hA) hlx he₀.named.1 (heq.trans hsfn))

/-- The live entries in sight are those before the directory grew. -/
theorem Slotted.fresh (h : Slotted v I D A₁ i I₁) (hv : Numbered v) (hs : Sound v I)
    (hD : IsDir v I D) (hA : Locates v I D A) (hl : lookup (A.slot v I) name = none)
    (hj : j < maxDirEntries) (hx : A₁.slot v I₁ j = some x) (hlx : Live x) :
    x.sfn ≠ makeSfn name := by
  have hslot : A.slot v I j = some x := by
    rcases h.grow with rfl | ⟨l, c, hg⟩
    · rwa [hA.unique h.loc]
    · obtain ⟨B, _, hB, _, hnew⟩ :=
        hg.slots_back hv hs ((hg.isDir_iff hv hs.toChained D).mp hD) h.loc
      rw [hA.unique hB]
      exact (hnew hx).resolve_right fun h0 => hlx.1 h0.1
  exact hs.lookup_none hD hA hl hj hslot hlx

/-- A new entry in a vacant slot. -/
theorem fits_vacant (h : Slotted v I D A₁ i I₁) (hv : Numbered v) (hs : Sound v I)
    (hD : IsDir v I D) (hA : Locates v I D A) (hl : lookup (A.slot v I) name = none)
    (hsfn : e.sfn = makeSfn name) : Fits v I₁ i A₁ e := by
  obtain ⟨b, t, hb, hb0, _⟩ := makeSfn_head name
  refine ⟨?_, not_isDot_of_match hsfn, fun _ {j x} hj hx => ?_, fun _ {j x} _ hj hx hlx => ?_⟩
  · rw [show e 0 = b from (List.cons.inj (hsfn.trans hb)).1]
    exact hb0
  · obtain ⟨y, hy, hu⟩ := h.vacant.2.1 j hj
    exact Option.mem_unique hy hx ▸ hu.1
  · rw [hsfn]
    exact Slotted.fresh h hv hs hD hA hl hj hx hlx

theorem Slotted.sound (h : Slotted v I D A₁ i I₁) (hv : Numbered v) (hs : Sound v I) :
    Sound v I₁ := by
  rcases h.grow with rfl | ⟨l, c, hg⟩
  · exact hs
  · exact hg.sound hv hs

theorem Slotted.short (h : Slotted v I D A₁ i I₁) (hv : Numbered v) (hs : Sound v I)
    (hshort : Short v I) : Short v I₁ := by
  rcases h.grow with rfl | ⟨l, c, hg⟩
  · exact hshort
  · exact hg.short hv hs hshort

theorem Slotted.accounted (h : Slotted v I D A₁ i I₁) (hv : Numbered v) (hs : Sound v I)
    (hacc : Accounted v I) : Accounted v I₁ := by
  rcases h.grow with rfl | ⟨l, c, hg⟩
  · exact hacc
  · exact hg.accounted hv hs hacc

end Fits

/-! ## New files -/

/-- The entry that `fat_create` writes for a new name. -/
def fileEntry (v : Vol) (name : CString) (c size : Nat) : Entry :=
  setEntrySize (setEntryCluster v (freshEntry (makeSfn name) 0x20) c) size

theorem sfn_fileEntry (v : Vol) (name : CString) (c size : Nat) :
    (fileEntry v name c size).sfn = makeSfn name := sfn_freshEntry (length_makeSfn name) 0x20

theorem fileEntry_plain (v : Vol) (name : CString) (c size : Nat) :
    Plain (fileEntry v name c size) := .inl rfl

section Files

variable {v : Vol} (hv : Numbered v) {I I₁ J K I' : Image} {D i c : Nat} {A A₁ : Area} {e : Entry}
  {name : CString} {data : List UInt8} {L : List Nat} (hs : Sound v I) (hD : IsDir v I D)
  (hA : Locates v I D A) (hsize : data.length < 2 ^ 32)

include hv hs hD hA hsize

theorem change_created (hl : lookup (A.slot v I) name = none) (hslot : Slotted v I D A₁ i I₁)
    (hst : Stored v data A₁ (freshEntry (makeSfn name) 0x20) i I₁ L c K I') :
    Change v I₁ D i A₁ (fileEntry v name c data.length) I' := by
  obtain ⟨hlt, _, e₀, he₀, hu⟩ := hslot.vacant
  refine change_stored hv hslot.cleared hst ((hslot.isDir_iff hv hs.toChained D).mp hD) hslot.loc
    he₀ (not_used hu).1 ?_ hsize hlt
    (fits_vacant hslot hv hs hD hA hl (sfn_fileEntry v name c data.length))
  rw [Entry.isDirectory, attr_freshEntry]
  decide

theorem change_replaced (hl : lookup (A.slot v I) name = some (e, i))
    (hfile : e.isDirectory = false) (hclear : Cleared v I D i J)
    (hst : Stored v data A e i J L c K I') :
    Change v I D i A (setEntrySize (setEntryCluster v e c) data.length) I' := by
  obtain ⟨hlt, he, _⟩ := lookup_some hA hl
  exact change_stored hv hclear hst hD hA (he.slot hA) he.named.2 hfile hsize hlt
    (fits_replaced hs hD hA he hlt rfl)

end Files

/-! ## New directories -/

section Made

variable {v : Vol} (hv : Numbered v) {I I₁ : Image} {D i c : Nat} {A₁ : Area} {name : CString}

include hv

theorem dirEntry_fields (name : CString) (hc : validDataCluster v c) :
    (dirEntry v name c).sfn = makeSfn name ∧ entryCluster v (dirEntry v name c) = c ∧
    (dirEntry v name c).isDirectory := by
  refine ⟨sfn_freshEntry (length_makeSfn name) 0x10, entryCluster_written hv _ hc, ?_⟩
  rw [Entry.isDirectory, dirEntry, attr_setEntryCluster, attr_freshEntry]
  decide

/-- The cluster of the new directory, and its slots. -/
theorem made_area (hA : Locates v I₁ D A₁) (hc : validDataCluster v c) (hz : I₁.val c = 0)
    (e : Entry) (i : Nat) : (A₁.put v (dotted v D c I₁) e i).Chain v c [c] ∧
    ∀ j, (Area.chain [c]).slot v (A₁.put v (dotted v D c I₁) e i) j =
      (Area.chain [c]).slot v (dotted v D c I₁) j := by
  refine ⟨SuccessorChain.Chain.congr (chain_allocated hv (I := I₁) hc) fun k _ => put_val _ _ _ _,
    fun j => slot_put_apart ?_ _ _ _⟩
  -- its cluster is none of the parent's
  cases A₁ with
  | fixed => trivial
  | chain l =>
    intro k hk hkc
    exact chain_not_free hA.2 hz (List.mem_singleton.mp hkc ▸ hk)

/-- The new directory: dot entries, and nothing behind them. -/
theorem made_placed (hs : Chained v I₁) (hD : IsDir v I₁ D) (hA : Locates v I₁ D A₁)
    (hc : validDataCluster v c) (hz : I₁.val c = 0) :
    Placed v I₁ D i (dirEntry v name c) (A₁.put v (dotted v D c I₁) (dirEntry v name c) i) := by
  obtain ⟨-, hcl, hdir⟩ := dirEntry_fields hv name hc
  obtain ⟨hchain, hslot⟩ := made_area hv hA hc hz (dirEntry v name c) i
  have hloc : ∀ {B}, Locates v (A₁.put v (dotted v D c I₁) (dirEntry v name c) i)
      (entryCluster v (dirEntry v name c)) B → B = .chain [c] := by
    intro B hB
    rw [hcl] at hB
    exact hB.unique (locates_alone hchain)
  obtain ⟨h0, h1, hblank⟩ := slot_dotted (I := I₁) (D := D) (c := c) (two_le_perCluster hv)
  refine ⟨fun _ => ⟨[c], by rwa [hcl]⟩, fun hd => (nomatch hdir.symm.trans hd),
    fun {l} hl k hk => ?_, fun _ B hB => ?_, fun _ B j x hB hj hx => ?_⟩
  · rw [hcl] at hl
    rw [hl.unique hchain] at hk
    exact .inl (List.mem_singleton.mp hk ▸ hz)
  · obtain rfl := hloc hB
    refine ⟨dotEntry v c, dotDotEntry v D, (hslot 0).trans h0, rfl, (hslot 1).trans h1, rfl, ?_⟩
    -- the parent is the root, written as 0, or a data cluster
    have hsmall : parentCluster v D < 2 ^ 32 ∧ (v.type ≠ .fat32 → parentCluster v D < 65536) := by
      rw [parentCluster]
      by_cases hroot : D = rootDir v
      · rw [if_pos hroot]
        exact ⟨by decide, fun _ => by decide⟩
      · rw [if_neg hroot]
        obtain ⟨o, ho⟩ := hD.owner
        cases o with
        | none => exact absurd ho hroot
        | some p =>
          obtain ⟨l, hl, _⟩ := hs.childChain ho.1 ho.2
          exact cluster_small hv (hl.good_of_mem hl.mem_head)
    exact entryCluster_setEntryCluster v _ _ hsmall.1 hsmall.2
  · obtain rfl := hloc hB
    exact hblank j x hj ((hslot j).symm.trans hx)

/-- Making a directory. -/
theorem change_made {A : Area} (hs : Sound v I) (hD : IsDir v I D) (hA : Locates v I D A)
    (hl : lookup (A.slot v I) name = none) (hslot : Slotted v I D A₁ i I₁)
    (hfree : I₁.firstFree v = some c) : Change v I₁ D i A₁ (dirEntry v name c)
      (A₁.put v (dotted v D c I₁) (dirEntry v name c) i) := by
  obtain ⟨hc, hz, _⟩ := firstFree_some hv hfree
  obtain ⟨hsfn, hcl, _⟩ := dirEntry_fields hv name hc
  have hs₁ := hslot.chained hv hs.toChained
  have hD₁ := (hslot.isDir_iff hv hs.toChained D).mp hD
  obtain ⟨hi, _, e₀, he₀, hu⟩ := hslot.vacant
  refine ⟨(aside_dotted hz).reslot hD₁ hslot.loc he₀ (not_used hu).1 _, fun _ =>
    made_placed hv hs₁ hD₁ hslot.loc hc hz, fits_vacant hslot hv hs hD hA hl hsfn,
    fun k hk hnz => ?_, hi⟩
  -- the only loose cluster in use is the new one
  have hkc : k = c := by
    by_contra hne
    refine hnz ?_
    rw [put_val, val_dotted, Image.val, Image.tab_allocated, if_neg fun h => hne h.2]
    exact (hslot.cleared.free k).mpr hk
  refine ⟨[c], ?_, hkc ▸ List.mem_cons_self⟩
  rw [hcl]
  exact SuccessorChain.Chain.congr (chain_allocated hv (I := I₁) hc) fun k _ => put_val _ _ _ _

end Made

end FatChange
