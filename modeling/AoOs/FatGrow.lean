import AoOs.FatReslot

/-! # Growing a directory

    A directory whose slots are all in use gets one more cluster of empty slots.  The
    tree does not change: the same directories have the same entries, and the only
    chain that changes is the one of the directory, which is longer by the cluster. -/

namespace FatGrow

open FatTypes FatDriver FatTable FatImage FatAlloc FatFill FatDirs FatScan FatTree Relation

variable {x h : Nat} {o : Option (Nat × Nat)}

/-- Directory `D` on the chain `l`, all slots in use, gets the free cluster `c`. -/
structure Growth (v : Vol) (I : Image) (D : Nat) (l : List Nat) (c : Nat) (I' : Image) : Prop where
  dir : IsDir v I D
  loc : Locates v I D (.chain l)
  valid : validDataCluster v c
  free : I.val c = 0
  full : ∀ {j x}, (Area.chain l).slot v I j = some x → x 0 ≠ 0
  eq : I' = grown v I (l.getLastD 0) c

namespace Growth

variable {v : Vol} {I I' : Image} {D c : Nat} {l : List Nat} (hr : Growth v I D l c I')
  (hv : Numbered v) (hs : Chained v I)

include hr

theorem root_eq : I'.root = I.root := by
  rw [hr.eq]
  exact Image.adjust_root _ _

theorem data_eq (k : Nat) : I'.data k = if k = c then fun _ => 0 else I.data k := by
  rw [hr.eq]
  funext o
  refine (Image.data_allocated c k o).trans ?_
  split <;> rfl

theorem last_mem : l.getLastD 0 ∈ l := by
  obtain ⟨t, rfl⟩ := hr.loc.2.head
  exact getLastD_mem _ t

theorem last_ne : l.getLastD 0 ≠ c :=
  fun heq => chain_not_free hr.loc.2 hr.free (heq ▸ hr.last_mem)

theorem val_other {k : Nat} (hc : k ≠ c) (hl : k ≠ l.getLastD 0) : I'.val k = I.val k := by
  rw [hr.eq, grown, Image.val_set_other hl, Image.val, Image.tab_allocated, if_neg fun h => hc h.2]
  rfl

include hv

theorem val_last : I'.val (l.getLastD 0) = c := by
  rw [hr.eq]
  exact Image.val_set_self hv.geometry.fatCount_pos _ _

theorem val_new : I'.val c = eocValue v := by
  rw [hr.eq, grown, Image.val_set_other (Ne.symm hr.last_ne), Image.val, Image.tab_allocated,
    if_pos ⟨hv.geometry.fatCount_pos, rfl⟩]

/-- The chain of the directory is longer by the cluster. -/
theorem chain_self (hx : I.Chain v x l) : I'.Chain v x (l ++ [c]) := by
  have hlast : l.getLastD 0 = l.getLast hx.ne_nil := by
    obtain ⟨t, rfl⟩ := hx.head
    exact getLastD_eq _ t
  refine SuccessorChain.Chain.extend hx hr.valid ?_ ?_ (fun k hk hns => ?_) fun k hk hstop => ?_
  · have hlt := ((hv.valid_iff c).mp hr.valid).2
    have hsmall := hv.small
    simp only [isEoc, decide_eq_true_eq]
    omega
  · rw [hr.val_new hv]
    exact isEoc_eocValue v
  · refine hr.val_other (fun heq => chain_not_free hx hr.free (heq ▸ hk)) fun heq => hns ?_
    exact (hx.stop_iff_last hk).mpr (heq.trans hlast)
  · rw [(hx.stop_iff_last hk).mp hstop, ← hlast]
    exact hr.val_last hv

include hs

/-- The last cluster belongs to the owner of the directory alone. -/
theorem chain_other {m : List Nat} (ho : Owns v I o m) (hne : ¬ DirOwner v I D o)
    (hx : I.Chain v x m) : I'.Chain v x m := by
  refine SuccessorChain.Chain.congr hx fun k hk => ?_
  refine hr.val_other (fun heq => chain_not_free hx hr.free (heq ▸ hk)) fun heq => hne ?_
  obtain ⟨o', ho'⟩ := hr.dir.owner
  have hown := hs.dir_owns hv.geometry ho' hr.loc
  rw [hs.owner_unique ho hown hk (heq ▸ hr.last_mem)]
  exact ho'

open Classical in
/-- What an owner owns afterwards. -/
theorem chain_step {m : List Nat} (ho : Owns v I o m) (hx : I.Chain v x m) :
    I'.Chain v x (if DirOwner v I D o then m ++ [c] else m) := by
  by_cases hD : DirOwner v I D o
  · rw [if_pos hD]
    have hown := hs.dir_owns hv.geometry hD hr.loc
    obtain rfl := owns_unique ho hown
    exact hr.chain_self hv hx
  · rw [if_neg hD]
    exact hr.chain_other hv hs ho hD hx

/-- Other directories stay as they are. -/
theorem kept {B : Area} (hh : IsDir v I h) (hne : h ≠ D) (hB : Locates v I h B) :
    Locates v I' h B ∧ ∀ j, B.slot v I' j = B.slot v I j := by
  have hfresh : ∀ m, B = .chain m → c ∉ m := by
    rintro m rfl
    exact chain_not_free hB.2 hr.free
  constructor
  · cases B with
    | fixed => exact hB
    | chain m =>
      obtain ⟨o, ho⟩ := hh.owner
      exact ⟨hB.1, hr.chain_other hv hs (hs.dir_owns hv.geometry ho hB)
        (fun hD => hne (ho.unique hD)) hB.2⟩
  · intro j
    refine slot_congr (fun _ => hr.root_eq) (fun m hm k hk => ?_) j
    have hkc : k ≠ c := fun heq => hfresh m hm (heq ▸ hk)
    rw [hr.data_eq, if_neg hkc]

omit hs in
/-- The directory has the slots it had, and empty ones behind them. -/
theorem grown_self : Locates v I' D (.chain (l ++ [c])) ∧
    (∀ {j x}, (Area.chain l).slot v I j = some x →
      (Area.chain (l ++ [c])).slot v I' j = some x) ∧
    (∀ {j}, (Area.chain l).slot v I j = none → ∀ {x},
      (Area.chain (l ++ [c])).slot v I' j = some x → x 0 = 0) ∧
    ∀ {j}, j / perCluster v = l.length → ∃ x, (Area.chain (l ++ [c])).slot v I' j = some x := by
  refine ⟨⟨hr.loc.1, hr.chain_self hv hr.loc.2⟩, fun {j x} hx => ?_, fun {j} hj x hx => ?_,
    fun {j} hj => ?_⟩
  · rw [Area.slot] at hx ⊢
    obtain ⟨k, hk, rfl⟩ := Option.map_eq_some_iff.mp hx
    have hlt := (List.getElem?_eq_some_iff.mp hk).1
    have hne : k ≠ c := fun heq => chain_not_free hr.loc.2 hr.free (heq ▸ List.mem_of_getElem? hk)
    rw [List.getElem?_append_left hlt, hk, Option.map_some, hr.data_eq, if_neg hne]
  · rw [Area.slot] at hj hx
    obtain ⟨k, hk, rfl⟩ := Option.map_eq_some_iff.mp hx
    rw [Option.map_eq_none_iff, List.getElem?_eq_none_iff] at hj
    rw [List.getElem?_append_right hj] at hk
    have hkc : k = c := List.mem_singleton.mp (List.mem_of_getElem? hk)
    rw [hr.data_eq, if_pos hkc]
  · rw [Area.slot, hj, List.getElem?_append_right (Nat.le_refl _), Nat.sub_self]
    exact ⟨_, rfl⟩

/-- The slots of a directory afterwards: those it had, and empty ones. -/
theorem slots {B : Area} (hh : IsDir v I h) (hB : Locates v I h B) :
    ∃ B', Locates v I' h B' ∧ (∀ {j x}, B.slot v I j = some x → B'.slot v I' j = some x) ∧
      ∀ {j x}, B'.slot v I' j = some x →
        B.slot v I j = some x ∨ (x 0 = 0 ∧ B.slot v I j = none ∧ h = D) := by
  by_cases hD : h = D
  · subst hD
    obtain rfl := hr.loc.unique hB
    obtain ⟨hloc, hold, hnew, _⟩ := hr.grown_self hv
    refine ⟨_, hloc, hold, fun {j x} hx => ?_⟩
    cases hj : (Area.chain l).slot v I j with
    | none => exact .inr ⟨hnew hj hx, rfl, rfl⟩
    | some y => exact .inl ((hold hj).symm.trans hx)
  · obtain ⟨hloc, hslot⟩ := hr.kept hv hs hh hD hB
    exact ⟨B, hloc, fun hx => (hslot _).trans hx, fun hx => .inl ((hslot _).symm.trans hx)⟩

theorem entry_iff {j : Nat} {x : Entry} (hh : IsDir v I h) :
    HasEntry v I h j x ↔ HasEntry v I' h j x := by
  obtain ⟨B, hB⟩ := hs.located hv.geometry hh
  obtain ⟨B', hB', hold, hnew⟩ := hr.slots hv hs hh hB
  constructor
  · intro hx
    exact ⟨B', hB', hold (hx.slot hB), hx.named⟩
  · intro hx
    rcases hnew (hx.slot hB') with hslot | ⟨h0, _⟩
    · exact ⟨B, hB, hslot, hx.named⟩
    · exact absurd h0 hx.named.1.1

/-- **The same directories.** -/
theorem isDir_iff (h : Nat) : IsDir v I h ↔ IsDir v I' h := by
  refine EdgeReach.reach_congr (fun p hp k => exists_congr fun j => exists_congr fun x => ?_) h
  rw [hr.entry_iff hv hs hp]

open Classical in
/-- The owners own what they owned, and the one of the directory the new cluster too. -/
theorem owns_iff {m' : List Nat} : Owns v I' o m' ↔
    ∃ m, Owns v I o m ∧ m' = if DirOwner v I D o then m ++ [c] else m := by
  constructor
  · intro ho
    cases o with
    | none =>
      obtain ⟨m, hm⟩ := hs.rootChain ho.1
      have hown : Owns v I none m := ⟨ho.1, hm⟩
      exact ⟨m, hown, ho.2.unique (hr.chain_step hv hs hown hm)⟩
    | some p =>
      obtain ⟨h, j⟩ := p
      obtain ⟨hh, x, hx, hm'⟩ := ho
      rw [← hr.isDir_iff hv hs] at hh
      rw [← hr.entry_iff hv hs hh] at hx
      obtain ⟨m, hm⟩ := hs.chain_of_ne_zero hh hx (chain_head_ne_zero hm')
      have hown : Owns v I (some (h, j)) m := ⟨hh, x, hx, hm⟩
      exact ⟨m, hown, hm'.unique (hr.chain_step hv hs hown hm)⟩
  · rintro ⟨m, ho, rfl⟩
    have hstep := fun x => hr.chain_step hv hs ho (x := x)
    cases o with
    | none => exact ⟨ho.1, hstep _ ho.2⟩
    | some p =>
      obtain ⟨h, j⟩ := p
      obtain ⟨hh, x, hx, hm⟩ := ho
      exact ⟨(hr.isDir_iff hv hs h).mp hh, x, (hr.entry_iff hv hs hh).mp hx, hstep _ hm⟩

open Classical in
theorem chained : Chained v I' where
  rootChain := fun ht => by
    obtain ⟨m, hm⟩ := hs.rootChain ht
    exact ⟨_, hr.chain_step hv hs (o := none) ⟨ht, hm⟩ hm⟩
  dirChain := fun {h j x} hh hx hd => by
    rw [← hr.isDir_iff hv hs] at hh
    rw [← hr.entry_iff hv hs hh] at hx
    obtain ⟨m, hm⟩ := hs.dirChain hh hx hd
    exact ⟨_, hr.chain_step hv hs (o := some (h, j)) ⟨hh, x, hx, hm⟩ hm⟩
  fileChain := fun {h j x} hh hx hd => by
    rw [← hr.isDir_iff hv hs] at hh
    rw [← hr.entry_iff hv hs hh] at hx
    refine (hs.fileChain hh hx hd).imp id fun ⟨m, hm, hlen⟩ => ⟨m, ?_, hlen⟩
    refine hr.chain_other hv hs (o := some (h, j)) ⟨hh, x, hx, hm⟩ ?_ hm
    -- the entry of a file is not the entry of the directory
    rintro ⟨_, y, hy, hdy, _⟩
    rw [hx.unique hy, hdy] at hd
    cases hd
  disjoint := fun {o o' m m'} ho ho' hne => by
    obtain ⟨k, hk, rfl⟩ := (hr.owns_iff hv hs).mp ho
    obtain ⟨k', hk', rfl⟩ := (hr.owns_iff hv hs).mp ho'
    have hfree : ∀ {o k}, Owns v I o k → c ∉ k := fun hk => by
      obtain ⟨_, hchain⟩ := owns_chain hk
      exact chain_not_free hchain hr.free
    -- only the owner of the directory has the new cluster
    have hmem : ∀ {o k x}, x ∈ (if DirOwner v I D o then k ++ [c] else k) →
        x ∈ k ∨ (x = c ∧ DirOwner v I D o) := by
      intro o k x hx
      by_cases hD : DirOwner v I D o
      · rw [if_pos hD, List.mem_append, List.mem_singleton] at hx
        exact hx.imp id fun h => ⟨h, hD⟩
      · rw [if_neg hD] at hx
        exact .inl hx
    intro x hx hx'
    rcases hmem hx with hxk | ⟨hxc, hD⟩
    · rcases hmem hx' with hxk' | ⟨hxc, _⟩
      · exact hs.disjoint hk hk' hne hxk hxk'
      · exact hfree hk (hxc ▸ hxk)
    · rcases hmem hx' with hxk' | ⟨_, hD'⟩
      · exact hfree hk' (hxc ▸ hxk')
      · exact hne (hs.dirOwner_unique hv.geometry hD hD')

end Growth

namespace Growth

variable {v : Vol} {I I' : Image} {D c : Nat} {l : List Nat} (hr : Growth v I D l c I')
  (hv : Numbered v) (hs : Sound v I)

include hr hv hs

/-- The slots of a directory come from slots it had before, or are empty. -/
theorem slots_back {B' : Area} (hh : IsDir v I' h) (hB' : Locates v I' h B') :
    ∃ B, IsDir v I h ∧ Locates v I h B ∧
      (∀ {j x}, B.slot v I j = some x → B'.slot v I' j = some x) ∧
      ∀ {j x}, B'.slot v I' j = some x →
        B.slot v I j = some x ∨ (x 0 = 0 ∧ B.slot v I j = none ∧ h = D) := by
  rw [← hr.isDir_iff hv hs.toChained] at hh
  obtain ⟨B, hB⟩ := hs.located hv.geometry hh
  obtain ⟨B'', hB'', hold, hnew⟩ := hr.slots hv hs.toChained hh hB
  obtain rfl := hB''.unique hB'
  exact ⟨B, hh, hB, hold, hnew⟩

/-- **A grown directory in a sound volume leaves a sound volume.** -/
theorem sound : Sound v I' where
  toChained := hr.chained hv hs.toChained
  ends := fun {h B' j k x y} hh hB' hx hx0 hjk hy hly => by
    obtain ⟨B, hh, hB, _, hnew⟩ := hr.slots_back hv hs hh hB'
    rcases hnew hy with hy | ⟨hy0, _⟩
    · rcases hnew hx with hx | ⟨_, hnone, _⟩
      · exact hs.ends hh hB hx hx0 hjk hy hly
      · -- there is no slot behind a missing one
        obtain ⟨z, hz⟩ := slot_of_lt hy hjk
        cases hnone.symm.trans hz
    · exact hly.1 hy0
  names := fun {h B' j k x y} hh hB' hj hk hx hy hlx hly hxy => by
    obtain ⟨B, hh, hB, _, hnew⟩ := hr.slots_back hv hs hh hB'
    rcases hnew hx with hx | ⟨hx0, _⟩
    · rcases hnew hy with hy | ⟨hy0, _⟩
      · exact hs.names hh hB hj hk hx hy hlx hly hxy
      · exact absurd hy0 hly.1
    · exact absurd hx0 hlx.1
  dots := fun {h j k B'} hh hc hB' => by
    rw [← hr.isDir_iff hv hs.toChained] at hh
    obtain ⟨x, hx, hd, rfl⟩ := hc
    rw [← hr.entry_iff hv hs.toChained hh] at hx
    have hc : ChildAt v I h j (entryCluster v x) := ⟨x, hx, hd, rfl⟩
    have hchild := (hr.isDir_iff hv hs.toChained _).mp (hh.child hc)
    obtain ⟨B, _, hB, hold, _⟩ := hr.slots_back hv hs hchild hB'
    obtain ⟨e₀, e₁, h0, hn0, h1, hn1, hp⟩ := hs.dots hh hc hB
    exact ⟨e₀, e₁, hold h0, hn0, hold h1, hn1, hp⟩

theorem short (hshort : Short v I) : Short v I' := by
  intro h B' j x hh hB' hx hlx
  obtain ⟨B, hh, hB, _, hnew⟩ := hr.slots_back hv hs hh hB'
  rcases hnew hx with hx | ⟨hx0, _⟩
  · exact hshort hh hB hx hlx
  · exact absurd hx0 hlx.1

/-- **Nothing gets lost.** -/
theorem accounted (hacc : Accounted v I) : Accounted v I' := by
  intro k hk hnz hbad
  obtain ⟨o, ho⟩ := hr.dir.owner
  have hown := hs.dir_owns hv.geometry ho hr.loc
  have hnew : Owns v I' o (l ++ [c]) :=
    (hr.owns_iff hv hs.toChained).mpr ⟨l, hown, (if_pos ho).symm⟩
  by_cases hkc : k = c
  · exact ⟨o, _, hnew, List.mem_append_right _ (hkc ▸ List.mem_cons_self)⟩
  · by_cases hkl : k = l.getLastD 0
    · exact ⟨o, _, hnew, List.mem_append_left _ (hkl ▸ hr.last_mem)⟩
    · rw [hr.val_other hkc hkl] at hnz hbad
      obtain ⟨o', m, ho', hmem⟩ := hacc k hk hnz hbad
      refine ⟨o', _, (hr.owns_iff hv hs.toChained).mpr ⟨m, ho', rfl⟩, ?_⟩
      split
      · exact List.mem_append_left _ hmem
      · exact hmem

end Growth

end FatGrow
