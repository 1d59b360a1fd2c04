import AoOs.MapLevels

/-! # Mapping a page — `vmm_map_page_in` on an address space

    Each level of `vmm_map_page_in` finds the private table below an entry or
    makes one (`FindsOrMakes`); making one changes nothing that any space maps.
    Then one entry of a page table is stored.  So mapping a page, seen from
    outside, changes one entry of one space's view, and a mapping that runs out
    of frames on the way changes no view at all (`mapPage_spec`). -/

namespace AddressSpace

open Paging Vmm PointerTree

variable {r : Option Word}

variable {ι : Type} {k k' : KState} {sp : ι → Option Space} {own : Word → Option (Owner ι)}

/-! ## Finding or making a table -/

/-- What a level of `vmm_map_page_in` does to a space: nothing, because no frame
    is left or because the table is there; or it hangs in the frame the
    allocator gives. -/
inductive FindsOrMakes (k : KState) (sp : ι → Option Space) (a : ι) (S : Space) (p : List Index)
    (i : Index) : Option Word → KState → Prop where
  | full : (pmmAllocPage k).1 = 0#64 → tableAt k.mem S.root (p ++ [i]) = none →
      FindsOrMakes k sp a S p i none k
  | finds {c : Word} : tableAt k.mem S.root (p ++ [i]) = some c →
      FindsOrMakes k sp a S p i (some c) k
  | makes {k' : KState} : tableAt k.mem S.root (p ++ [i]) = none →
      NewTable k sp a p i (pmmAllocPage k).1 k' →
      FindsOrMakes k sp a S p i (some (pmmAllocPage k).1) k'

section Levels

variable {a : ι} {S : Space} {p : List Index} {t : Word} {i : Index} {flags : Word}

/-- Below an entry that points to a private table. -/
theorem tableAt_snoc {m : Mem} {r : Word} (ht : tableAt m r p = some t) :
    tableAt m r (p ++ [i]) = child (m t i) := by
  show nodeAt child m r (p ++ [i]) = _
  rw [nodeAt_snoc, show nodeAt child m r p = some t from ht, Option.bind_some]

/-- The path of a table in which a level works: that of a page directory for the last level, a
    shorter one for the others. -/
def AtLevel (p : List Index) (last : Bool) : Prop :=
  p.length = 2 ∧ last ∨ p.length < 2 ∧ last = false

theorem AtLevel.inside {last : Bool} (hp : AtLevel p last) : p.length < 3 := by
  rw [AtLevel] at hp
  omega

theorem AtLevel.upper (hp : AtLevel p false) : p.length < 2 := by
  simpa [AtLevel] using hp

theorem AtLevel.not_last {last : Bool} (hp : AtLevel p last) (hp2 : p.length < 2) :
    last = false :=
  hp.elim (fun h => absurd h.1 hp2.ne) And.right

/-- The entry of a new table points to it and is open if the page is. -/
theorem child_madeEntry {c : Word} (hc : IsPage c) (hf : has flags pteUser) :
    child (madeEntry c flags) = some c ∧ presentUser (madeEntry c flags) := by
  obtain ⟨-, hP, hU, hH, -⟩ := has_parentFlags flags
  have hflag := fun f (hF : IsFlags f) => has_madeEntry hc hF flags
  constructor
  · rw [child, hflag _ (by decide), hflag _ (by decide), hflag _ (by decide), hP, hH,
      addrOf_madeEntry hc, show has ptePrivateTable ptePrivateTable by decide, Bool.or_true]
    rfl
  · refine presentUser_of_has ?_ ?_
    · rw [hflag _ (by decide), hP]
      rfl
    · rw [hflag _ (by decide), hU, hf]
      rfl

/-- So does the entry of a copy. -/
theorem child_copiedEntry {c e : Word} (hc : IsPage c) (hf : has flags pteUser)
    (hP : has e ptePresent) (hH : has e pteHuge = false) :
    child (copiedEntry c flags e) = some c ∧ presentUser (copiedEntry c flags e) := by
  obtain ⟨-, -, hU, hH', -⟩ := has_parentFlags flags
  have hflag := fun f (hF : IsFlags f) => has_copiedEntry hc hF flags e
  constructor
  · rw [child, hflag _ (by decide), hflag _ (by decide), hflag _ (by decide), hP, hH, hH',
      addrOf_copiedEntry hc, show has ptePrivateTable ptePrivateTable by decide,
      Bool.or_true]
    rfl
  · refine presentUser_of_has ?_ ?_
    · rw [hflag _ (by decide), hP]
      rfl
    · rw [hflag _ (by decide), hU, hf, Bool.or_true]
      rfl

variable (h : Wf k sp own) (ha : sp a = some S) (ht : tableAt k.mem S.root p = some t)
  (hroot : addrOf S.root ≠ k.kernelPml4)

include h ha ht hroot

/-- An entry that a level follows leads to a private table, and is open already. -/
theorem found_private {last : Bool} (hp : AtLevel p last) (hP : has (k.mem t i) ptePresent)
    (hshare : last = false → addrOf S.root = k.kernelPml4 ∨ has (k.mem t i) ptePrivateTable)
    (hhuge : last → has (k.mem t i) pteHuge = false) :
    child (k.mem t i) ≠ none ∧ presentUser (k.mem t i) := by
  refine (h.upper ha hp.inside ht i).resolve_left fun he => ?_
  -- the kernel's entries are not private, and in a page directory they are huge
  rcases hp with ⟨hp2, hlast⟩ | ⟨hp2, hlast⟩
  · have hH := hhuge hlast
    rw [he] at hP hH
    rcases kernelEntry_huge hp2 i with ⟨h0, -⟩ | ⟨-, hH', -⟩
    · rw [h0] at hP
      exact absurd hP (by decide)
    · cases hH.symm.trans hH'
  · have hV := (hshare hlast).resolve_left hroot
    rw [he, (kernelEntry_flags p i).2] at hV
    cases hV

/-- **A level of `vmm_map_page_in` on a space** finds the private table or makes
    it. -/
theorem Level.findsOrMakes {last : Bool} (hl : Level k S.root flags last t i r k')
    (hp : AtLevel p last) (hf : has flags pteUser) : FindsOrMakes k sp a S p i r k' := by
  have hp3 := hp.inside
  have hentry := h.upper ha hp3 ht i
  -- an entry that is not marked private is the kernel's
  have hkernel : child (k.mem t i) = none →
      k.mem t i = kernelEntry p i ∧ tableAt k.mem S.root (p ++ [i]) = none := fun hc =>
    ⟨hentry.resolve_right fun hne => hne.1 hc, (tableAt_snoc ht).trans hc⟩
  cases hl with
  | full hfull hwhy =>
    refine .full hfull ((tableAt_snoc ht).trans ?_)
    rw [child]
    rcases hwhy with ⟨-, -, hV⟩ | ⟨-, hH⟩ | hP
    · rw [hV, Bool.and_false, Bool.false_and]
      rfl
    · rw [hH, Bool.not_true, Bool.and_false]
      rfl
    · rw [hP]
      rfl
  | found hP hshare hhuge =>
    obtain ⟨hne, hu⟩ := found_private h ha ht hroot hp hP hshare hhuge
    obtain ⟨c, hc⟩ := Option.ne_none_iff_exists'.mp hne
    rw [opened_eq fun _ => (has_of_presentUser hu).2, KState.store_self]
    rw [(child_eq_some hc).2.2.2]
    exact .finds ((tableAt_snoc ht).trans hc)
  | made hP hh =>
    obtain ⟨he, hnone⟩ := hkernel (by rw [child, hP]; rfl)
    obtain ⟨hv, hu⟩ := child_madeEntry hh.frame.isPage hf
    have hkt : kernelEntry (p ++ [i]) = fun _ => 0#64 := by
      rw [he] at hP
      rcases hp with ⟨hp2, -⟩ | ⟨hp2, -⟩
      · rcases kernelEntry_huge hp2 i with ⟨-, hz⟩ | ⟨hP', -⟩
        · exact hz
        · cases hP.symm.trans hP'
      · rcases kernelEntry_step hp2 i with ⟨-, hz⟩ | ⟨hP', -⟩
        · exact hz
        · cases hP.symm.trans hP'
    obtain rfl := hh.alloc
    exact .makes hnone ⟨hh.toTakes, S, t, _, ha, hp3, ht, he, hv, hu,
      by rw [hh.mem, hkt]⟩
  | copied hlast _ hP hV hh =>
    obtain ⟨he, hnone⟩ := hkernel (by rw [child, hV, Bool.and_false, Bool.false_and]; rfl)
    subst hlast
    rcases kernelEntry_step hp.upper i with ⟨h0, -⟩ | ⟨-, hH, hmem, hboot⟩
    · rw [he, h0] at hP
      exact absurd hP (by decide)
    · obtain ⟨hv, hu⟩ := child_copiedEntry hh.frame.isPage hf hP (by rw [he]; exact hH)
      obtain rfl := hh.alloc
      refine .makes hnone ⟨hh.toTakes, S, t, _, ha, hp3, ht, he, hv, hu,
        ?_⟩
      rw [hh.mem, ← hboot, ← h.booted.tables _ hmem, he]
  | split hlast hP hH hh =>
    obtain ⟨he, hnone⟩ := hkernel (by rw [child, hH, Bool.not_true, Bool.and_false]; rfl)
    obtain ⟨hv, hu⟩ := child_madeEntry hh.frame.isPage hf
    have hp2 : p.length = 2 := by
      rcases hp with ⟨hp2, -⟩ | ⟨-, hp2⟩
      · exact hp2
      · cases hlast.symm.trans hp2
    rcases kernelEntry_huge hp2 i with ⟨h0, -⟩ | ⟨-, -, hkt⟩
    · rw [he, h0] at hP
      exact absurd hP (by decide)
    · obtain rfl := hh.alloc
      exact .makes hnone ⟨hh.toTakes, S, t, _, ha, hp3, ht, he, hv, hu,
        by rw [hh.mem, hkt, he]⟩

end Levels

/-! ## The whole mapping -/

/-- The path of an address to its page table. -/
def pathOf (virt : Word) : List Index := [pml4Index virt, pdptIndex virt, pdIndex virt]

/-- The number of the page of an address, as the tables see it: bits 12 to 47. -/
def pageNum (v : Word) : Nat := v.toNat / 4096 % 2 ^ 36

theorem pageNum_eq_iff {v w : Word} :
    pageNum v = pageNum w ↔ pathOf v = pathOf w ∧ ptIndex v = ptIndex w := by
  rw [pageNum, pageNum]
  constructor
  · intro h
    obtain ⟨h4, h3, h2, h1⟩ := index_congr h
    exact ⟨by rw [pathOf, pathOf, h4, h3, h2], h1⟩
  · rintro ⟨hpath, h1⟩
    simp only [pathOf, List.cons.injEq, and_true] at hpath
    obtain ⟨h4, h3, h2⟩ := hpath
    have hv (n : Nat) := toNat_low9 v n
    have hw (n : Nat) := toNat_low9 w n
    have e4 := congrArg BitVec.toNat h4
    have e3 := congrArg BitVec.toNat h3
    have e2 := congrArg BitVec.toNat h2
    have e1 := congrArg BitVec.toNat h1
    rw [pml4Index, pml4Index, hv, hw] at e4
    rw [pdptIndex, pdptIndex, hv, hw] at e3
    rw [pdIndex, pdIndex, hv, hw] at e2
    rw [ptIndex, ptIndex, hv, hw] at e1
    omega

/-- The entry `vmm_map_page_in` stores. -/
def leafEntry (phys flags : Word) : Word :=
  addrOf phys ||| (flags &&& ~~~pteAddrMask) ||| ptePresent

section Root

variable {a : ι} {S : Space} (h : Wf k sp own) (ha : sp a = some S)

include h ha

theorem Wf.root_own : own S.root = some (.table a []) :=
  h.table_own ha (Nat.zero_le _) rfl

theorem Wf.root_frame : IsFrame S.root :=
  (h.frame (h.root_own ha)).1

theorem Wf.addrOf_root_ne_zero : addrOf S.root ≠ 0#64 := by
  rw [show addrOf S.root = S.root from (h.root_frame ha).isPage]
  exact (h.root_frame ha).ne_zero

/-- A space's root is not the kernel's. -/
theorem Wf.root_ne_kernel : addrOf S.root ≠ k.kernelPml4 := by
  rw [show addrOf S.root = S.root from (h.root_frame ha).isPage, h.booted.root]
  intro hr
  exact (h.root_frame ha).not_kernel (hr ▸ by decide)

end Root

section Map

variable [DecidableEq ι] {a : ι} {S : Space} {p : List Index} {t : Word} {i : Index}
  {is : List Index}

/-- After a level that has not failed, the table is there. -/
theorem FindsOrMakes.wf (hfm : FindsOrMakes k sp a S p i r k') (h : Wf k sp own)
    (ha : sp a = some S) (hp : p.length < 3) : (∃ own', Wf k' sp own') ∧ SameViews sp k k' ∧
      ∀ c, r = some c → tableAt k'.mem S.root (p ++ [i]) = some c := by
  cases hfm with
  | full => exact ⟨⟨own, h⟩, SameViews.refl sp k, nofun⟩
  | finds hc =>
    refine ⟨⟨own, h⟩, SameViews.refl sp k, ?_⟩
    rintro c ⟨rfl⟩
    exact hc
  | makes _ hn =>
    obtain ⟨hwf, hviews⟩ := hn.wf h
    refine ⟨⟨_, hwf⟩, hviews, ?_⟩
    rintro c ⟨rfl⟩
    rw [hn.tableAt h ha (length_snoc_le hp), if_pos ⟨rfl, rfl⟩]

/-- The store of one page-table entry. -/
theorem Wf.storeLeaf (h : Wf k sp own) (ha : sp a = some S) (hp : p.length = 3)
    (ht : tableAt k.mem S.root p = some t) (e : Word) :
    Wf (k.store t i e) sp own ∧ ∀ {b S'}, sp b = some S' → ∀ q, q.length = 3 → ∀ j,
      view (k.store t i e).mem S'.root q j =
        if b = a ∧ q = p ∧ j = i then e else view k.mem S'.root q j := by
  have hto := h.table_own ha (by omega) ht
  -- no table above the page tables is touched
  have hrest : ∀ {b S' q u}, sp b = some S' → q.length ≤ 3 → tableAt k.mem S'.root q = some u →
      (b ≠ a ∨ q ≠ p) → ∀ j, (k.store t i e).mem u j = k.mem u j := by
    intro b S' q u hb hq hu hne j
    refine Mem.set_table _ _ _ _ ?_
    rintro rfl
    cases hto.symm.trans (h.table_own hb hq hu)
    exact hne.elim (· rfl) (· rfl)
  have htab : ∀ {b S'}, sp b = some S' → ∀ {q : List Index}, q.length ≤ 3 →
      tableAt (k.store t i e).mem S'.root q = tableAt k.mem S'.root q := by
    intro b S' hb q hq
    refine nodeAt_congr ?_ hq
    intro q u hq hu j
    rw [hrest hb (by omega) hu (.inr fun hqp => by rw [hqp] at hq; omega)]
  refine ⟨⟨?_, ?_, ?_, h.page_own, h.own_page, h.frame, ?_⟩, ?_⟩
  · refine h.booted.of_mem rfl fun u hu => ?_
    funext j
    exact Mem.set_table _ _ _ _ fun hut => (h.frame hto).1.not_kernel (hut ▸ hu)
  · intro b S' q u hb hq hu
    rw [htab hb hq] at hu
    exact h.table_own hb hq hu
  · intro b q u hu
    obtain ⟨hq, S', hb, hu'⟩ := h.own_table hu
    exact ⟨hq, S', hb, by rwa [htab hb hq]⟩
  · intro b S' q u hb hq hu j
    rw [htab hb (by omega)] at hu
    rw [hrest hb (by omega) hu (.inr fun hqp => by rw [hqp] at hq; omega)]
    exact h.upper hb hq hu j
  · intro b S' hb q hq j
    rw [view, view, htab hb (by omega)]
    cases hu : tableAt k.mem S'.root q with
    | none =>
      rw [if_neg]
      rintro ⟨rfl, rfl, -⟩
      obtain rfl : S = S' := Option.mem_unique ha hb
      cases ht.symm.trans hu
    | some u =>
      by_cases hplace : b = a ∧ q = p
      · obtain ⟨rfl, rfl⟩ := hplace
        obtain rfl : S = S' := Option.mem_unique ha hb
        obtain rfl : t = u := Option.mem_unique ht hu
        by_cases hj : j = i
        · subst hj
          rw [if_pos ⟨rfl, rfl, rfl⟩]
          exact Mem.set_same _ _ _ _
        · rw [if_neg fun hc => hj hc.2.2]
          exact Mem.set_index _ _ _ _ hj
      · rw [if_neg fun hc => hplace ⟨hc.1, hc.2.1⟩]
        exact hrest hb (by omega) hu (not_and_or.mp hplace) j

/-- The way down a space, along the indices that are left: where it stops, a
    frame is missing. -/
inductive Descends (sp : ι → Option Space) (a : ι) (S : Space) :
    KState → List Index → List Index → Option Word → KState → Prop where
  | done {k : KState} {p : List Index} {t : Word} : tableAt k.mem S.root p = some t →
      Descends sp a S k p [] (some t) k
  | full {k k' : KState} {p : List Index} {i : Index} {is : List Index} :
      FindsOrMakes k sp a S p i none k' → Descends sp a S k p (i :: is) none k'
  | next {k k₁ k' : KState} {p : List Index} {i : Index} {is : List Index} {c : Word}
      {r : Option Word} : FindsOrMakes k sp a S p i (some c) k₁ →
      Descends sp a S k₁ (p ++ [i]) is r k' → Descends sp a S k p (i :: is) r k'

/-- The way down keeps the spaces well formed and their views. -/
theorem Descends.wf (hd : Descends sp a S k p is r k') (h : Wf k sp own) (ha : sp a = some S)
    (hp : p.length + is.length ≤ 3) :
    (∃ own', Wf k' sp own') ∧ SameViews sp k k' ∧
      ∀ t, r = some t → tableAt k'.mem S.root (p ++ is) = some t := by
  induction hd generalizing own with
  | done ht =>
    refine ⟨⟨own, h⟩, SameViews.refl sp _, ?_⟩
    rintro t ⟨rfl⟩
    rwa [List.append_nil]
  | full hfm =>
    obtain ⟨hwf, hviews, -⟩ := hfm.wf h ha (by rw [List.length_cons] at hp; omega)
    exact ⟨hwf, hviews, nofun⟩
  | next hfm _ ih =>
    rw [List.length_cons] at hp
    obtain ⟨⟨own₁, hwf⟩, hviews, -⟩ := hfm.wf h ha (by omega)
    obtain ⟨hwf', hviews', htab⟩ := ih hwf (by rw [length_snoc]; omega)
    refine ⟨hwf', hviews.trans hviews', ?_⟩
    rwa [List.append_assoc] at htab

/-- The levels of `vmm_map_page_in` along the indices that are left, from the
    table `t` on: where they stop, a frame is missing. -/
inductive Walk (cr3 flags : Word) : KState → Word → List Index → Option Word → KState → Prop where
  | done {k : KState} {t : Word} : Walk cr3 flags k t [] (some t) k
  | full {k k' : KState} {t : Word} {i : Index} {is : List Index} :
      Level k cr3 flags is.isEmpty t i none k' → Walk cr3 flags k t (i :: is) none k'
  | next {k k₁ k' : KState} {t c : Word} {i : Index} {is : List Index} {res : Option Word} :
      Level k cr3 flags is.isEmpty t i (some c) k₁ → Walk cr3 flags k₁ c is res k' →
      Walk cr3 flags k t (i :: is) res k'

/-- **`vmm_map_page_in` is a walk down and one store.** -/
theorem mapPageIn_walk {cr3 : Word} (h0 : addrOf cr3 ≠ 0#64) (virt phys flags : Word) (k : KState) :
    ∃ res k₁, Walk (addrOf cr3) (flags &&& ~~~pteAddrMask) k (addrOf cr3) (pathOf virt) res k₁ ∧
      vmmMapPageIn cr3 virt phys flags k =
        match res with
        | none => (false, k₁)
        | some t => (true, k₁.store t (ptIndex virt) (leafEntry phys flags)) := by
  obtain ⟨h4, h3, h2, h1⟩ := index_addrOf virt
  rw [vmmMapPageIn]
  simp only [if_neg h0, h4, h3, h2, h1]
  generalize hfl : flags &&& ~~~pteAddrMask = fl
  have hl4 := nextTable_level (addrOf cr3) (addrOf cr3) (pml4Index virt) fl k
  rcases hr4 : nextTable (addrOf cr3) (addrOf cr3) (pml4Index virt) (parentFlags fl) fl k with
    ⟨_ | pdpt, k4⟩
  all_goals rw [hr4] at hl4
  · exact ⟨none, k4, .full hl4, rfl⟩
  have hl3 := nextTable_level (addrOf cr3) pdpt (pdptIndex virt) fl k4
  rcases hr3 : nextTable (addrOf cr3) pdpt (pdptIndex virt) (parentFlags fl) fl k4 with
    ⟨_ | pd, k3⟩
  all_goals rw [hr3] at hl3
  · exact ⟨none, k3, .next hl4 (.full hl3), by simp only [hr3]⟩
  have hl2 := pdTable_level (addrOf cr3) pd (pdIndex virt) fl k3
  rcases hr2 : pdTable pd (pdIndex virt) (parentFlags fl) fl k3 with ⟨_ | pt, k2⟩
  all_goals rw [hr2] at hl2
  · exact ⟨none, k2, .next hl4 (.next hl3 (.full hl2)), by simp only [hr3, hr2]⟩
  · refine ⟨some pt, k2, .next hl4 (.next hl3 (.next hl2 .done)), ?_⟩
    simp only [hr3, hr2, leafEntry, hfl]

theorem level_depth (h : p.length + (i :: is).length = 3) : AtLevel p is.isEmpty := by
  rw [List.length_cons] at h
  cases is with
  | nil => exact .inl ⟨by simpa using h, rfl⟩
  | cons j is =>
    rw [List.length_cons] at h
    exact .inr ⟨by omega, rfl⟩

/-- What a level of a walk has to keep. -/
def LevelKeeps (sp : ι → Option Space) (S : Space) (flags : Word) (Q : KState → Prop) : Prop :=
  ∀ {k k' : KState} {own : Word → Option (Owner ι)} {last : Bool} {p : List Index} {t : Word}
    {i : Index} {r : Option Word}, Wf k sp own → AtLevel p last → tableAt k.mem S.root p = some t →
    Level k S.root flags last t i r k' → Q k → Q k'

/-- In a space every level of a walk finds or makes a private table. -/
theorem Walk.descends {flags : Word} {Q : KState → Prop} (hw : Walk S.root flags k t is r k')
    (h : Wf k sp own) (ha : sp a = some S) (ht : tableAt k.mem S.root p = some t)
    (hlen : p.length + is.length = 3) (hf : has flags pteUser) (hlevel : LevelKeeps sp S flags Q)
    (h0 : Q k) : Descends sp a S k p is r k' ∧ Q k' := by
  induction hw generalizing p own with
  | done => exact ⟨.done ht, h0⟩
  | full hl =>
    have hp := level_depth hlen
    exact ⟨.full (hl.findsOrMakes h ha ht (h.root_ne_kernel ha) hp hf), hlevel h hp ht hl h0⟩
  | next hl _ ih =>
    have hp := level_depth hlen
    have hfm := hl.findsOrMakes h ha ht (h.root_ne_kernel ha) hp hf
    obtain ⟨⟨own₁, hwf⟩, -, htab⟩ := hfm.wf h ha hp.inside
    rw [List.length_cons] at hlen
    obtain ⟨hd, hq⟩ := ih hwf (htab _ rfl) (by rw [length_snoc]; omega) (hlevel h hp ht hl h0)
    exact ⟨.next hfm hd, hq⟩

/-- `vmm_map_page_in` goes down the path of the address level by level; what every
    level keeps holds before the last store. -/
theorem mapPage_levels {flags : Word} (Q : KState → Prop) (h : Wf k sp own) (ha : sp a = some S)
    (virt phys : Word) (hf : has flags pteUser)
    (hlevel : LevelKeeps sp S (flags &&& ~~~pteAddrMask) Q) (h0 : Q k) :
    ∃ r k₁, Descends sp a S k [] (pathOf virt) r k₁ ∧ Q k₁ ∧
      vmmMapPageIn S.root virt phys flags k =
        match r with
        | none => (false, k₁)
        | some t => (true, k₁.store t (ptIndex virt) (leafEntry phys flags)) := by
  obtain ⟨r, k₁, hw, hmap⟩ := mapPageIn_walk (h.addrOf_root_ne_zero ha) virt phys flags k
  rw [show addrOf S.root = S.root from (h.root_frame ha).isPage] at hw
  obtain ⟨hd, hq⟩ := hw.descends (p := []) h ha rfl rfl (by rw [has_not_mask (by decide), hf])
    hlevel h0
  exact ⟨r, k₁, hd, hq, hmap⟩

/-- **`vmm_map_page_in` goes down the path of the address** and stores one entry
    at its end. -/
theorem mapPage_descends (h : Wf k sp own) (ha : sp a = some S) (virt phys : Word) {flags : Word}
    (hf : has flags pteUser) : ∃ r k₁, Descends sp a S k [] (pathOf virt) r k₁ ∧
      vmmMapPageIn S.root virt phys flags k =
        match r with
        | none => (false, k₁)
        | some t => (true, k₁.store t (ptIndex virt) (leafEntry phys flags)) := by
  obtain ⟨r, k₁, hd, -, hmap⟩ := mapPage_levels (fun _ => True) h ha virt phys hf
    (fun _ _ _ _ _ => trivial) trivial
  exact ⟨r, k₁, hd, hmap⟩

/-- **`vmm_map_page_in` on an address space**: some tables are made, which changes
    no view; then it has failed, or one entry of the page table is stored. -/
theorem mapPage_spec (h : Wf k sp own) (ha : sp a = some S) (virt phys : Word) {flags : Word}
    (hf : has flags pteUser) : ∃ own₁ k₁, Wf k₁ sp own₁ ∧ SameViews sp k k₁ ∧
      (vmmMapPageIn S.root virt phys flags k = (false, k₁) ∨
        ∃ t, tableAt k₁.mem S.root (pathOf virt) = some t ∧
          vmmMapPageIn S.root virt phys flags k =
            (true, k₁.store t (ptIndex virt) (leafEntry phys flags))) := by
  obtain ⟨r, k₁, hd, hmap⟩ := mapPage_descends h ha virt phys hf
  obtain ⟨⟨own₁, hwf⟩, hviews, htab⟩ := hd.wf h ha (by simp [pathOf])
  refine ⟨own₁, k₁, hwf, hviews, ?_⟩
  cases r with
  | none => exact .inl hmap
  | some t => exact .inr ⟨t, htab t rfl, hmap⟩

end Map

end AddressSpace
