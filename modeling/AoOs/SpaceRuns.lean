import AoOs.StepSystem
import AoOs.TableOwners

/-! # Runs of the address-space manager

    `vmm_map_page` on the kernel, `vmm_create_address_space`, `vmm_map_page_in` on
    a space and `vmm_destroy_address_space`, in any order.  Whole tables are
    copied with the marks of their entries, and `vmm_map_page` marks the tables
    it adds to the kernel as private: a space that copies such a mark frees a
    table of the kernel when it is destroyed (`destroy_frees_kernel`).  Runs
    that copy no marked entry keep the account of the table pages, so destroying
    a space frees its own tables only (`destroy_frees_own`). -/

namespace SpaceRuns

open Paging Vmm PointerTree AddressSpace PageTree TableOwners StepSystem

variable {res : Option Word}

variable {k k' : KState} {own : Nat → Option Word} {live : List Word} {flags r t c u : Word}
  {p q : List Index} {i : Index}

/-! ## The frames that are freed -/

/-- The way down in the kernel keeps the account. -/
theorem walk_kernel {is : List Index} (hw : Walk bootRoot flags k t is res k')
    (h : Owners k own live) (ht : tableOf k.mem bootRoot p = some t)
    (hlen : p.length + is.length = 3) :
    Owners k' (charge own k k' bootRoot) live ∧ ∀ n, k.used n → k'.used n := by
  induction hw generalizing p own with
  | done =>
    rw [charge_self]
    exact ⟨h, fun _ => id⟩
  | full hl =>
    cases hl with
    | full =>
      rw [charge_self]
      exact ⟨h, fun _ => id⟩
  | next hl _ ih =>
    have hp := level_depth hlen
    have hr := level_rewires hl h.kernel.wf hp ht
    have h1 := h.kernelLevel hl hp ht
    obtain ⟨-, hgrow, -⟩ := level_rest hl
    rw [List.length_cons] at hlen
    obtain ⟨h2, hgrow'⟩ := ih h1 hr.table_new (by rw [length_snoc]; omega)
    rw [charge_charge hgrow hgrow'] at h2
    exact ⟨h2, fun n hn => hgrow' n (hgrow n hn)⟩

/-- The store of an entry in one of the kernel's page tables. -/
theorem storeKernel_owners {v e : Word} (h : Owners k own live)
    (ht : tableOf k.mem bootRoot (pathOf v) = some t)
    (hopen : presentUser e → Opened k.mem bootRoot (pathOf v)) :
    Owners (k.store t (ptIndex v) e) own live := by
  have hv : (pathOf v).length = 3 := rfl
  have hmem : ∀ q u, q.length < 3 → tableOf k.mem bootRoot q = some u →
      (k.store t (ptIndex v) e).mem u = k.mem u := by
    intro q u hq hu
    exact funext fun j => Mem.set_table _ _ _ _
      (h.kernel.wf.ne_of_length (by omega) (by omega) ht hu (by omega))
  refine ⟨h.kernel.of_wf (h.kernel.wf.storeEntry ht hopen).1 hmem rfl fun _ => id, fun hr => ?_,
    h.used⟩
  refine (h.space hr).congr (fun q u hq hu => ?_) fun _ => id
  exact funext fun j => Mem.set_table _ _ _ _ (h.ne_kernel hr (by omega) (by omega) hu ht)

/-- `vmm_map_page`. -/
def vmmMapPage (virt phys flags : Word) (s : KState) : Bool × KState :=
  vmmMapPageIn s.kernelPml4 virt phys flags s

/-- **`vmm_map_page` keeps the account.** -/
theorem vmmMapPage_owners (h : Owners k own live) (virt phys flags : Word) :
    Owners (vmmMapPage virt phys flags k).2
      (charge own k (vmmMapPage virt phys flags k).2 bootRoot) live := by
  have hpage : addrOf bootRoot = bootRoot := by decide
  rw [vmmMapPage, h.kernel.root]
  obtain ⟨res, k₁, hw, hmap⟩ := mapPageIn_walk (show addrOf bootRoot ≠ 0#64 by decide) virt phys
    flags k
  rw [hpage] at hw
  have hroot : tableOf k.mem bootRoot [] = some bootRoot := rfl
  obtain ⟨h1, -⟩ := walk_kernel hw h hroot rfl
  rw [hmap]
  cases res with
  | none => exact h1
  | some t =>
    obtain ⟨ht, hopen⟩ := (Walk.keeps hw h.kernel.wf hroot rfl).2 t rfl
    refine storeKernel_owners h1 ht fun hu => hopen ?_ fun q i s u hq => by simp at hq
    -- the entry has the user mark of the flags
    have hU := (has_of_presentUser hu).2
    rw [leafEntry, has_or, has_or, has_page (isPage_addrOf phys) (by decide),
      show has ptePresent pteUser = false by decide, Bool.or_false, Bool.false_or] at hU
    exact hU

/-! ## Creating a space -/

/-- **`vmm_create_address_space` keeps the account** if no entry of the kernel's
    root is marked. -/
theorem vmmCreateAddressSpace_owners (h : Owners k own live) (hroot : Unmarked k.mem k.kernelPml4) :
    (vmmCreateAddressSpace k = (0#64, k)) ∨ ∃ r k', vmmCreateAddressSpace k = (r, k') ∧
      r ≠ 0#64 ∧ Owners k' (charge own k k' r) (r :: live) := by
  rw [vmmCreateAddressSpace]
  rcases allocTablePage_cases k with ⟨-, halloc⟩ | ⟨r, k₁, halloc, hr⟩
  · rw [halloc]
    exact .inl rfl
  rw [halloc]
  have hbr : tableOf k.mem bootRoot [] = some bootRoot := rfl
  have hne : bootRoot ≠ r := (h.kernel.wf.fresh (Nat.zero_le _) hbr) r hr.frame hr.free
  have hcopy : k₁.mem k₁.kernelPml4 = k.mem bootRoot := by
    rw [hr.mem, hr.kernel, h.kernel.root, Mem.setPage_other _ _ hne]
  simp only [if_neg hr.frame.ne_zero, hcopy, hr.mem, setPage_setPage]
  refine .inr ⟨r, _, rfl, hr.frame.ne_zero, ?_⟩
  generalize hk' : ({ k₁ with mem := k.mem.setPage r (k.mem bootRoot) } : KState) = k'
  have hmem' : k'.mem = k.mem.setPage r (k.mem bootRoot) := by rw [← hk']
  have htakes : Takes k r k' := by
    rw [← hk']
    exact ⟨hr.frame, hr.free, hr.used, hr.kernel⟩
  have hrest : ∀ u, Taken k u → k'.mem u = k.mem u := by
    intro u hu
    rw [hmem', Mem.setPage_other _ _ (hu r hr.frame hr.free)]
  have hself : k'.mem r = k.mem bootRoot := by rw [hmem', Mem.setPage_same]
  have hcharge : ∀ {n r'}, own n = some r' → charge own k k' r n = some r' :=
    fun hn => charge_of_own h.used hn k' r
  -- the copy of the root has no private table below it
  have htab : ∀ {q t}, tableAt k'.mem r q = some t → q = [] ∧ t = r := by
    intro q t hqt
    cases q with
    | nil => exact ⟨rfl, (Option.some.inj hqt).symm⟩
    | cons i q =>
      rw [tableAt, nodeAt, hself, ← h.kernel.root, hroot i] at hqt
      cases hqt
  refine ⟨h.kernel.congr (fun q u hq hu => hrest u (h.kernel.wf.fresh hq hu))
    (fun q u hq hu => (h.kernel.wf.fresh hq hu).mono htakes.grows) htakes.kernel
    fun n hn => hcharge hn, ?_,
    fun hn => charge_used h.used htakes.grows hn⟩
  intro r' hr'
  rcases List.mem_cons.mp hr' with rfl | hr'
  · refine ⟨?_, ?_, ?_, ?_⟩
    · intro q t _ ht
      obtain ⟨-, rfl⟩ := htab ht
      exact ⟨hr.frame, charge_taken hr.free htakes.self⟩
    · intro p q t _ _ hp hq
      rw [(htab hp).1, (htab hq).1]
    · intro q t hq ht i
      obtain ⟨rfl, rfl⟩ := htab ht
      rw [hself]
      exact h.kernel.wf.upper hq hbr i
    · intro q t hq ht i c
      obtain ⟨rfl, rfl⟩ := htab ht
      rw [hself]
      exact h.kernel.shared hq hbr
  · exact (h.space hr').congr (fun q u hq hu => hrest u (h.taken hr' (by omega) hu))
      fun n hn => hcharge hn

/-! ## Mapping in a space -/

/-- The tables that mapping `virt` in a space copies have no marked entry: the
    table below the root's entry and the page directory, where the entries are
    not marked themselves. -/
def CopiesNoMark (m : Mem) (cr3 virt : Word) : Prop :=
  let e4 := m cr3 (pml4Index virt)
  let e3 := m (addrOf e4) (pdptIndex virt)
  has e4 ptePresent →
    (has e4 ptePrivateTable = false → Unmarked m (addrOf e4)) ∧
    (has e3 ptePresent → has e3 ptePrivateTable = false → Unmarked m (addrOf e3))

/-- The store of an entry in a private page table. -/
theorem storeSpace_owners (h : Owners k own live) (hr : r ∈ live) (hp : p.length = 3)
    (ht : tableAt k.mem r p = some t) (i : Index) (e : Word) :
    Owners (k.store t i e) own live ∧ ∀ q u, q.length ≤ 3 →
      tableOf k.mem bootRoot q = some u → (k.store t i e).mem u = k.mem u := by
  have hkernel : ∀ q u, q.length ≤ 3 → tableOf k.mem bootRoot q = some u →
      (k.store t i e).mem u = k.mem u := fun q u hq hu =>
    funext fun j => Mem.set_table _ _ _ _ (h.ne_kernel hr (by omega) hq ht hu).symm
  refine ⟨⟨h.kernel.congr hkernel (fun q u hq hu => h.kernel.wf.fresh hq hu) rfl fun _ => id,
    fun {r'} hr' => (h.space hr').congr (fun q u hq hu => funext fun j => ?_) fun _ => id, h.used⟩,
    hkernel⟩
  refine Mem.set_table _ _ _ _ ?_
  by_cases hrr : r' = r
  · rintro rfl
    rw [hrr] at hu
    rw [(h.space hr).tree (by omega) (by omega) hu ht] at hq
    omega
  · exact h.ne_space hr' hr hrr (by omega) (by omega) hu ht

/-- From `k` to `k'` the account was kept on behalf of the space `r`, and none of
    the kernel's tables was touched. -/
structure Kept (own : Nat → Option Word) (live : List Word) (r : Word) (k k' : KState) : Prop where
  owners : Owners k' (charge own k k' r) live
  kernel : ∀ q u, q.length ≤ 3 → tableOf k.mem bootRoot q = some u → k'.mem u = k.mem u
  grow : ∀ n, k.used n → k'.used n

theorem Kept.refl (h : Owners k own live) (r : Word) : Kept own live r k k := by
  refine ⟨?_, fun _ _ _ _ => rfl, fun _ => id⟩
  rw [charge_self]
  exact h

theorem Kept.trans {k'' : KState} (h : Kept own live r k k')
    (h' : Kept (charge own k k' r) live r k' k'') : Kept own live r k k'' := by
  refine ⟨?_, fun q u hq hu => ?_, fun n hn => h'.grow n (h.grow n hn)⟩
  · rw [← charge_charge h.grow h'.grow]
    exact h'.owners
  · rw [← (pages_congr h.kernel).1 q hq] at hu
    rw [h'.kernel q u hq hu]
    rw [(pages_congr h.kernel).1 q hq] at hu
    exact h.kernel q u hq hu

section Levels

variable (h : Owners k own live) (hr : r ∈ live)

include h hr

/-- One level of the way down. -/
theorem level_kept {last : Bool} (hl : Level k r flags last t i (some c) k') (hp : AtLevel p last)
    (ht : tableAt k.mem r p = some t) (hcond : last = false → has (k.mem t i) ptePresent →
      has (k.mem t i) ptePrivateTable = false → Unmarked k.mem (addrOf (k.mem t i))) :
    Kept own live r k k' ∧ tableAt k'.mem r (p ++ [i]) = some c ∧ k'.mem c =
      below k.mem (k.mem t i) := by
  have hs := h.level_space hr hl hp ht hcond
  obtain ⟨howners, htab, hkernel⟩ := h.spaceLevel hr hl hs
  exact ⟨⟨howners, hkernel, (level_rest hl).2.1⟩, htab, hs.body⟩

/-- The last level. -/
theorem walk_pd {i : Index} (hw : Walk r flags k t [i] res k') (hp : p.length = 2)
    (ht : tableAt k.mem r p = some t) :
    Kept own live r k k' ∧ ∀ u, res = some u → tableAt k'.mem r (p ++ [i]) = some u := by
  cases hw with
  | full hl =>
    cases hl with
    | full => exact ⟨.refl h r, nofun⟩
  | next hl hw =>
    obtain ⟨hkept, htab, -⟩ := level_kept h hr hl (.inl ⟨hp, rfl⟩) ht nofun
    cases hw with
    | done =>
      refine ⟨hkept, ?_⟩
      rintro u ⟨rfl⟩
      exact htab

/-- The last two levels. -/
theorem walk_pdpt {i j : Index} (hw : Walk r flags k t [i, j] res k') (hp : p.length = 1)
    (ht : tableAt k.mem r p = some t) (hcond : has (k.mem t i) ptePresent →
      has (k.mem t i) ptePrivateTable = false → Unmarked k.mem (addrOf (k.mem t i))) :
    Kept own live r k k' ∧ ∀ u, res = some u → tableAt k'.mem r (p ++ [i] ++ [j]) = some u := by
  cases hw with
  | full hl =>
    cases hl with
    | full => exact ⟨.refl h r, nofun⟩
  | next hl hw =>
    obtain ⟨hkept, htab, -⟩ := level_kept h hr hl (.inr ⟨by omega, rfl⟩) ht fun _ => hcond
    obtain ⟨hkept', htab'⟩ := walk_pd hkept.owners hr hw (by rw [length_snoc, hp]) htab
    exact ⟨hkept.trans hkept', htab'⟩

/-- **`vmm_map_page_in` on a space keeps the account**, and touches none of the
    kernel's tables, if it copies no marked entry. -/
theorem vmmMapPageIn_kept (virt phys flags : Word) (hclear : CopiesNoMark k.mem r virt) :
    Kept own live r k (vmmMapPageIn r virt phys flags k).2 := by
  have hfr := h.root_frame hr
  have hpage : addrOf r = r := hfr.isPage
  have hne : addrOf r ≠ 0#64 := by
    rw [hpage]
    exact hfr.ne_zero
  obtain ⟨res, k₁, hw, hmap⟩ := mapPageIn_walk hne virt phys flags k
  rw [hpage] at hw
  -- the way down
  have hdown : Kept own live r k k₁ ∧
      ∀ u, res = some u → tableAt k₁.mem r (pathOf virt) = some u := by
    cases hw with
    | full hl =>
      cases hl with
      | full => exact ⟨.refl h r, nofun⟩
    | next hl hw =>
      obtain ⟨hkept, htab, hbody⟩ := level_kept h hr hl (p := []) (.inr ⟨by decide, rfl⟩) rfl
        fun _ hP hV => (hclear hP).1 hV
      obtain ⟨hkept', htab'⟩ := walk_pdpt hkept.owners hr hw rfl htab (by
        intro hP3 hV3
        -- a table that is not private is the kernel's, and is as it was
        have hH3 := (hkept.owners.space hr).upper (by simp) htab _ hP3
        have hl3 := link_eq_some.mpr ⟨hP3, hH3, rfl⟩
        obtain ⟨-, hker⟩ := hkept.owners.shared_kernel hr (by simp) htab hl3 hV3
        rw [(pages_congr hkept.kernel).1 _ (by simp)] at hker
        have hsame := hkept.kernel _ _ (by simp) hker
        intro j
        rw [hsame]
        -- the entry is the one that was there
        rw [hbody] at hP3 hV3 ⊢
        cases hP : has (k.mem r (pml4Index virt)) ptePresent with
        | false =>
          rw [below_absent hP] at hP3
          cases absent_zero.symm.trans hP3
        | true =>
          have hH := (h.space hr).upper (q := []) (by decide) rfl _ hP
          rw [below_table (link_eq_some.mpr ⟨hP, hH, rfl⟩)] at hP3 hV3 ⊢
          exact (hclear hP).2 hP3 hV3 j)
      exact ⟨hkept.trans hkept', htab'⟩
  rw [hmap]
  cases res with
  | none => exact hdown.1
  | some t =>
    obtain ⟨hkept, htab⟩ := hdown
    obtain ⟨hown, hker⟩ := storeSpace_owners hkept.owners hr (by simp [pathOf]) (htab t rfl)
      (ptIndex virt) (leafEntry phys flags)
    refine ⟨hown, fun q u hq hu => ?_, hkept.grow⟩
    rw [hker q u hq ((pages_congr hkept.kernel).1 q hq ▸ hu)]
    exact hkept.kernel q u hq hu

end Levels

/-! ## Destroying a space -/

/-- The account without the frames of the root `r`. -/
def discharge (own : Nat → Option Word) (r : Word) : Nat → Option Word :=
  fun n => if own n = some r then none else own n

open Classical in
/-- The private tables of a space, by path. -/
noncomputable def tableOwner (m : Mem) (r : Word) : Word → Option (Owner Unit) := fun t =>
  if h : ∃ p, p.length ≤ 3 ∧ tableAt m r p = some t then some (.table () h.choose) else none

theorem tableOwner_iff (h : SpaceOk k own r) :
    tableOwner k.mem r t = some (.table () p) ↔ p.length ≤ 3 ∧ tableAt k.mem r p = some t := by
  rw [tableOwner]
  constructor
  · intro ho
    split at ho
    · rename_i hex
      cases ho
      exact hex.choose_spec
    · cases ho
  · intro ⟨hp, ht⟩
    have hex : ∃ p, p.length ≤ 3 ∧ tableAt k.mem r p = some t := ⟨p, hp, ht⟩
    rw [dif_pos hex, h.tree hex.choose_spec.1 hp hex.choose_spec.2 ht]

/-- What belongs to a space is one of its private tables. -/
theorem ownedBy_table (ho : OwnedBy (tableOwner k.mem r) () t) :
    ∃ p, p.length ≤ 3 ∧ tableAt k.mem r p = some t := by
  obtain ⟨o, ho, -⟩ := ho
  rw [tableOwner] at ho
  split at ho
  · assumption
  · cases ho

theorem tableOwner_closed (h : SpaceOk k own r) : Closed (tableOwner k.mem r) () k := by
  intro p t ht hp i c hc
  obtain ⟨-, ht⟩ := (tableOwner_iff h).mp ht
  exact (tableOwner_iff h).mpr ⟨length_snoc_le hp, (tableAt_snoc ht).trans hc⟩

/-- **Destroying a space** stores and frees private tables of the space only. -/
theorem destroy_frees (h : Owners k own live) (hr : r ∈ live) :
    Frees (tableOwner k.mem r) () k (vmmDestroyAddressSpace r k) ∧
      ∀ f ∈ freedBy r k, ∃ p, p.length ≤ 3 ∧ tableAt k.mem r p = some f := by
  have hsp := h.space hr
  have hfr := h.root_frame hr
  have hpage : addrOf r = r := hfr.isPage
  have hne : ¬ (r = 0#64 ∨ r = k.kernelPml4) := by
    rintro (h0 | hker)
    · exact hfr.ne_zero h0
    · exact h.root_ne hr (hpage.trans hker)
  have hroot := (tableOwner_iff hsp).mpr ⟨Nat.zero_le _,
    (show tableAt k.mem r [] = some r from rfl)⟩
  have hclosed := tableOwner_closed hsp
  rw [vmmDestroyAddressSpace, freedBy]
  simp only [hpage, if_neg hne]
  obtain ⟨hfrees, hown⟩ := freePrivateTables_frees 3 hroot rfl hclosed
  refine ⟨hfrees.trans (Frees.freePage ⟨_, hroot, rfl⟩ _), fun f hf => ?_⟩
  rcases List.mem_append.mp hf with hf | hf
  · exact ownedBy_table (hown f hf)
  · rw [List.mem_singleton.mp hf]
    exact ⟨[], Nat.zero_le _, rfl⟩

/-- **`vmm_destroy_address_space` keeps the account.** -/
theorem vmmDestroyAddressSpace_owners (h : Owners k own live) (hr : r ∈ live) :
    Owners (vmmDestroyAddressSpace r k) (discharge own r) (live.filter (· ≠ r)) := by
  obtain ⟨hfrees, -⟩ := destroy_frees h hr
  have hsp := h.space hr
  -- a frame with another owner is neither stored nor freed
  have hmem : ∀ u, (∀ p, p.length ≤ 3 → tableAt k.mem r p ≠ some u) →
      (vmmDestroyAddressSpace r k).mem u = k.mem u := by
    intro u hu
    refine hfrees.mem u fun ho => ?_
    obtain ⟨p, hp, ht⟩ := ownedBy_table ho
    exact hu p hp ht
  have hused : ∀ {n r'}, own n = some r' → r' ≠ r →
      (vmmDestroyAddressSpace r k).used n = k.used n := by
    intro n r' hn hne
    refine hfrees.used n ?_
    rintro f ho rfl
    obtain ⟨p, hp, ht⟩ := ownedBy_table ho
    rw [(hsp.own hp ht).2] at hn
    exact hne (Option.some.inj hn).symm
  have hown : ∀ {n r'}, own n = some r' → r' ≠ r → discharge own r n = some r' := by
    intro n r' hn hne
    rw [discharge, if_neg, hn]
    rw [hn]
    exact fun heq => hne (Option.some.inj heq)
  have hne : bootRoot ≠ r := by
    rintro rfl
    exact (h.root_frame hr).not_kernel (by decide)
  refine ⟨h.kernel.congr (fun q u hq hu => hmem u fun p hp ht => ?_) (fun q u hq hu => ?_)
    hfrees.kernel fun n hn => hown hn hne, ?_, ?_⟩
  · exact h.ne_kernel hr hp hq ht hu rfl
  · -- a table of the kernel is not freed
    rintro d hd hfree rfl
    rcases h.kernel.own hq hu with hboot | ⟨-, hn⟩
    · exact hd.not_kernel (bootPlace_cases hboot).2
    · rw [hused hn hne, h.used hn] at hfree
      cases hfree
  · intro r' hr'
    rw [List.mem_filter, decide_eq_true_eq] at hr'
    refine (h.space hr'.1).congr (fun q u hq hu => hmem u fun p hp ht => ?_) fun n hn =>
      hown hn hr'.2
    exact h.ne_space hr'.1 hr hr'.2 (by omega) hp hu ht rfl
  · intro n r' hn
    rw [discharge] at hn
    split at hn
    · cases hn
    · rename_i hnr
      rw [hused hn fun heq => hnr (heq ▸ hn)]
      exact h.used hn

/-! ## The system -/

/-- The memory managers, the live address spaces, and for whom each frame was
    allocated as a table page. -/
structure Sys where
  k : KState
  live : List Word
  own : Nat → Option Word

/-- The calls. -/
inductive Label where
  | mapKernel (virt phys flags : Word)
  | create
  | mapIn (cr3 virt phys flags : Word)
  | destroy (cr3 : Word)

/-- One call; `vmm_map_page_in` and `vmm_destroy_address_space` are for live
    spaces. -/
def step (s : Sys) : Label → Option Sys
  | .mapKernel virt phys flags =>
    let k := (vmmMapPage virt phys flags s.k).2
    some { s with k := k, own := charge s.own s.k k s.k.kernelPml4 }
  | .create =>
    let (r, k) := vmmCreateAddressSpace s.k
    if r = 0#64 then some { s with k := k }
    else some { k := k, live := r :: s.live, own := charge s.own s.k k r }
  | .mapIn r virt phys flags =>
    if r ∈ s.live then
      let k := (vmmMapPageIn r virt phys flags s.k).2
      some { s with k := k, own := charge s.own s.k k r }
    else none
  | .destroy r =>
    if r ∈ s.live then
      some { k := vmmDestroyAddressSpace r s.k, live := s.live.filter (· ≠ r),
             own := discharge s.own r }
    else none

/-- The boot loader's tables, any frames in use, no address spaces. -/
structure Init (s : Sys) : Prop where
  booted : Booted s.k
  live : s.live = []
  own : s.own = fun _ => none

/-- A table is reached from a root through present entries. -/
def Reaches (m : Mem) (r t : Word) : Prop := ∃ q, q.length ≤ 3 ∧ tableOf m r q = some t

/-- What a call may do: a destruction frees table pages of its own space only,
    none that the kernel or another space reaches; a mapping in a space modifies
    none of the kernel's tables. -/
def Safe (s : Sys) : Label → Prop
  | .mapKernel .. => True
  | .create => True
  | .mapIn r virt phys flags => r ∈ s.live → ∀ t, Reaches s.k.mem s.k.kernelPml4 t →
      (vmmMapPageIn r virt phys flags s.k).2.mem t = s.k.mem t
  | .destroy r => r ∈ s.live → ∀ f ∈ freedBy r s.k, IsFrame f ∧ s.own (frameNum f) = some r ∧
      ¬ Reaches s.k.mem s.k.kernelPml4 f ∧
      ∀ r' ∈ s.live, r' ≠ r → ¬ Reaches s.k.mem r' f

/-- No table that a call copies has an entry that is marked private. -/
def CopiesClean (s : Sys) : Label → Prop
  | .mapKernel .. => True
  | .create => Unmarked s.k.mem s.k.kernelPml4
  | .mapIn r virt _ _ => CopiesNoMark s.k.mem r virt
  | .destroy _ => True

/-- The account is right at the start. -/
theorem Init.owners {s : Sys} (h : Init s) : Owners s.k s.own s.live := by
  have hb := h.booted
  have hroot : s.k.mem bootRoot = kernelEntry [] := by
    have := booted_root hb
    rwa [hb.root] at this
  have hwf := booted_wellFormed hb
  rw [hb.root] at hwf
  have hplaces : ∀ {q t}, tableOf s.k.mem bootRoot q = some t →
      BootPlace q t ∧ s.k.mem t = kernelEntry q := by
    intro q t ht
    obtain ⟨hplace, hmem⟩ := boot_tables hb hroot ht
    refine ⟨?_, hmem⟩
    rcases hplace with ⟨rfl, rfl⟩ | ⟨rfl, rfl⟩ | ⟨rfl, rfl⟩ | ⟨rfl, rfl⟩ <;> decide
  refine ⟨⟨hb.root, hwf, ?_, fun _ ht => .inl (hplaces ht).1, ?_⟩, ?_, ?_⟩
  · intro q t hqt
    obtain ⟨-, hmem⟩ := bootPlace_cases hqt
    obtain ⟨q', -, hq'⟩ := booted_place hb hmem
    rw [hb.root] at hq'
    -- a table of the boot loader has one place
    have hone : ∀ {x y u}, BootPlace x u → BootPlace y u → x = y := by
      intro x y u hx hy
      simp only [BootPlace, bootPlaces, List.mem_cons, List.not_mem_nil, or_false,
        Prod.mk.injEq] at hx hy
      rcases hx with ⟨rfl, rfl⟩ | ⟨rfl, rfl⟩ | ⟨rfl, rfl⟩ | ⟨rfl, rfl⟩ <;>
        rcases hy with ⟨rfl, h⟩ | ⟨rfl, h⟩ | ⟨rfl, h⟩ | ⟨rfl, h⟩ <;>
        first
          | rfl
          | exact absurd h (by decide)
    rw [hone hqt (hplaces hq').1]
    exact hq'
  · intro q t hq ht i c hc _
    exact (hplaces ((tableOf_snoc ht i).trans hc)).1
  · intro r hr
    rw [h.live] at hr
    cases hr
  · intro n r hn
    rw [h.own] at hn
    cases hn

/-- A step keeps the account. -/
theorem step_owners {s s' : Sys} {l : Label} (h : Owners s.k s.own s.live) (hl : CopiesClean s l)
    (hstep : step s l = some s') : Owners s'.k s'.own s'.live := by
  cases l with
  | mapKernel virt phys flags =>
    cases hstep
    have hk := vmmMapPage_owners h virt phys flags
    rw [← h.kernel.root] at hk
    exact hk
  | create =>
    rw [step] at hstep
    rcases vmmCreateAddressSpace_owners h hl with heq | ⟨r, k', heq, hne, hown⟩
    · rw [heq] at hstep
      cases hstep
      exact h
    · rw [heq] at hstep
      simp only [if_neg hne] at hstep
      cases hstep
      exact hown
  | mapIn r virt phys flags =>
    rw [step] at hstep
    split at hstep
    · cases hstep
      exact (vmmMapPageIn_kept h ‹_› virt phys flags hl).owners
    · cases hstep
  | destroy r =>
    rw [step] at hstep
    split at hstep
    · cases hstep
      exact vmmDestroyAddressSpace_owners h ‹_›
    · cases hstep

/-- What is reached from a space is a private table of it or a table of the
    kernel. -/
theorem reaches_cases (h : Owners k own live) (hr : r ∈ live) (hq : q.length ≤ 3)
    (ht : tableOf k.mem r q = some t) :
    tableAt k.mem r q = some t ∨ tableOf k.mem bootRoot q = some t := by
  induction q using List.reverseRecOn generalizing t with
  | nil => exact .inl ht
  | append_singleton q i ih =>
    rw [length_snoc] at hq
    obtain ⟨u, hu, hlink⟩ := nodeAt_parent ht
    rcases ih (by omega) hu with hu | hu
    · cases hV : has (k.mem u i) ptePrivateTable with
      | true => exact .inl ((tableAt_snoc hu).trans (child_of_link hlink hV))
      | false => exact .inr (h.shared_kernel hr (by omega) hu hlink hV).2
    · exact .inr ((tableOf_snoc hu i).trans hlink)

/-- **Destroying a space frees its own tables only**, and a mapping in a space
    leaves the kernel's alone, in every run whose calls copy no marked entry. -/
theorem destroy_frees_own {s₀ s : Sys} {ls : List Label} {l : Label} (hinit : Init s₀)
    (hrun : Steps step CopiesClean s₀ ls s) (hl : CopiesClean s l) : Safe s l := by
  have h : Owners s.k s.own s.live :=
    hrun.invariant (I := fun s => Owners s.k s.own s.live)
      (fun _ _ _ h hc hs => step_owners h hc hs) hinit.owners
  cases l with
  | mapKernel => trivial
  | create => trivial
  | mapIn r virt phys flags =>
    rintro hr t ⟨q, hq, ht⟩
    rw [h.kernel.root] at ht
    exact (vmmMapPageIn_kept h hr virt phys flags hl).kernel q t hq ht
  | destroy r =>
    intro hr f hf
    obtain ⟨p, hp, hpt⟩ := (destroy_frees h hr).2 f hf
    obtain ⟨hfr, hown⟩ := (h.space hr).own hp hpt
    refine ⟨hfr, hown, ?_, ?_⟩
    · rintro ⟨q, hq, hqt⟩
      rw [h.kernel.root] at hqt
      exact h.ne_kernel hr hp hq hpt hqt rfl
    · rintro r' hr' hne ⟨q, hq, hqt⟩
      rcases reaches_cases h hr' hq hqt with hqt | hqt
      · exact h.ne_space hr hr' (Ne.symm hne) hp hq hpt hqt rfl
      · exact h.ne_kernel hr hp hq hpt hqt rfl

instance (m : Mem) (t : Word) : Decidable (Unmarked m t) :=
  inferInstanceAs (Decidable (∀ i, child (m t i) = none))

instance (m : Mem) (cr3 virt : Word) : Decidable (CopiesNoMark m cr3 virt) :=
  inferInstanceAs (Decidable (_ → _))

instance (s : Sys) : (l : Label) → Decidable (CopiesClean s l)
  | .mapKernel .. => isTrue trivial
  | .create => inferInstanceAs (Decidable (Unmarked _ _))
  | .mapIn .. => inferInstanceAs (Decidable (CopiesNoMark ..))
  | .destroy _ => isTrue trivial

/-- A machine after boot, with the frames from 2 MB on free. -/
def bootSys : Sys where
  k := { mem := bootMem, used := fun n => decide (n < 512), freePages := 0#64,
         kernelPml4 := 0x1000#64 }
  live := []
  own := fun _ => none

theorem bootSys_init : Init bootSys := ⟨⟨rfl, fun _ _ => rfl⟩, rfl, rfl⟩

/-- A process with one page: its destruction frees four tables of its own. -/
theorem destroy_frees_own_one : ∃ s, Init bootSys ∧ Steps step CopiesClean bootSys
      [.create, .mapIn 0x200000#64 0x400000#64 0x300000#64 pteUser] s ∧
      CopiesClean s (.destroy 0x200000#64) ∧ (freedBy 0x200000#64 s.k).length = 4 ∧
      Safe s (.destroy 0x200000#64) := by
  have hrun : ((runWhile step CopiesClean bootSys
      [.create, .mapIn 0x200000#64 0x400000#64 0x300000#64 pteUser]).map fun s =>
        (freedBy 0x200000#64 s.k).length) = some 4 := by
    decide +kernel
  obtain ⟨s, hs, hlen⟩ := Option.map_eq_some_iff.mp hrun
  have hsteps := steps_of_runWhile hs
  exact ⟨s, bootSys_init, hsteps, trivial, hlen, destroy_frees_own bootSys_init hsteps trivial⟩

/-- A kernel mapping at 512 GB makes three tables and marks them private.  The
    root of the next address space has the mark too, and its destruction frees
    the tables, although the kernel still uses them. -/
theorem destroy_frees_kernel : ∃ s, Init bootSys ∧ Steps step Any bootSys
      [.mapKernel 0x8000000000#64 0x300000#64 pteWritable, .create] s ∧
      ¬ Safe s (.destroy 0x203000#64) := by
  have hrun : ((runWhile step Any bootSys
      [.mapKernel 0x8000000000#64 0x300000#64 pteWritable, .create]).map fun s =>
        (s.live, freedBy 0x203000#64 s.k, tableOf s.k.mem s.k.kernelPml4 [1#9])) =
      some ([0x203000#64], [0x202000#64, 0x201000#64, 0x200000#64, 0x203000#64],
        some 0x200000#64) := by
    decide +kernel
  obtain ⟨s, hs, hres⟩ := Option.map_eq_some_iff.mp hrun
  obtain ⟨hlive, hfreed, hreach⟩ := Prod.mk.injEq .. ▸ Prod.mk.injEq .. ▸ hres
  refine ⟨s, bootSys_init, steps_of_runWhile hs, fun hsafe => ?_⟩
  obtain ⟨-, -, hno, -⟩ := hsafe (by rw [hlive]; decide) 0x200000#64 (by rw [hfreed]; decide)
  exact hno ⟨[1#9], by decide, hreach⟩

end SpaceRuns
