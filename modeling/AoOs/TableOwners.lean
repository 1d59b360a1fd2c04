import AoOs.MapExact
import AoOs.DestroySpace

/-! # Who owns a page table

    The kernel's hierarchy grows out of the boot loader's tables, the process
    spaces out of copies of it.  `charge` keeps account of the frames that were
    allocated as table pages, by root.  As long as no marked entry is copied the
    account is right (`Owners`): the private tables of a space are its own, the
    kernel's tables are the boot loader's or the kernel's own, and what a space
    shares with the kernel hangs below an unmarked entry of the boot loader.

    One level of a mapping keeps this, for the kernel (`Owners.kernelLevel`) and
    for a space (`Owners.spaceLevel`), and a level of a space stays away from the
    kernel's tables. -/

namespace TableOwners

open Paging Vmm PointerTree AddressSpace PageTree

variable {r' e : Word}

/-- `kernel_pml4_phys` under the boot loader. -/
def bootRoot : Word := 0x1000#64

/-- The boot loader's tables and their places. -/
def bootPlaces : List (List Index × Word) :=
  [([], 0x1000#64), ([0#9], 0x2000#64), ([0#9, 0#9], 0x3000#64), ([0#9, 1#9], 0x4000#64)]

/-- The boot loader has the table `t` at the path `q`. -/
abbrev BootPlace (q : List Index) (t : Word) : Prop := (q, t) ∈ bootPlaces

theorem bootPlace_cases {q : List Index} {t : Word} (h : BootPlace q t) :
    q.length ≤ 2 ∧ t ∈ kernelTables := by
  simp only [BootPlace, bootPlaces, List.mem_cons, List.not_mem_nil, or_false, Prod.mk.injEq] at h
  rcases h with ⟨rfl, rfl⟩ | ⟨rfl, rfl⟩ | ⟨rfl, rfl⟩ | ⟨rfl, rfl⟩ <;> decide

/-- Frames taken from `k` to `k'` are charged to the root `r`. -/
def charge (own : Nat → Option Word) (k k' : KState) (r : Word) : Nat → Option Word :=
  fun n => if !k.used n && k'.used n then some r else own n

variable {k k' : KState} {own own' : Nat → Option Word} {live : List Word} {flags r t c u : Word}
  {p q : List Index} {i : Index} {last : Bool}

/-- The kernel's hierarchy. -/
structure KernelOk (k : KState) (own : Nat → Option Word) : Prop where
  root : k.kernelPml4 = bootRoot
  wf : WellFormed k bootRoot
  boot : ∀ {q t}, BootPlace q t → tableOf k.mem bootRoot q = some t
  own : ∀ {q t}, q.length ≤ 3 → tableOf k.mem bootRoot q = some t →
    BootPlace q t ∨ IsFrame t ∧ own (frameNum t) = some bootRoot
  shared : ∀ {q t}, q.length < 3 → tableOf k.mem bootRoot q = some t → ∀ {i c},
    link (k.mem t i) = some c → has (k.mem t i) ptePrivateTable = false → BootPlace (q ++ [i]) c

/-- The private tables of an address space. -/
structure SpaceOk (k : KState) (own : Nat → Option Word) (r : Word) : Prop where
  own : ∀ {q t}, q.length ≤ 3 → tableAt k.mem r q = some t →
    IsFrame t ∧ own (frameNum t) = some r
  tree : ∀ {p q t}, p.length ≤ 3 → q.length ≤ 3 → tableAt k.mem r p = some t →
    tableAt k.mem r q = some t → p = q
  upper : ∀ {q t}, q.length < 2 → tableAt k.mem r q = some t → ∀ i,
    has (k.mem t i) ptePresent → has (k.mem t i) pteHuge = false
  shared : ∀ {q t}, q.length < 3 → tableAt k.mem r q = some t → ∀ {i c},
    link (k.mem t i) = some c → has (k.mem t i) ptePrivateTable = false → BootPlace (q ++ [i]) c

/-- The account of the table pages is right. -/
structure Owners (k : KState) (own : Nat → Option Word) (live : List Word) : Prop where
  kernel : KernelOk k own
  space : ∀ {r}, r ∈ live → SpaceOk k own r
  used : ∀ {n r}, own n = some r → k.used n

/-! ## The account -/

theorem charge_of_own (hused : ∀ {n r}, own n = some r → k.used n) {n : Nat} (h : own n = some r')
    (k' : KState) (r : Word) : charge own k k' r n = some r' := by
  rw [charge, hused h, Bool.not_true, Bool.false_and]
  exact h

theorem charge_used (hused : ∀ {n r}, own n = some r → k.used n) (hgrow : ∀ n, k.used n → k'.used n)
    {n : Nat} (h : charge own k k' r n = some r') : k'.used n := by
  rw [charge] at h
  split at h
  · rename_i hn
    exact (Bool.and_eq_true_iff.mp hn).2
  · exact hgrow n (hused h)

/-- A frame taken in between is the root's. -/
theorem charge_taken {n : Nat} (hfree : k.used n = false) (hus : k'.used n) :
    charge own k k' r n = some r := by
  rw [charge, hfree, hus]
  rfl

theorem charge_self (own : Nat → Option Word) (k : KState) (r : Word) : charge own k k r = own := by
  funext n
  rw [charge, Bool.not_and_self]
  rfl

/-- The account of two stretches is that of both together. -/
theorem charge_charge {k₁ : KState} (h : ∀ n, k.used n → k₁.used n)
    (h' : ∀ n, k₁.used n → k'.used n) : charge (charge own k k₁ r) k₁ k' r = charge own k k' r := by
  funext n
  have h1 := h n
  have h2 := h' n
  simp only [charge]
  cases hk : k.used n <;> cases hk₁ : k₁.used n <;> cases hk' : k'.used n <;> simp_all

/-! ## Different tables -/

section Owners

variable (h : Owners k own live) (hr : r ∈ live)

include h hr

theorem Owners.root_frame : IsFrame r :=
  ((h.space hr).own (Nat.zero_le _) (show tableAt k.mem r [] = some r from rfl)).1

theorem Owners.root_ne : addrOf r ≠ k.kernelPml4 := by
  rw [show addrOf r = r from (h.root_frame hr).isPage, h.kernel.root]
  rintro rfl
  exact (h.root_frame hr).not_kernel (by decide)

/-- A private table of a space is none of the kernel's. -/
theorem Owners.ne_kernel (hp : p.length ≤ 3) (hq : q.length ≤ 3) (ht : tableAt k.mem r p = some t)
    (hu : tableOf k.mem bootRoot q = some u) : t ≠ u := by
  rintro rfl
  obtain ⟨hfr, hown⟩ := (h.space hr).own hp ht
  rcases h.kernel.own hq hu with hboot | ⟨-, hown'⟩
  · exact hfr.not_kernel (bootPlace_cases hboot).2
  · -- a space's root is a frame, the kernel's is not
    cases hown.symm.trans hown'
    exact (h.root_frame hr).not_kernel (by decide)

/-- Private tables of different spaces are different. -/
theorem Owners.ne_space (hr' : r' ∈ live) (hne : r ≠ r') (hp : p.length ≤ 3) (hq : q.length ≤ 3)
    (ht : tableAt k.mem r p = some t) (hu : tableAt k.mem r' q = some u) : t ≠ u := by
  rintro rfl
  have h1 := ((h.space hr).own hp ht).2
  have h2 := ((h.space hr').own hq hu).2
  exact hne (Option.some.inj (h1.symm.trans h2))

/-- A private table is not in the allocator's hands. -/
theorem Owners.taken (hp : p.length ≤ 3) (ht : tableAt k.mem r p = some t) : Taken k t := by
  rintro d - hfree rfl
  cases (h.used ((h.space hr).own hp ht).2).symm.trans hfree

/-- A table that is not private and below a private one is the boot loader's. -/
theorem Owners.shared_kernel (hp : p.length < 3) (ht : tableAt k.mem r p = some t)
    (hc : link (k.mem t i) = some c) (hV : has (k.mem t i) ptePrivateTable = false) :
    p.length < 2 ∧ tableOf k.mem bootRoot (p ++ [i]) = some c := by
  have hboot := (h.space hr).shared hp ht hc hV
  have hlen := (bootPlace_cases hboot).1
  rw [length_snoc] at hlen
  exact ⟨by omega, h.kernel.boot hboot⟩

end Owners

/-! ## What is not touched -/

/-- A space depends on its tables above the page tables only. -/
theorem SpaceOk.congr (h : SpaceOk k own r)
    (hmem : ∀ q u, q.length < 3 → tableAt k.mem r q = some u → k'.mem u = k.mem u)
    (hown : ∀ n, own n = some r → own' n = some r) : SpaceOk k' own' r := by
  have htab : ∀ {q}, q.length ≤ 3 → tableAt k'.mem r q = tableAt k.mem r q := by
    intro q hq
    refine nodeAt_congr (fun q u hq hu j => ?_) hq
    rw [hmem q u hq hu]
  refine ⟨?_, ?_, ?_, ?_⟩
  · intro q t hq ht
    rw [htab hq] at ht
    exact (h.own hq ht).imp_right (hown _)
  · intro p q t hp hq ht hu
    rw [htab hp] at ht
    rw [htab hq] at hu
    exact h.tree hp hq ht hu
  · intro q t hq ht
    rw [htab (by omega)] at ht
    rw [hmem q t (by omega) ht]
    exact h.upper hq ht
  · intro q t hq ht
    rw [htab (by omega)] at ht
    rw [hmem q t hq ht]
    exact h.shared hq ht

/-- So does the kernel's account. -/
theorem KernelOk.of_wf (h : KernelOk k own) (hwf : WellFormed k' bootRoot)
    (hmem : ∀ q u, q.length < 3 → tableOf k.mem bootRoot q = some u → k'.mem u = k.mem u)
    (hroot : k'.kernelPml4 = k.kernelPml4)
    (hown : ∀ n, own n = some bootRoot → own' n = some bootRoot) : KernelOk k' own' := by
  have htab : ∀ {q}, q.length ≤ 3 → tableOf k'.mem bootRoot q = tableOf k.mem bootRoot q := by
    intro q hq
    refine nodeAt_congr (fun q u hq hu j => ?_) hq
    rw [hmem q u hq hu]
  refine ⟨hroot.trans h.root, hwf, ?_, ?_, ?_⟩
  · intro q t hqt
    rw [htab (by have := (bootPlace_cases hqt).1; omega)]
    exact h.boot hqt
  · intro q t hq ht
    rw [htab hq] at ht
    exact (h.own hq ht).imp_right fun ho => ⟨ho.1, hown _ ho.2⟩
  · intro q t hq ht
    rw [htab (by omega)] at ht
    rw [hmem q t hq ht]
    exact h.shared hq ht

theorem KernelOk.congr (h : KernelOk k own)
    (hmem : ∀ q u, q.length ≤ 3 → tableOf k.mem bootRoot q = some u → k'.mem u = k.mem u)
    (hfresh : ∀ q u, q.length ≤ 3 → tableOf k.mem bootRoot q = some u → Taken k' u)
    (hroot : k'.kernelPml4 = k.kernelPml4)
    (hown : ∀ n, own n = some bootRoot → own' n = some bootRoot) : KernelOk k' own' :=
  h.of_wf (h.wf.congr hmem hfresh).1.wf (fun q u hq => hmem q u (by omega)) hroot hown

/-! ## A level of the kernel -/

/-- **A level of `vmm_map_page` keeps the account.** -/
theorem Owners.kernelLevel (h : Owners k own live)
    (hl : Level k bootRoot flags last t i (some c) k') (hp : AtLevel p last)
    (ht : tableOf k.mem bootRoot p = some t) : Owners k' (charge own k k' bootRoot) live := by
  have hlen := length_snoc_le hp.inside (i := i)
  have hr := level_rewires hl h.kernel.wf hp ht
  have hcr3 : addrOf bootRoot = k.kernelPml4 := by
    rw [h.kernel.root]
    decide
  obtain ⟨hrest, hgrow, hroot⟩ := level_rest hl
  have horigin := level_origin hl (h.kernel.wf.not_huge hp ht i)
  have hcharge : ∀ {n r'}, own n = some r' → charge own k k' bootRoot n = some r' :=
    fun hn => charge_of_own h.used hn k' bootRoot
  refine ⟨⟨hroot.trans h.kernel.root, hr.wf, ?_, ?_, ?_⟩, ?_,
    fun hn => charge_used h.used hgrow hn⟩
  · intro q u hqu
    rw [hr.tables (by have := (bootPlace_cases hqu).1; omega)]
    split
    · rename_i hq
      subst hq
      -- an entry of the boot loader is found
      have hold := h.kernel.boot hqu
      rw [tableOf_snoc ht] at hold
      rcases horigin with ⟨hc, -⟩ | ⟨-, -, -, -, hnone | ⟨-, hne, -⟩⟩
      · exact hc.symm.trans hold
      · cases hnone.symm.trans hold
      · exact absurd hcr3 hne
    · exact h.kernel.boot hqu
  · intro q u hq hu
    rcases hr.replace.node_cases hq hu with ⟨rfl, rfl⟩ | ⟨-, hu⟩
    · rcases horigin with ⟨hc, -⟩ | ⟨hfr, hfree, hus, -⟩
      · exact (h.kernel.own hlen ((tableOf_snoc ht i).trans hc)).imp_right
          fun ho => ⟨ho.1, hcharge ho.2⟩
      · exact .inr ⟨hfr, charge_taken hfree hus⟩
    · exact (h.kernel.own hq hu).imp_right fun ho => ⟨ho.1, hcharge ho.2⟩
  · intro q u hq hu j d hd hV
    rcases hr.replace.value_cases (by omega) hu j with
      ⟨s, hs, heq⟩ | ⟨rfl, rfl, rfl⟩ | ⟨rfl, rfl, hs⟩
    · rw [heq] at hd hV
      exact h.kernel.shared hq hs hd hV
    · cases hr.points.symm.trans hd
      rcases horigin with ⟨hc, hmark, -⟩ | ⟨-, -, -, hmark, -⟩
      · exact h.kernel.shared hq ht hc (hmark.symm.trans hV)
      · cases hmark.symm.trans hV
    · rw [length_snoc] at hq
      rw [hr.body_empty (by omega) hs] at hd
      cases (link_absent absent_zero).symm.trans hd
  · intro r hr
    refine (h.space hr).congr (fun q u hq hu => ?_) fun n hn => hcharge hn
    exact hrest u (h.taken hr hq.le hu) (h.ne_kernel hr hq.le hp.inside.le hu ht)

/-! ## A level of a space -/

/-- A table none of whose entries is marked private. -/
def Unmarked (m : Mem) (t : Word) : Prop := ∀ i, child (m t i) = none

theorem child_of_link (h : link e = some c) (hV : has e ptePrivateTable) : child e = some c := by
  obtain ⟨hP, hH, haddr⟩ := link_eq_some.mp h
  rw [child, hP, hV, hH, haddr]
  rfl

theorem child_of_unlinked (h : link e = none) : child e = none := by
  cases hc : child e with
  | none => rfl
  | some c =>
    obtain ⟨hP, -, hH, -⟩ := child_eq_some hc
    rw [link_eq_some.mpr ⟨hP, hH, rfl⟩] at h
    cases h

theorem child_of_unmarked (h : has e ptePrivateTable = false) : child e = none := by
  rw [child, h, Bool.and_false, Bool.false_and]
  rfl

/-- What a level does to the private tables of a space: the table of the place is
    private afterwards, and all others are where they were. -/
structure SpaceLevel (k : KState) (own : Nat → Option Word) (r : Word) (p : List Index) (t : Word)
    (i : Index) (c : Word) (k' : KState) : Prop extends Stores k k' t i c where
  before : SpaceOk k own r
  inside : p.length < 3
  place : tableAt k.mem r p = some t
  child : child (k'.mem t i) = some c
  /-- The table was there, or it is fresh and empty of private tables. -/
  origin : AddressSpace.child (k.mem t i) = some c ∨
    AddressSpace.child (k.mem t i) = none ∧ (IsFrame c ∧ charge own k k' r (frameNum c) = some r) ∧
      (∀ q u, q.length ≤ 3 → tableAt k.mem r q = some u → u ≠ c) ∧
      (p.length < 2 → Unmarked k'.mem c)

/-- **A level of a process's mapping** does that, if it copies no marked entry: an entry that is
    followed is marked, and a copy is made of one of the kernel's tables. -/
theorem Owners.level_space (h : Owners k own live) (hr : r ∈ live)
    (hl : Level k r flags last t i (some c) k') (hp : AtLevel p last)
    (ht : tableAt k.mem r p = some t)
    (hcond : last = false → has (k.mem t i) ptePresent → has (k.mem t i) ptePrivateTable = false →
      Unmarked k.mem (addrOf (k.mem t i))) : SpaceLevel k own r p t i c k' := by
  have hsp := h.space hr
  have hp3 := hp.inside
  have hupper : last = false → has (k.mem t i) ptePresent →
      has (k.mem t i) pteHuge = false := by
    rintro rfl
    exact hsp.upper hp.upper ht i
  rcases level_origin hl hupper with ⟨hc, hmark, hshare⟩ | ⟨hfr, hfree, hus, hmark, hwhy⟩
  · -- the table is there; a table that is not private would be a table of the kernel's
    have hV : has (k.mem t i) ptePrivateTable := by
      cases hV : has (k.mem t i) ptePrivateTable with
      | true => rfl
      | false =>
        obtain ⟨hp2, -⟩ := h.shared_kernel hr hp3 ht hc hV
        rw [← hV]
        exact (hshare (hp.not_last hp2)).resolve_left (h.root_ne hr)
    have hchild := child_of_link hc hV
    have hct : c ≠ t := by
      rintro rfl
      have heq := hsp.tree hp3.le (length_snoc_le hp3) ht ((tableAt_snoc ht).trans hchild)
      have := congrArg List.length heq
      rw [length_snoc] at this
      omega
    have hst := level_stores hl hct hupper
    exact ⟨hst, hsp, hp3, ht, child_of_link hst.points (hmark.trans hV), .inl hchild⟩
  · have hnew : ∀ q u, q.length ≤ 3 → tableAt k.mem r q = some u → u ≠ c :=
      fun q u hq hu => h.taken hr hq hu c hfr hfree
    have hst := level_stores hl (hnew p t hp3.le ht).symm hupper
    have hnone : AddressSpace.child (k.mem t i) = none := by
      rcases hwhy with hnone | ⟨-, -, -, hV⟩
      · exact child_of_unlinked hnone
      · exact child_of_unmarked hV
    refine ⟨hst, hsp, hp3, ht, child_of_link hst.points hmark,
      .inr ⟨hnone, ⟨hfr, charge_taken hfree hus⟩, hnew, fun hp2 j => ?_⟩⟩
    rw [hst.body]
    have hlast := hp.not_last hp2
    cases hP : has (k.mem t i) ptePresent with
    | false =>
      rw [below_absent hP]
      exact child_of_unlinked (link_absent absent_zero)
    | true =>
      have hlink := link_eq_some.mpr ⟨hP, hupper hlast hP, rfl⟩
      rw [below_table hlink]
      rcases hwhy with hnone | ⟨-, -, -, hV⟩
      · cases hlink.symm.trans hnone
      · exact hcond hlast hP hV j

namespace SpaceLevel

variable (hs : SpaceLevel k own r p t i c k')

include hs

/-- A table that was there holds what it held. -/
theorem body_old (hold : AddressSpace.child (k.mem t i) = some c) : k'.mem c = k.mem c := by
  obtain ⟨hP, -, hH, haddr⟩ := child_eq_some hold
  rw [hs.body, below_table (link_eq_some.mpr ⟨hP, hH, haddr⟩)]

/-- The private tables change as in a tree where one is replaced. -/
theorem replace : Replace AddressSpace.child k.mem k'.mem 3 r p t i c where
  tree := hs.before.tree
  inside := hs.inside
  place := hs.place
  points := hs.child
  new := hs.origin.imp_right fun ho => ho.2.2.1
  body s hold := by
    rcases hs.origin with hc | ⟨hnone, -⟩
    · cases hc.symm.trans hold
      exact hs.body_old hc
    · cases hnone.symm.trans hold
  leaf hnone hp2 := by
    rcases hs.origin with hc | ⟨-, -, -, hempty⟩
    · cases hc.symm.trans hnone
    · exact hempty (by omega)
  rest := hs.rest

end SpaceLevel

/-- A new table above the page tables is empty, or a copy of the kernel's. -/
theorem Owners.body_new (h : Owners k own live) (hr : r ∈ live) (hp : p.length < 2)
    (hs : SpaceLevel k own r p t i c k') (hnone : child (k.mem t i) = none) :
    k'.mem c = (fun _ => 0#64) ∨
      ∃ s, tableOf k.mem bootRoot (p ++ [i]) = some s ∧ k'.mem c = k.mem s := by
  rw [hs.body]
  cases hP : has (k.mem t i) ptePresent with
  | false => exact .inl (below_absent hP)
  | true =>
    have hlink := link_eq_some.mpr ⟨hP, (h.space hr).upper hp hs.place i hP, rfl⟩
    have hV : has (k.mem t i) ptePrivateTable = false := by
      cases hV : has (k.mem t i) ptePrivateTable with
      | false => rfl
      | true => cases (child_of_link hlink hV).symm.trans hnone
    exact .inr ⟨_, (h.shared_kernel hr hs.inside hs.place hlink hV).2, below_table hlink⟩

/-- **A level of a process's mapping keeps the account** and touches none of the
    kernel's tables. -/
theorem Owners.spaceLevel (h : Owners k own live) (hr : r ∈ live)
    (hl : Level k r flags last t i (some c) k') (hs : SpaceLevel k own r p t i c k') :
    Owners k' (charge own k k' r) live ∧ tableAt k'.mem r (p ++ [i]) = some c ∧
      ∀ q u, q.length ≤ 3 → tableOf k.mem bootRoot q = some u → k'.mem u = k.mem u := by
  have hsp := h.space hr
  have hlen := length_snoc_le hs.inside (i := i)
  obtain ⟨hrest, hgrow, hroot⟩ := level_rest hl
  have hcharge : ∀ {n r'}, own n = some r' → charge own k k' r n = some r' :=
    fun hn => charge_of_own h.used hn k' r
  have hkernel : ∀ q u, q.length ≤ 3 → tableOf k.mem bootRoot q = some u →
      k'.mem u = k.mem u := fun q u hq hu =>
    hrest u (h.kernel.wf.fresh hq hu) (h.ne_kernel hr hs.inside.le hq hs.place hu).symm
  obtain ⟨-, hH, -⟩ := link_eq_some.mp hs.points
  obtain ⟨-, hV, -, -⟩ := child_eq_some hs.child
  have hspace : SpaceOk k' (charge own k k' r) r := by
    refine ⟨?_, hs.replace.tree_after, ?_, ?_⟩
    · intro q u hq hu
      rcases hs.replace.node_cases hq hu with ⟨rfl, rfl⟩ | ⟨-, hu⟩
      · rcases hs.origin with hold | ⟨-, hfr, -⟩
        · exact (hsp.own hlen ((tableAt_snoc hs.place).trans hold)).imp_right hcharge
        · exact hfr
      · exact (hsp.own hq hu).imp_right hcharge
    · intro q u hq hu j hP
      rcases hs.replace.value_cases (by omega) hu j with
        ⟨s, hold, heq⟩ | ⟨rfl, rfl, rfl⟩ | ⟨rfl, rfl, hnone⟩
      · rw [heq] at hP ⊢
        exact hsp.upper hq hold j hP
      · exact hH
      · rw [length_snoc] at hq
        rcases h.body_new hr (by omega) hs ((tableAt_snoc hs.place).symm.trans hnone) with
          hzero | ⟨s, hker, hcopy⟩
        · rw [hzero] at hP
          cases absent_zero.symm.trans hP
        · rw [hcopy] at hP ⊢
          exact h.kernel.wf.upper (by rw [length_snoc]; omega) hker j hP
    · intro q u hq hu j d hd hVd
      rcases hs.replace.value_cases (by omega) hu j with
        ⟨s, hold, heq⟩ | ⟨rfl, rfl, rfl⟩ | ⟨rfl, rfl, hnone⟩
      · rw [heq] at hd hVd
        exact hsp.shared hq hold hd hVd
      · cases hV.symm.trans hVd
      · rcases h.body_new hr (by rw [length_snoc] at hq; omega) hs
          ((tableAt_snoc hs.place).symm.trans hnone) with hzero | ⟨s, hker, hcopy⟩
        · rw [hzero] at hd
          cases (link_absent absent_zero).symm.trans hd
        · rw [hcopy] at hd hVd
          exact h.kernel.shared hq hker hd hVd
  refine ⟨⟨h.kernel.congr hkernel (fun q u hq hu => (h.kernel.wf.fresh hq hu).mono hgrow) hroot
      fun n hn => hcharge hn, ?_,
    fun hn => charge_used h.used hgrow hn⟩, (hs.replace.nodes hlen).trans (if_pos rfl), hkernel⟩
  intro r' hr'
  by_cases hrr : r' = r
  · rw [hrr]
    exact hspace
  · refine (h.space hr').congr (fun q u hq hu => ?_) fun n hn => hcharge hn
    exact hrest u (h.taken hr' hq.le hu) (h.ne_space hr' hr hrr hq.le hs.inside.le hu hs.place)

end TableOwners
