import AoOs.MapPage
import AoOs.UserPointer

/-! # What an address space maps

    The view of a space is what the hardware computes with.  A page is open to
    user mode exactly when its entry in the view is (`userPageOk_view`), and the
    translation of every address is read off that entry (`translate_view`):
    splitting 2 MB pages and copying the kernel's tables changes nothing.  The
    kernel's own translation depends on its four tables only. -/

namespace AddressSpace

open Paging Vmm PointerTree

variable {m : Mem} {r : Word}

variable {ι : Type} {k : KState} {sp : ι → Option Space} {own : Word → Option (Owner ι)}
  {a : ι} {S : Space} {p : List Index} {i : Index}

/-! ## Walking the view -/

theorem view_of_some {t : Word} (h : tableAt m r p = some t) : view m r p = m t := by
  rw [view, h]

theorem view_of_none (h : tableAt m r p = none) : view m r p = kernelEntry p := by
  rw [view, h]

/-- An entry of the view above the page tables: the kernel's, with no private
    table below, or one that points to a private table. -/
theorem Wf.view_cases (h : Wf k sp own) (ha : sp a = some S) (hp : p.length < 3) (i : Index) :
    (view k.mem S.root p i = kernelEntry p i ∧ tableAt k.mem S.root (p ++ [i]) = none) ∨
      ∃ c, tableAt k.mem S.root (p ++ [i]) = some c ∧ child (view k.mem S.root p i) = some c ∧
        presentUser (view k.mem S.root p i) := by
  cases ht : tableAt k.mem S.root p with
  | none =>
    refine .inl ⟨by rw [view_of_none ht], ?_⟩
    show nodeAt child k.mem S.root (p ++ [i]) = none
    rw [nodeAt_snoc, show nodeAt child k.mem S.root p = none from ht]
    rfl
  | some t =>
    rw [view_of_some ht, tableAt_snoc ht]
    rcases h.upper ha hp ht i with he | ⟨hne, hu⟩
    · exact .inl ⟨he, by rw [he]; exact child_kernelEntry p i⟩
    · obtain ⟨c, hc⟩ := Option.ne_none_iff_exists'.mp hne
      exact .inr ⟨c, hc, hc, hu⟩

/-- Where the kernel has nothing, it has nothing below. -/
theorem kernelEntry_absent (hp : p.length < 3) (h : has (kernelEntry p i) ptePresent = false) :
    kernelEntry (p ++ [i]) = fun _ => 0#64 := by
  by_cases hp2 : p.length < 2
  · rcases kernelEntry_step hp2 i with ⟨-, hz⟩ | ⟨hP, -⟩
    · exact hz
    · cases hP.symm.trans h
  · rcases kernelEntry_huge (by omega : p.length = 2) i with ⟨-, hz⟩ | ⟨hP, -⟩
    · exact hz
    · cases hP.symm.trans h

/-! ## Access from user mode -/

theorem presentUser_kernelEntry (p : List Index) (i : Index) :
    presentUser (kernelEntry p i) = false := by
  cases hu : presentUser (kernelEntry p i) with
  | false => rfl
  | true =>
    have := (has_of_presentUser hu).2
    rw [(kernelEntry_flags p i).1] at this
    cases this

/-- From a private table, an entry that is closed to user mode has no private
    table below it, and an open one leads to one. -/
theorem Wf.descend (h : Wf k sp own) (ha : sp a = some S) (hp : p.length < 3) {t : Word}
    (ht : tableAt k.mem S.root p = some t) (i : Index) :
    (presentUser (k.mem t i) = false ∧ tableAt k.mem S.root (p ++ [i]) = none) ∨
      ∃ c, tableAt k.mem S.root (p ++ [i]) = some c ∧ presentUser (k.mem t i) ∧
        addrOf (k.mem t i) = c ∧ has (k.mem t i) pteHuge = false := by
  have hview := view_of_some ht
  rcases h.view_cases ha hp i with ⟨he, hnone⟩ | ⟨c, hc, hchild, hu⟩
  · rw [hview] at he
    exact .inl ⟨by rw [he]; exact presentUser_kernelEntry p i, hnone⟩
  · rw [hview] at hchild hu
    obtain ⟨-, -, hH, haddr⟩ := child_eq_some hchild
    exact .inr ⟨c, hc, hu, haddr, hH⟩

theorem tableAt_none_snoc (h : tableAt m r p = none) : tableAt m r (p ++ [i]) = none := by
  show nodeAt child m r (p ++ [i]) = none
  rw [nodeAt_snoc, show nodeAt child m r p = none from h]
  rfl

/-- Without a private table nothing is open to user mode. -/
theorem view_absent (h : tableAt m r p = none) (i : Index) :
    presentUser (view m r p i) = false := by
  rw [view_of_none h]
  exact presentUser_kernelEntry p i

/-- **`vmm_user_page_ok` reads the view.** -/
theorem userPageOk_view (h : Wf k sp own) (ha : sp a = some S) (v : Word) :
    vmmUserPageOk k.mem S.root v = presentUser (view k.mem S.root (pathOf v) (ptIndex v)) := by
  have hfr := h.root_frame ha
  have hpath : pathOf v = [] ++ [pml4Index v] ++ [pdptIndex v] ++ [pdIndex v] := rfl
  rw [vmmUserPageOk]
  simp only [show addrOf S.root = S.root from hfr.isPage, if_neg hfr.ne_zero]
  rcases h.descend ha (by decide) (show tableAt k.mem S.root [] = some S.root from rfl)
    (pml4Index v) with ⟨hu, hnone⟩ | ⟨t3, ht3, hu, haddr, -⟩
  · rw [hu, hpath, view_absent (tableAt_none_snoc (tableAt_none_snoc hnone))]
    rfl
  · rw [hu, haddr]
    rcases h.descend ha (by simp) ht3 (pdptIndex v) with ⟨hu, hnone⟩ | ⟨t2, ht2, hu, haddr, -⟩
    · rw [hu, hpath, view_absent (tableAt_none_snoc hnone)]
      rfl
    · rw [hu, haddr]
      rcases h.descend ha (by simp) ht2 (pdIndex v) with ⟨hu, hnone⟩ | ⟨t1, ht1, hu, haddr, hH⟩
      · rw [hu, hpath, view_absent hnone]
        rfl
      · rw [hu, haddr, hH, hpath, view_of_some ht1]
        rfl

/-! ## Translation -/

theorem splitTable_kernel {q : List Index} (hq : q.length = 2) (i j : Index)
    (hP : has (kernelEntry q i) ptePresent) :
    ∃ n, addrOf (kernelEntry q i) = BitVec.ofNat 64 (n * 0x200000) ∧ n < 1024 ∧
      splitTable (kernelEntry q i) j = frameAddr (n * 512 + j.toNat) ||| 0x3#64 := by
  match q with
  | [x, y] =>
    rw [kernelEntry] at hP ⊢
    rcases kernelPd_cases x y i with h0 | ⟨n, -, hy, hn, haddr, hflags⟩
    · rw [h0] at hP
      exact absurd hP (by decide)
    · have hi := i.isLt
      refine ⟨n, haddr, by omega, ?_⟩
      have hnum : n * 0x200000 + j.toNat * pageSize = (n * 512 + j.toNat) * pageSize := by
        simp only [pageSize]
        omega
      rw [splitTable, haddr, hflags, ← BitVec.ofNat_add, hnum,
        show 0x83#64 &&& ~~~pteHuge = 0x3#64 by decide, frameAddr]

/-- The frame number of a kernel page table entry is small enough to be one. -/
theorem isPage_frameAddr {n : Nat} (h : n < maxPages) : IsPage (frameAddr n) := by
  apply isPage_of_toNat
  · rw [toNat_frameAddr h]
    simp [pageSize]
  · rw [toNat_frameAddr h]
    simp only [maxPages, pageSize] at h ⊢
    omega

theorem toNat_hugeOffset (v : Word) : (v &&& 0x1FFFFF#64).toNat = v.toNat % 0x200000 := by
  rw [BitVec.toNat_and]
  exact Nat.and_two_pow_sub_one_eq_mod _ 21

/-- A part of a 2 MB page is where it was in the whole. -/
theorem huge_offset (n : Nat) (v : Word) : BitVec.ofNat 64 (n * 0x200000) + (v &&& 0x1FFFFF#64) =
      frameAddr (n * 512 + (ptIndex v).toNat) + (v &&& 0xFFF#64) := by
  have hidx : (ptIndex v).toNat = v.toNat / 2 ^ 12 % 512 := toNat_low9 v 12
  apply BitVec.eq_of_toNat_eq
  rw [BitVec.toNat_add, BitVec.toNat_add, toNat_hugeOffset, toNat_offset, frameAddr,
    BitVec.toNat_ofNat, BitVec.toNat_ofNat, hidx]
  simp only [pageSize]
  omega

/-- The tables an address space is walked through, by path: `W` gives what the
    walk from the root `r` meets in memory, with 2 MB pages split up one level
    further down. -/
structure Walks (m : Mem) (r : Word) (W : List Index → Table) : Prop where
  root : m (addrOf r) = W []
  step : ∀ {p}, p.length < 2 → ∀ i, has (W p i) ptePresent →
    m (addrOf (W p i)) = W (p ++ [i])
  step_pd : ∀ {p}, p.length = 2 → ∀ i, has (W p i) ptePresent →
    has (W p i) pteHuge = false → m (addrOf (W p i)) = W (p ++ [i])
  huge : ∀ {p}, p.length = 2 → ∀ i, has (W p i) ptePresent → has (W p i) pteHuge →
    W p i = kernelEntry p i ∧ W (p ++ [i]) = splitTable (kernelEntry p i)
  absent : ∀ {p}, p.length < 3 → ∀ i, has (W p i) ptePresent = false →
    ∀ j, has (W (p ++ [i]) j) ptePresent = false
  user : ∀ {p}, p.length < 3 → ∀ i j, presentUser (W (p ++ [i]) j) →
    presentUser (W p i)

/-- What an entry says about the translation of an address. -/
def viewTranslate (e v : Word) : Option (Word × Bool) :=
  if has e ptePresent then some (addrOf e + (v &&& 0xFFF#64), has e pteUser) else none

theorem viewTranslate_absent {e : Word} (h : has e ptePresent = false) (v : Word) :
    viewTranslate e v = none := by
  rw [viewTranslate, h]
  rfl

/-- A part of a 2 MB page of the kernel translates as the whole does. -/
theorem viewTranslate_split {q : List Index} (hq : q.length = 2) (v : Word)
    (hP : has (kernelEntry q (pdIndex v)) ptePresent) :
    viewTranslate (splitTable (kernelEntry q (pdIndex v)) (ptIndex v)) v =
      some (addrOf (kernelEntry q (pdIndex v)) + (v &&& 0x1FFFFF#64), false) := by
  obtain ⟨n, haddr, hn, hpart⟩ := splitTable_kernel hq (pdIndex v) (ptIndex v) hP
  have hlt : n * 512 + (ptIndex v).toNat < maxPages := by
    have := (ptIndex v).isLt
    simp only [maxPages]
    omega
  have hpage := isPage_frameAddr hlt
  rw [viewTranslate, hpart, has_or, has_or, has_page hpage (by decide),
    has_page hpage (by decide), addrOf_page_or hpage (by decide), haddr, huge_offset]
  rw [show has 0x3#64 ptePresent by decide, show has 0x3#64 pteUser = false by decide]
  rfl

/-- At the last level the marks of the levels above add nothing. -/
theorem Walks.user_all {W : List Index → Table} (h : Walks m r W) (v : Word)
    (hP : has (W (pathOf v) (ptIndex v)) ptePresent) :
    (has (W [] (pml4Index v)) pteUser && has (W ([] ++ [pml4Index v]) (pdptIndex v)) pteUser &&
      has (W ([] ++ [pml4Index v] ++ [pdptIndex v]) (pdIndex v)) pteUser &&
      has (W (pathOf v) (ptIndex v)) pteUser) = has (W (pathOf v) (ptIndex v)) pteUser := by
  cases hU : has (W (pathOf v) (ptIndex v)) pteUser with
  | false => rw [Bool.and_false]
  | true =>
    have h1 := presentUser_of_has hP hU
    have h2 := h.user (by simp) _ _ (show presentUser (W ([] ++ [pml4Index v] ++ [pdptIndex v] ++
      [pdIndex v]) (ptIndex v)) from h1)
    have h3 := h.user (by simp) _ _ h2
    have h4 := h.user (by simp) _ _ h3
    rw [(has_of_presentUser h2).2, (has_of_presentUser h3).2, (has_of_presentUser h4).2]
    rfl

/-- **The hardware reads the last table of the walk.** -/
theorem Walks.translate {W : List Index → Table} (h : Walks m r W) (v : Word) :
    translate m r v = viewTranslate (W (pathOf v) (ptIndex v)) v := by
  have hpath : pathOf v = [] ++ [pml4Index v] ++ [pdptIndex v] ++ [pdIndex v] := rfl
  have hl3 : ([] ++ [pml4Index v]).length < 2 := by simp
  have hl2 : ([] ++ [pml4Index v] ++ [pdptIndex v]).length = 2 := by simp
  rw [Paging.translate, h.root, hpath]
  -- an absent entry on the way makes everything below it absent
  cases h4 : has (W [] (pml4Index v)) ptePresent with
  | false =>
    have h3 := h.absent (by decide) _ h4 (pdptIndex v)
    have h2 := h.absent (by omega) _ h3 (pdIndex v)
    exact (viewTranslate_absent (h.absent (by omega) _ h2 _) v).symm
  | true =>
    simp only [Bool.not_true, Bool.false_eq_true, if_false]
    rw [h.step (by decide) _ h4]
    cases h3 : has (W ([] ++ [pml4Index v]) (pdptIndex v)) ptePresent with
    | false =>
      have h2 := h.absent (by omega) _ h3 (pdIndex v)
      exact (viewTranslate_absent (h.absent (by omega) _ h2 _) v).symm
    | true =>
      simp only [Bool.not_true, Bool.false_eq_true, if_false]
      rw [h.step hl3 _ h3]
      cases h2 : has (W ([] ++ [pml4Index v] ++ [pdptIndex v]) (pdIndex v)) ptePresent with
      | false => exact (viewTranslate_absent (h.absent (by omega) _ h2 _) v).symm
      | true =>
        simp only [Bool.not_true, Bool.false_eq_true, if_false]
        cases hH : has (W ([] ++ [pml4Index v] ++ [pdptIndex v]) (pdIndex v)) pteHuge with
        | true =>
          obtain ⟨hker, hsplit⟩ := h.huge hl2 _ h2 hH
          rw [hker] at h2
          rw [hsplit, viewTranslate_split hl2 v h2, hker, (kernelEntry_flags _ _).1]
          simp
        | false =>
          simp only [Bool.false_eq_true, if_false]
          rw [h.step_pd hl2 _ h2 hH, ← hpath, viewTranslate]
          cases hP : has (W (pathOf v) (ptIndex v)) ptePresent with
          | false => rfl
          | true =>
            rw [h.user_all v hP]
            rfl

/-- A space is walked through its view. -/
theorem Wf.walks (h : Wf k sp own) (ha : sp a = some S) :
    Walks k.mem S.root (view k.mem S.root) := by
  have hzero : has 0#64 ptePresent = false := by decide
  have hcases := fun {p : List Index} (hp : p.length < 3) i => h.view_cases ha hp i
  refine ⟨?_, ?_, ?_, ?_, ?_, ?_⟩
  · rw [show addrOf S.root = S.root from (h.root_frame ha).isPage]
    rfl
  · intro p hp i hP
    rcases hcases (by omega : p.length < 3) i with ⟨he, hnone⟩ | ⟨c, hc, hchild, -⟩
    · rw [he] at hP ⊢
      rw [view_of_none hnone]
      rcases kernelEntry_step hp i with ⟨h0, -⟩ | ⟨-, -, hmem, hboot⟩
      · rw [h0, hzero] at hP
        cases hP
      · exact (h.booted.tables _ hmem).trans hboot
    · rw [(child_eq_some hchild).2.2.2, view_of_some hc]
  · intro p hp i hP hH
    rcases hcases (by omega : p.length < 3) i with ⟨he, -⟩ | ⟨c, hc, hchild, -⟩
    · rw [he] at hP hH
      rcases kernelEntry_huge hp i with ⟨h0, -⟩ | ⟨-, hH', -⟩
      · rw [h0, hzero] at hP
        cases hP
      · cases hH.symm.trans hH'
    · rw [(child_eq_some hchild).2.2.2, view_of_some hc]
  · intro p hp i hP hH
    rcases hcases (by omega : p.length < 3) i with ⟨he, hnone⟩ | ⟨c, hc, hchild, -⟩
    · rw [view_of_none hnone]
      rcases kernelEntry_huge hp i with ⟨h0, -⟩ | ⟨-, -, hsplit⟩
      · rw [he, h0, hzero] at hP
        cases hP
      · exact ⟨he, hsplit⟩
    · rw [(child_eq_some hchild).2.2.1] at hH
      cases hH
  · intro p hp i hP j
    rcases hcases hp i with ⟨he, hnone⟩ | ⟨c, hc, hchild, -⟩
    · rw [he] at hP
      rw [view_of_none hnone, kernelEntry_absent hp hP]
      exact hzero
    · rw [(child_eq_some hchild).1] at hP
      cases hP
  · intro p hp i j hu
    rcases hcases hp i with ⟨-, hnone⟩ | ⟨-, -, -, hopen⟩
    · rw [view_absent hnone] at hu
      cases hu
    · exact hopen

/-- So is the kernel's, through its own tables. -/
theorem Booted.walks (h : Booted k) : Walks k.mem k.kernelPml4 kernelEntry := by
  have hzero : has 0#64 ptePresent = false := by decide
  refine ⟨?_, ?_, ?_, ?_, ?_, ?_⟩
  · rw [h.root, show addrOf 0x1000#64 = 0x1000#64 by decide]
    exact h.tables _ (by decide)
  · intro p hp i hP
    rcases kernelEntry_step hp i with ⟨h0, -⟩ | ⟨-, -, hmem, hboot⟩
    · rw [h0, hzero] at hP
      cases hP
    · exact (h.tables _ hmem).trans hboot
  · intro p hp i hP hH
    rcases kernelEntry_huge hp i with ⟨h0, -⟩ | ⟨-, hH', -⟩
    · rw [h0, hzero] at hP
      cases hP
    · cases hH.symm.trans hH'
  · intro p hp i hP hH
    rcases kernelEntry_huge hp i with ⟨h0, -⟩ | ⟨-, -, hsplit⟩
    · rw [h0, hzero] at hP
      cases hP
    · exact ⟨rfl, hsplit⟩
  · intro p hp i hP j
    rw [kernelEntry_absent hp hP]
    exact hzero
  · intro p hp i j hu
    rw [presentUser_kernelEntry] at hu
    cases hu

/-- **The translation of an address in a space.** -/
theorem translate_view (h : Wf k sp own) (ha : sp a = some S) (v : Word) :
    translate k.mem S.root v =
      viewTranslate (view k.mem S.root (pathOf v) (ptIndex v)) v := (h.walks ha).translate v

/-- **The kernel's translation depends on its four tables only.** -/
theorem Booted.translate_eq (h : Booted k) (v : Word) :
    translate k.mem k.kernelPml4 v = viewTranslate (kernelEntry (pathOf v) (ptIndex v)) v :=
  h.walks.translate v

end AddressSpace
