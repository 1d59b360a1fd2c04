import AoOs.ElfReads
import AoOs.Kmalloc

/-! # The kernel under a process's page tables

    Interrupt handlers and page-table walks of the kernel run on the page tables of
    whatever process is current, and reach the kernel's image, its heap and the
    process's own tables at their physical addresses.  A page that a loader maps at
    one of these addresses hides it.  AOB programs always hide a part of the heap
    or the image; ELF programs do or do not, depending on their segments and on the
    frames that happen to be free (`kernelVisible_iff`). -/

namespace KernelVisible

open Paging Vmm Process ProcessMemory AddressSpace Isolation Loader FramePlan
open Kmalloc (heapSize)

variable {v t : Word} {f : Image} {p : UProc} {cmdline : List Byte} {codeSize : BitVec 32}

variable {k k' : KState} {sp : Nat → Option Space} {own : Word → Option (Owner Nat)} {a : Nat}
  {S : Space} {P : Plan}

/-! ## The identity mapping -/

/-- The place of an address in the first 2 GB. -/
theorem index_low (hv : v.toNat < 2 ^ 31) : pml4Index v = 0#9 ∧ (pdptIndex v).toNat < 2 ∧
      ((pdptIndex v).toNat * 512 + (pdIndex v).toNat) * 512 + (ptIndex v).toNat =
        v.toNat / 4096 := by
  have h4 : (pml4Index v).toNat = v.toNat / 2 ^ 39 % 512 := toNat_low9 v 39
  have h3 : (pdptIndex v).toNat = v.toNat / 2 ^ 30 % 512 := toNat_low9 v 30
  have h2 : (pdIndex v).toNat = v.toNat / 2 ^ 21 % 512 := toNat_low9 v 21
  have h1 : (ptIndex v).toNat = v.toNat / 2 ^ 12 % 512 := toNat_low9 v 12
  refine ⟨BitVec.eq_of_toNat_eq ?_, ?_, ?_⟩
  · rw [h4]
    simp only [BitVec.toNat_ofNat]
    omega
  · omega
  · omega

theorem kernelPd_present {b : Index} (hb : b.toNat < 2) (c : Index) :
    has (kernelPd 0#9 b c) ptePresent := by
  obtain ⟨⟨-, h0⟩, -, h1⟩ := bootMem_pd c
  rcases (by omega : b.toNat = 0 ∨ b.toNat = 1) with hb | hb
  · obtain rfl : b = 0#9 := BitVec.eq_of_toNat_eq hb
    rw [kernelPd, if_pos ⟨rfl, rfl⟩, has_of_flags (by decide) h0]
    decide
  · obtain rfl : b = 1#9 := BitVec.eq_of_toNat_eq hb
    rw [kernelPd, if_neg (by decide), if_pos ⟨rfl, rfl⟩, has_of_flags (by decide) h1]
    decide

/-- The kernel's page of a low address. -/
theorem kernelEntry_low {b : Index} (hb : b.toNat < 2) (c j : Index) :
    kernelEntry [0#9, b, c] j =
      frameAddr ((b.toNat * 512 + c.toNat) * 512 + j.toNat) ||| 0x3#64 := by
  rcases kernelEntry_pt 0#9 b c j with h0 | ⟨n, -, -, rfl, h⟩
  · have hP := kernelPd_present hb c
    obtain ⟨n, -, -, hs⟩ := splitTable_kernel (q := [0#9, b]) rfl c j hP
    have hentry : kernelEntry [0#9, b, c] j = frameAddr (n * 512 + j.toNat) ||| 0x3#64 :=
      (if_pos hP).trans hs
    have hpresent : has (frameAddr (n * 512 + j.toNat) ||| 0x3#64) ptePresent := by
      rw [has_or, show has 0x3#64 ptePresent by decide, Bool.or_true]
    rw [← hentry, h0] at hpresent
    cases hpresent
  · exact h

/-- **The kernel maps the first 2 GB to themselves.** -/
theorem viewTranslate_low (hv : v.toNat < 2 ^ 31) :
    viewTranslate (kernelEntry (pathOf v) (ptIndex v)) v = some (v, false) := by
  obtain ⟨h4, h3, hn⟩ := index_low hv
  have hlt : v.toNat / 4096 < maxPages := by
    simp only [maxPages]
    omega
  rw [pathOf, h4, kernelEntry_low h3, hn, viewTranslate]
  have hpage := isPage_frameAddr hlt
  rw [has_or, show has 0x3#64 ptePresent by decide, Bool.or_true, if_pos rfl,
    addrOf_page_or hpage (by decide), has_or, has_page hpage (by decide),
    show has 0x3#64 pteUser = false by decide, Bool.or_self]
  congr 2
  apply BitVec.eq_of_toNat_eq
  rw [BitVec.toNat_add, toNat_frameAddr hlt, toNat_offset]
  simp only [pageSize]
  omega

/-- Of the first 4 GB it maps nothing else. -/
theorem low_of_viewTranslate {x : Word × Bool} (hv : v.toNat < 2 ^ 32)
    (h : viewTranslate (kernelEntry (pathOf v) (ptIndex v)) v = some x) : v.toNat < 2 ^ 31 := by
  have h3 : (pdptIndex v).toNat = v.toNat / 2 ^ 30 % 512 := toNat_low9 v 30
  rcases kernelEntry_pt (pml4Index v) (pdptIndex v) (pdIndex v) (ptIndex v) with
    h0 | ⟨n, -, hb, -, -⟩
  · rw [pathOf, h0] at h
    cases h
  · omega

/-! ## The tables of a planned space -/

/-- The tables the hardware goes through: those planned, and the kernel's second
    page directory where the space has no own. -/
def Walked (P : Plan) (t : Word) : Prop :=
  (∃ q, q.length ≤ 3 ∧ P.tables q = some t) ∨ (t = 0x4000#64 ∧ P.tables [0#9, 1#9] = none)

/-- An address with a given path. -/
def pathAddr (i4 i3 i2 : Index) : Word :=
  BitVec.ofNat 64 (i4.toNat * 2 ^ 39 + i3.toNat * 2 ^ 30 + i2.toNat * 2 ^ 21)

theorem pathOf_pathAddr (i4 i3 i2 : Index) : pathOf (pathAddr i4 i3 i2) = [i4, i3, i2] := by
  have h4 := toNat_low9 (pathAddr i4 i3 i2) 39
  have h3 := toNat_low9 (pathAddr i4 i3 i2) 30
  have h2 := toNat_low9 (pathAddr i4 i3 i2) 21
  have l4 := i4.isLt
  have l3 := i3.isLt
  have l2 := i2.isLt
  have hv : (pathAddr i4 i3 i2).toNat =
      i4.toNat * 2 ^ 39 + i3.toNat * 2 ^ 30 + i2.toNat * 2 ^ 21 := by
    rw [pathAddr, BitVec.toNat_ofNat]
    omega
  rw [hv] at h4 h3 h2
  have e4 : pml4Index (pathAddr i4 i3 i2) = i4 := BitVec.eq_of_toNat_eq (h4.trans (by omega))
  have e3 : pdptIndex (pathAddr i4 i3 i2) = i3 := BitVec.eq_of_toNat_eq (h3.trans (by omega))
  have e2 : pdIndex (pathAddr i4 i3 i2) = i2 := BitVec.eq_of_toNat_eq (h2.trans (by omega))
  rw [pathOf, e4, e3, e2]

/-- Where the kernel's own entry is met: at the root only in slot 0, below it only
    in slots 0 and 1. -/
theorem kernelEntry_pointer {p : List Index} {i : Index} (hp : p.length < 2)
    (hP : has (kernelEntry p i) ptePresent) : (p = [] ∧ i = 0#9) ∨ (p = [0#9] ∧ i = 0#9) ∨
      (p = [0#9] ∧ i = 1#9 ∧ addrOf (kernelEntry p i) = 0x4000#64) := by
  match p with
  | [] =>
    by_cases hi : i = 0#9
    · exact .inl ⟨rfl, hi⟩
    · rw [show kernelEntry [] i = 0#64 from if_neg hi] at hP
      cases hP
  | [x] =>
    by_cases hx : x = 0#9
    · subst hx
      by_cases hi : i = 0#9
      · exact .inr (.inl ⟨rfl, hi⟩)
      · by_cases hi1 : i = 1#9
        · subst hi1
          exact .inr (.inr ⟨rfl, rfl, by decide⟩)
        · rw [show kernelEntry [0#9] i = 0#64 from (if_neg hi).trans (if_neg hi1)] at hP
          cases hP
    · rw [show kernelEntry [x] i = 0#64 from if_neg hx] at hP
      cases hP

section Follows

variable (hF : Follows k S P)

include hF

/-- The tables above a user page are private. -/
theorem tables_above (hv : keyOf v ∈ P.keys) :
    tableAt k.mem S.root [pml4Index v] ≠ none ∧
      tableAt k.mem S.root [pml4Index v, pdptIndex v] ≠ none := by
  have hopen := (hF.keys (pathOf v) (ptIndex v) rfl).mpr hv
  have hpath : tableAt k.mem S.root ([pml4Index v, pdptIndex v] ++ [pdIndex v]) ≠ none := by
    intro hnone
    rw [view_absent (p := pathOf v) hnone] at hopen
    cases hopen
  have hpdpt : tableAt k.mem S.root ([pml4Index v] ++ [pdptIndex v]) ≠ none :=
    fun hnone => hpath (tableAt_none_snoc hnone)
  exact ⟨fun hnone => hpdpt (tableAt_none_snoc hnone), hpdpt⟩

/-- The hardware goes through planned tables only. -/
theorem walked_of_mem (hwf : Wf k sp own) (ha : sp a = some S)
    (hstack : keyOf userStackBase ∈ P.keys) {w : Word} (ht : t ∈ walkTables k.mem S.root w) :
    Walked P t := by
  rcases walkTables_cases hwf ha w ht with ⟨q, hq, htab⟩ | ⟨p, i, hp, hnone, hP, rfl⟩
  · exact .inl ⟨q, hq, (hF.tables q hq).symm.trans htab⟩
  · -- the tables of the stack stand where the kernel's first pointers would be met
    obtain ⟨habove4, habove3⟩ := tables_above hF hstack
    rcases kernelEntry_pointer hp hP with ⟨rfl, rfl⟩ | ⟨rfl, rfl⟩ | ⟨rfl, rfl, haddr⟩
    · exact absurd hnone habove4
    · exact absurd hnone habove3
    · exact .inr ⟨haddr, (hF.tables _ (by simp)).symm.trans hnone⟩

omit hF in
/-- A private table is met on the way to the addresses below it. -/
theorem mem_walkTables_of_tableAt {m : Mem} {r : Word} (hr : addrOf r = r) {q : List Index}
    (hq : q.length ≤ 3) (h : tableAt m r q = some t) : ∃ w, t ∈ walkTables m r w := by
  -- each pointer on the path is present and not a 2 MB page
  have hnext : ∀ {u : Word} {i : Index} {q : List Index},
      tableAt m u (i :: q) = some t → ∃ c, tableAt m c q = some t ∧
        has (m u i) ptePresent ∧ has (m u i) pteHuge = false ∧ addrOf (m u i) = c := by
    intro u i q hu
    obtain ⟨c, hc, hrest⟩ := Option.bind_eq_some_iff.mp hu
    obtain ⟨hP, -, hH, haddr⟩ := child_eq_some hc
    exact ⟨c, hrest, hP, hH, haddr⟩
  have hindex : ∀ i4 i3 i2, pml4Index (pathAddr i4 i3 i2) = i4 ∧
      pdptIndex (pathAddr i4 i3 i2) = i3 ∧ pdIndex (pathAddr i4 i3 i2) = i2 := by
    intro i4 i3 i2
    have hpath := pathOf_pathAddr i4 i3 i2
    simpa [pathOf] using hpath
  rcases q with _ | ⟨i4, _ | ⟨i3, _ | ⟨i2, _ | ⟨i1, q⟩⟩⟩⟩
  · refine ⟨0#64, ?_⟩
    rw [walkTables, hr, Option.some.inj h]
    exact List.mem_cons_self
  · obtain ⟨c, hc, hP4, -, h4⟩ := hnext h
    cases hc
    refine ⟨pathAddr i4 0 0, ?_⟩
    simp only [walkTables, hr, hindex, hP4, h4]
    simp
  · obtain ⟨c4, hc4, hP4, -, h4⟩ := hnext h
    obtain ⟨c3, hc3, hP3, -, h3⟩ := hnext hc4
    cases hc3
    refine ⟨pathAddr i4 i3 0, ?_⟩
    simp only [walkTables, hr, hindex, hP4, h4, hP3, h3]
    simp
  · obtain ⟨c4, hc4, hP4, -, h4⟩ := hnext h
    obtain ⟨c3, hc3, hP3, -, h3⟩ := hnext hc4
    obtain ⟨c2, hc2, hP2, hH2, h2⟩ := hnext hc3
    cases hc2
    refine ⟨pathAddr i4 i3 i2, ?_⟩
    simp only [walkTables, hr, hindex, hP4, h4, hP3, h3, hP2, hH2, h2]
    simp
  · exact absurd hq (by simp)

/-- Every planned table is met. -/
theorem mem_of_walked (hwf : Wf k sp own) (ha : sp a = some S)
    (hstack : keyOf userStackBase ∈ P.keys) (ht : Walked P t) :
    ∃ w, t ∈ walkTables k.mem S.root w := by
  have hr : addrOf S.root = S.root := (hwf.root_frame ha).isPage
  rcases ht with ⟨q, hq, htab⟩ | ⟨rfl, hnone⟩
  · exact mem_walkTables_of_tableAt hr hq ((hF.tables q hq).trans htab)
  · obtain ⟨c, hc⟩ := Option.ne_none_iff_exists'.mp (tables_above hF hstack).1
    have hc : tableAt k.mem S.root [0#9] = some c := hc
    obtain ⟨c', hc', htail⟩ := Option.bind_eq_some_iff.mp hc
    obtain rfl := Option.some.inj htail
    obtain ⟨hP4, -, -, h4⟩ := child_eq_some hc'
    -- the second entry of the private table is still the kernel's
    have hentry : k.mem c' 1#9 = kernelEntry [0#9] 1#9 := by
      have hchild : child (k.mem c' 1#9) = none := by
        rw [← tableAt_snoc (i := 1#9) hc]
        exact (hF.tables _ (by simp)).trans hnone
      exact (hwf.upper ha (by simp) hc 1#9).resolve_right fun hu => hu.1 hchild
    have hindex : pml4Index 0x40000000#64 = 0#9 ∧ pdptIndex 0x40000000#64 = 1#9 := by decide
    refine ⟨0x40000000#64, ?_⟩
    simp only [walkTables, hr, hindex, hP4, h4, hentry,
      show kernelEntry [0#9] 1#9 = 0x4003#64 by decide, show has 0x4003#64 ptePresent by decide,
      show addrOf 0x4003#64 = 0x4000#64 by decide]
    simp

/-! ## Where the kernel lies -/

/-- `_kernel_start`. -/
def kernelStart : Word := 0x100000#64

/-- What the linker makes of the kernel: its end is page-aligned, behind its start,
    and image and heap lie in the memory the boot loader maps. -/
structure Layout where
  kernelEnd : Word
  aligned : kernelEnd.toNat % 4096 = 0
  notEmpty : kernelStart.toNat < kernelEnd.toNat
  mapped : kernelEnd.toNat + heapSize ≤ 2 ^ 31

/-- `heap_base`, as `memory_init` computes it. -/
def Layout.heapBase (L : Layout) : Word := (L.kernelEnd + 0xFFF#64) &&& ~~~0xFFF#64

/-- An address of the kernel's image or of its heap. -/
def Layout.InKernel (L : Layout) (v : Word) : Prop :=
  (kernelStart.toNat ≤ v.toNat ∧ v.toNat < L.kernelEnd.toNat) ∨
    (L.heapBase.toNat ≤ v.toNat ∧ v.toNat < L.heapBase.toNat + heapSize)

omit hF in
theorem Layout.heapBase_eq (L : Layout) : L.heapBase.toNat = L.kernelEnd.toNat := by
  have h := toNat_pageOf (L.kernelEnd + 0xFFF#64)
  have hmapped := L.mapped
  have haligned := L.aligned
  rw [show L.heapBase = pageOf (L.kernelEnd + 0xFFF#64) from rfl, h, BitVec.toNat_add,
    BitVec.toNat_ofNat]
  omega

omit hF in
theorem Layout.InKernel.low {L : Layout} (h : L.InKernel v) : v.toNat < 2 ^ 31 := by
  have hmapped := L.mapped
  rw [Layout.InKernel, L.heapBase_eq] at h
  omega

/-- In slot `i` the kernel's image and heap and all tables the hardware uses for
    the process are where they are for the kernel: at their own addresses, and not
    open to user mode. -/
def Visible (L : Layout) (s : PSys) (i : Nat) : Prop :=
  ∀ v, (L.InKernel v ∨ ∃ w, pageOf v ∈ walkTables s.k.mem (s.procs i).cr3 w) →
    translate s.k.mem (s.procs i).cr3 v = some (v, false) ∧
      translate s.k.mem s.k.kernelPml4 v = some (v, false)

/-- None of the pages is at an address of the kernel's image or heap, or of a table
    that is planned; and the tables are planned in the memory that is mapped. -/
def Clear (L : Layout) (pages : List Word) (P : Plan) : Prop :=
  (∀ v, L.InKernel v → ∀ u ∈ pages, keyOf u ≠ keyOf v) ∧
    ∀ t, Walked P t → t.toNat < 2 ^ 31 ∧ ∀ u ∈ pages, keyOf u ≠ keyOf t

/-- What is not planned as a user page is as in the kernel's address space. -/
theorem translate_unplanned (h : Good k sp) (ha : sp a = some S) (hv : keyOf v ∉ P.keys) :
    translate k.mem S.root v = viewTranslate (kernelEntry (pathOf v) (ptIndex v)) v := by
  obtain ⟨own, hwf, hleaves⟩ := h
  rw [translate_view hwf ha v]
  rcases hleaves a S ha (pathOf v) (ptIndex v) rfl with hker | ⟨hopen, -⟩
  · rw [hker]
  · exact absurd ((hF.keys _ _ rfl).mp hopen) hv

/-- A user page is open to user mode. -/
theorem planned_not_visible (h : Good k sp) (ha : sp a = some S) (hv : keyOf v ∈ P.keys) :
    translate k.mem S.root v ≠ some (v, false) := by
  obtain ⟨own, hwf, -⟩ := h
  obtain ⟨hP, hU⟩ := has_of_presentUser ((hF.keys (pathOf v) (ptIndex v) rfl).mpr hv)
  rw [translate_view hwf ha v, viewTranslate, if_pos hP, hU]
  intro heq
  cases (Prod.mk.inj (Option.some.inj heq)).2

/-- A planned table is a frame, or the kernel's second page directory. -/
theorem walked_page (hwf : Wf k sp own) (ha : sp a = some S) (ht : Walked P t) :
    pageOf t = t ∧ t.toNat < 2 ^ 32 := by
  rcases ht with ⟨q, hq, htab⟩ | ⟨rfl, -⟩
  · have hframe := (hwf.frame (hwf.table_own ha hq ((hF.tables q hq).trans htab))).1
    obtain ⟨-, hlt, hmod⟩ := hframe.bounds
    refine ⟨BitVec.eq_of_toNat_eq ?_, hlt⟩
    rw [toNat_pageOf, hmod]
    rfl
  · exact ⟨by decide, by decide⟩

end Follows

variable {L : Layout} {pages : List Word} {s : PSys} {i : Nat}

/-- **A planned space hides nothing of the kernel exactly when the plan is
    clear.** -/
theorem visible_iff_clear (h : Good s.k sp) (ha : sp a = some S) (hroot : (s.procs i).cr3 = S.root)
    (hF : Follows s.k S P) (hkeys : ∀ q, q ∈ P.keys ↔ ∃ v ∈ pages, q = keyOf v)
    (hstack : keyOf userStackBase ∈ P.keys) : Visible L s i ↔ Clear L pages P := by
  obtain ⟨own, hwf, -⟩ := id h
  have hplanned : ∀ {v : Word}, (∀ u ∈ pages, keyOf u ≠ keyOf v) ↔ keyOf v ∉ P.keys := by
    intro v
    rw [hkeys]
    exact ⟨fun hne ⟨u, hu, heq⟩ => hne u hu heq.symm, fun hne u hu heq => hne ⟨u, hu, heq.symm⟩⟩
  have hsame : ∀ {v : Word}, v.toNat < 2 ^ 31 → keyOf v ∉ P.keys →
      translate s.k.mem S.root v = some (v, false) ∧
        translate s.k.mem s.k.kernelPml4 v = some (v, false) := by
    intro v hlow hv
    rw [translate_unplanned hF h ha hv, hwf.booted.translate_eq, viewTranslate_low hlow]
    exact ⟨rfl, rfl⟩
  rw [Visible, hroot]
  constructor
  · intro hvis
    have hnot : ∀ {v : Word}, translate s.k.mem S.root v = some (v, false) → keyOf v ∉ P.keys :=
      fun htr hv => planned_not_visible hF h ha hv htr
    refine ⟨fun v hv => hplanned.mpr (hnot (hvis v (.inl hv)).1), fun t ht => ?_⟩
    obtain ⟨hpage, hlt⟩ := walked_page hF hwf ha ht
    obtain ⟨w, hw⟩ := mem_of_walked hF hwf ha hstack ht
    have htr := (hvis t (.inr ⟨w, by rwa [hpage]⟩)).1
    have hkey := hnot htr
    rw [translate_unplanned hF h ha hkey] at htr
    exact ⟨low_of_viewTranslate hlt htr, hplanned.mpr hkey⟩
  · rintro ⟨hkernel, htables⟩ v (hv | ⟨w, hw⟩)
    · exact hsame hv.low (hplanned.mp (hkernel v hv))
    · have ht := walked_of_mem hF hwf ha hstack hw
      obtain ⟨hlow, hne⟩ := htables _ ht
      have hkey := hplanned.mp hne
      rw [keyOf_pageOf] at hkey
      refine hsame ?_ hkey
      rw [toNat_pageOf] at hlow
      omega

/-! ## The loaders -/

/-- The pages a program header asks for. -/
def headerPages (f : Image) (n : Nat) : List Word :=
  if (phdr f n).type = ptLoad then segmentPages (phdr f n) else []

/-- The pages of a process that runs an ELF file. -/
def elfPages (f : Image) : List Word :=
  fixedPages ++ (List.range (phnum f).toNat).flatMap (headerPages f)

/-- The plan of a process that runs an ELF file, from the state before. -/
def elfPlan (f : Image) (s : PSys) : Option Plan :=
  (planCreate s).bind fun r => planSegments f (List.range (phnum f).toNat) r.2

theorem planSegments_keys {is : List Nat} {P P' : Plan} (h : planSegments f is P = some P')
    (q : List Index) :
    q ∈ P'.keys ↔ (∃ v ∈ is.flatMap (headerPages f), q = keyOf v) ∨ q ∈ P.keys := by
  induction is generalizing P with
  | nil =>
    cases h
    simp
  | cons n is ih =>
    rw [planSegments] at h
    rw [List.flatMap_cons, headerPages]
    split at h
    · rename_i hne
      rw [if_neg hne, List.nil_append]
      exact ih h
    · rename_i hload
      split at h
      · cases h
      · obtain ⟨P₁, h₁, hrest⟩ := Option.bind_eq_some_iff.mp h
        rw [if_pos (not_not.mp hload), ih hrest, mapPages_keys h₁]
        simp only [List.mem_append, or_and_right, exists_or]
        rw [or_left_comm, or_assoc]

theorem planCreate_keys {P : Plan} (h : planCreate s = some (i, P)) (q : List Index) :
    q ∈ P.keys ↔ ∃ v ∈ fixedPages, q = keyOf v := by
  obtain ⟨j, -, hplan⟩ := Option.bind_eq_some_iff.mp h
  obtain ⟨P', hplan', heq⟩ := Option.map_eq_some_iff.mp hplan
  cases heq
  obtain ⟨P₀, h₀, hmap⟩ := Option.bind_eq_some_iff.mp hplan'
  rw [mapPages_keys hmap]
  cases hfree : freeFrames s.k with
  | nil =>
    rw [hfree] at h₀
    cases h₀
  | cons f fs =>
    rw [hfree] at h₀
    cases h₀
    simp

/-- The addresses of a page have one place. -/
theorem keyOf_add {u : Word} (hu : u.toNat % 4096 = 0) {j : Nat} (hj : j < 4096) :
    keyOf (u + BitVec.ofNat 64 j) = keyOf u := by
  rw [← keyOf_pageOf]
  congr 1
  apply BitVec.eq_of_toNat_eq
  rw [toNat_pageOf, BitVec.toNat_add, BitVec.toNat_ofNat]
  omega

theorem setProc_cr3 {n : Nat} (hp : p.cr3 = (s.procs n).cr3) (j : Nat) :
    ((s.setProc n p).procs j).cr3 = (s.procs j).cr3 := by
  show (upd s.procs n p j).cr3 = _
  by_cases hj : j = n
  · rw [hj, upd_same, hp]
  · rw [upd_other _ _ hj]

theorem processActivate_spec (s : PSys) (pid : Word) : (processActivate s pid).k = s.k ∧
      ∀ j, ((processActivate s pid).procs j).cr3 = (s.procs j).cr3 := by
  rw [processActivate]
  split
  · split
    · exact ⟨rfl, setProc_cr3 rfl⟩
    · exact ⟨rfl, fun _ => rfl⟩
  · exact ⟨rfl, fun _ => rfl⟩

theorem processDetach_spec (s : PSys) (pid : Word) : (processDetach s pid).k = s.k ∧
      ∀ j, ((processDetach s pid).procs j).cr3 = (s.procs j).cr3 := by
  rw [processDetach]
  split
  · split
    · exact ⟨rfl, setProc_cr3 rfl⟩
    · exact ⟨rfl, fun _ => rfl⟩
  · exact ⟨rfl, fun _ => rfl⟩

/-- What the end of a load does to the system. -/
theorem finishSpawn_end {api : List Word} {k₁ : KState} (background : Bool) (s : PSys)
    (hcr3 : p.cr3 ≠ 0#64)
    (hw₁ : writeLoop p.cr3 (apiBytes api) 64 userApiBase 0 64#64 k = (true, k₁))
    (hw₂ : writeLoop p.cr3 (argBytes (argsLoop (cmdline.length + 1) cmdline ⟨0, [], []⟩)) pageSize
      userArgvBase 0 (BitVec.ofNat 64 pageSize) k₁ = (true, k')) :
    (finishSpawn api cmdline background i p k s).k = k' ∧
      ((finishSpawn api cmdline background i p k s).procs i).cr3 = p.cr3 := by
  obtain ⟨hak, hacr3⟩ := processActivate_spec ({ s with k := k' }.setProc i p) p.pid
  have hslot : (({ s with k := k' }.setProc i p).procs i).cr3 = p.cr3 := by
    show (upd s.procs i p i).cr3 = _
    rw [upd_same]
  have hk : (processSetupUserArgs p cmdline
      (processWriteUser p userApiBase (apiBytes api) 64#64 k).2).2 = k' := by
    rw [processSetupUserArgs, processWriteUser, if_neg hcr3, processWriteUser, if_neg hcr3]
    exact (congrArg (fun r => (writeLoop _ _ _ _ _ _ r.2).2) hw₁).trans (congrArg Prod.snd hw₂)
  rw [finishSpawn]
  simp only [hk]
  split
  · obtain ⟨hdk, hdcr3⟩ := processDetach_spec
      (processActivate ({ s with k := k' }.setProc i p) p.pid) p.pid
    exact ⟨hdk.trans hak, (hdcr3 i).trans ((hacr3 i).trans hslot)⟩
  · exact ⟨hak, (hacr3 i).trans hslot⟩

/-- The end of a load leaves the space as planned. -/
theorem finishSpawn_follows (api : List Word) (cmdline : List Byte) (background : Bool) (s : PSys)
    (h : Good k sp) (ha : sp i = some ⟨p.cr3, p.pages⟩) (hF : Follows k ⟨p.cr3, p.pages⟩ P)
    (hfixed : ∀ v ∈ fixedPages, keyOf v ∈ P.keys) :
    Good (finishSpawn api cmdline background i p k s).k sp ∧
      Follows (finishSpawn api cmdline background i p k s).k ⟨p.cr3, p.pages⟩ P ∧
      ((finishSpawn api cmdline background i p k s).procs i).cr3 = p.cr3 := by
  have hcr3 : p.cr3 ≠ 0#64 := by
    obtain ⟨own, hwf, -⟩ := h
    exact (hwf.root_frame ha).ne_zero
  obtain ⟨k₁, hw₁, hgood₁, hF₁⟩ := hF.writeLoop h ha (apiBytes api) userApiBase 64#64
    fun j hj => by
      rw [keyOf_add (by decide) (Nat.lt_trans hj (by decide))]
      exact hfixed _ (by decide)
  obtain ⟨k₂, hw₂, hgood₂, hF₂⟩ := hF₁.writeLoop hgood₁ ha
    (argBytes (argsLoop (cmdline.length + 1) cmdline ⟨0, [], []⟩)) userArgvBase
    (BitVec.ofNat 64 pageSize) fun j hj => by
      rw [keyOf_add (by decide) hj]
      exact hfixed _ (by decide)
  obtain ⟨hk, hroot⟩ := finishSpawn_end (i := i) background s hcr3 hw₁ hw₂
  rw [hk]
  exact ⟨hgood₂, hF₂, hroot⟩

theorem stack_fixed : userStackBase ∈ fixedPages := by decide

/-- A space that follows a plan with the fixed pages is what a load leaves. -/
structure Spawned (P : Plan) (s : PSys) (i : Nat) : Prop where
  follows : ∃ sp S, Good s.k sp ∧ sp i = some S ∧ (s.procs i).cr3 = S.root ∧ Follows s.k S P
  fixed : ∀ v ∈ fixedPages, keyOf v ∈ P.keys

theorem Spawned.visible_iff (h : Spawned P s i)
    (hkeys : ∀ q, q ∈ P.keys ↔ ∃ v ∈ pages, q = keyOf v) :
    Visible L s i ↔ Clear L pages P := by
  obtain ⟨sp, S, hgood, ha, hroot, hF⟩ := h.follows
  exact visible_iff_clear hgood ha hroot hF hkeys (h.fixed _ stack_fixed)

/-- **An accepted ELF file follows its plan.** -/
theorem elfSpawn_spawned {background : Bool} {reads : List Access} {s' : PSys} (h : Inv s)
    (hspawn : elfSpawn f cmdline background s = some (.ok i, reads, s')) :
    ∃ P, elfPlan f s = some P ∧ (∀ q, q ∈ P.keys ↔ ∃ v ∈ elfPages f, q = keyOf v) ∧
      Spawned P s' i := by
  rw [elfSpawn] at hspawn
  split at hspawn
  · cases hspawn
  obtain ⟨r, s₁, hcreate, -, hres⟩ := processCreate_follows h
  simp only [hcreate, Option.bind_some] at hspawn
  rcases hres with ⟨rfl, -⟩ | ⟨j, P₀, rfl, hplan, hlive, huser, hF⟩
  · cases hspawn
  have hinv : Inv s₁ := h.create hcreate
  obtain ⟨l, hl, hkeeps, -, hcases⟩ := loadLoop_follows f s₁.nx (List.range (phnum f).toNat) hF
    hinv (spaces_live hlive) huser
  simp only [hl, Option.map_some] at hspawn
  rcases hcases with ⟨herr, -⟩ | ⟨P, herr, hsegs, hF'⟩
  · obtain ⟨e, he⟩ := Option.isSome_iff_exists.mp herr
    rw [he] at hspawn
    cases hspawn
  rw [herr] at hspawn
  obtain ⟨hj, hrest⟩ := Prod.mk.inj (Option.some.inj hspawn)
  obtain ⟨-, rfl⟩ := Prod.mk.inj hrest
  obtain rfl : j = i := Except.ok.inj hj
  have hkeys : ∀ q, q ∈ P.keys ↔ ∃ v ∈ elfPages f, q = keyOf v := by
    intro q
    rw [planSegments_keys hsegs, planCreate_keys hplan, elfPages]
    simp only [List.mem_append, or_and_right, exists_or]
    exact or_comm
  have hfixed : ∀ v ∈ fixedPages, keyOf v ∈ P.keys := fun v hv =>
    (hkeys _).mpr ⟨v, List.mem_append_left _ hv, rfl⟩
  obtain ⟨hgood, hfol, hcr3⟩ := finishSpawn_follows [0x414F4150#64] cmdline background s₁
    hkeeps.good (Function.update_self ..) hF' hfixed
  refine ⟨P, ?_, hkeys, ⟨_, _, hgood, Function.update_self .., hcr3, hfol⟩, hfixed⟩
  rw [elfPlan, hplan]
  exact hsegs

/-! ## AOB files -/

/-- The size of `aob_buffer`. -/
def aobBufferSize : Nat := 16384

/-- What `aob_load` leaves in the context. -/
theorem aobLoad_ok {ctx : AobContext} (hsize : f.size.toNat ≤ aobBufferSize)
    (h : aobLoad f = .ok ctx) : 0 < ctx.codeSize.toNat ∧ ctx.codeSize.toNat ≤ aobBufferSize := by
  rw [aobLoad] at h
  split_ifs at h with _ _ _ hcode hfit
  obtain rfl := Except.ok.inj h
  have hpos : (f.u32 12#64).toNat ≠ 0 := fun h0 => hcode (BitVec.eq_of_toNat_eq h0)
  have hle : (f.u32 12#64).toNat ≤ aobBufferSize := by omega
  exact ⟨Nat.pos_of_ne_zero hpos, hle⟩

/-- The pages of an AOB program: from 2 MB on, as many as its code takes. -/
theorem mem_aobPages (hsize : codeSize.toNat ≤ aobBufferSize) :
    v ∈ aobPages codeSize ↔ ∃ j, j < 1 + (codeSize.toNat - 1) / 4096 ∧
      v = userCodeBase + BitVec.ofNat 64 (j * pageSize) := by
  have hnum : (codeSize + 4095#32).toNat = codeSize.toNat + 4095 := by
    rw [BitVec.toNat_add, BitVec.toNat_ofNat]
    simp only [aobBufferSize] at hsize
    omega
  have hcount : (if (codeSize + 4095#32).toNat / pageSize = 0 then 1
      else (codeSize + 4095#32).toNat / pageSize) = 1 + (codeSize.toNat - 1) / 4096 := by
    by_cases h0 : (codeSize + 4095#32).toNat / pageSize = 0
    · rw [if_pos h0]
      rw [hnum, pageSize] at h0
      omega
    · rw [if_neg h0]
      rw [hnum, pageSize] at h0 ⊢
      omega
  rw [aobPages, hcount, List.mem_map]
  simp only [List.mem_range]
  exact exists_congr fun j => and_congr_right fun _ => eq_comm

theorem aobPages_lt (hsize : codeSize.toNat ≤ aobBufferSize) :
    ∀ v ∈ aobPages codeSize, v.toNat < 2 ^ 64 - 4096 := by
  intro v hv
  obtain ⟨j, hj, rfl⟩ := (mem_aobPages hsize).mp hv
  rw [BitVec.toNat_add, BitVec.toNat_ofNat, userCodeBase, BitVec.toNat_ofNat]
  simp only [aobBufferSize, pageSize] at hsize ⊢
  omega

/-- The code of an AOB program lies in its pages. -/
theorem aob_keys (hsize : codeSize.toNat ≤ aobBufferSize) {j : Nat} (hj : j < codeSize.toNat) :
    ∃ v ∈ aobPages codeSize, keyOf (userCodeBase + BitVec.ofNat 64 j) = keyOf v := by
  refine ⟨_, (mem_aobPages hsize).mpr ⟨j / 4096, by omega, rfl⟩, ?_⟩
  simp only [aobBufferSize] at hsize
  rw [← keyOf_pageOf]
  congr 1
  apply BitVec.eq_of_toNat_eq
  rw [toNat_pageOf, BitVec.toNat_add, BitVec.toNat_add, BitVec.toNat_ofNat, BitVec.toNat_ofNat,
    userCodeBase, BitVec.toNat_ofNat]
  simp only [pageSize]
  omega

/-- **An accepted AOB file has a user page at 2 MB.** -/
theorem aobSpawn_spawned {ctx : AobContext} {api : List Word} {background : Bool} {s' : PSys}
    (h : Inv s) (hsize : f.size.toNat ≤ aobBufferSize) (hload : aobLoad f = .ok ctx)
    (hspawn : aobSpawn ctx api cmdline background s = some (.ok i, s')) :
    ∃ P, Spawned P s' i ∧ keyOf userCodeBase ∈ P.keys := by
  obtain ⟨hpos, hmax⟩ := aobLoad_ok hsize hload
  rw [aobSpawn] at hspawn
  split at hspawn
  · cases hspawn
  obtain ⟨r, s₁, hcreate, -, hres⟩ := processCreate_follows h
  simp only [hcreate, Option.bind_some] at hspawn
  rcases hres with ⟨rfl, -⟩ | ⟨j, P₀, rfl, hplan, hlive, huser, hF⟩
  · cases hspawn
  have hinv : Inv s₁ := h.create hcreate
  obtain ⟨ok, p, k₁, hmap, hcases⟩ := hF.mapAll hinv (spaces_live hlive) huser pteWritable
    (aobPages_lt hmax)
  obtain ⟨hgood, hproc⟩ := Good.mapAll hinv (spaces_live hlive) hmap
  simp only [hmap, Option.map_some] at hspawn
  rcases hcases with ⟨rfl, -⟩ | ⟨P, rfl, hpages, hF'⟩
  · cases hspawn
  have hself := Function.update_self j (some (⟨p.cr3, p.pages⟩ : Space)) (spaces s₁.procs)
  have hcr3 : p.cr3 ≠ 0#64 := by
    obtain ⟨own, hwf, -⟩ := hgood
    exact (hwf.root_frame hself).ne_zero
  have hkey : ∀ {n : Nat}, n < ctx.codeSize.toNat →
      keyOf (userCodeBase + BitVec.ofNat 64 n) ∈ P.keys := by
    intro n hn
    obtain ⟨v, hv, heq⟩ := aob_keys hmax hn
    exact (mapPages_keys hpages _).mpr (.inl ⟨v, hv, heq⟩)
  have hlen : (ctx.codeSize.setWidth 64).toNat = ctx.codeSize.toNat := by
    rw [BitVec.toNat_setWidth]
    exact Nat.mod_eq_of_lt (Nat.lt_of_lt_of_le ctx.codeSize.isLt (by decide))
  obtain ⟨k₂, hw, hgood₂, hF₂⟩ := hF'.writeLoop hgood hself
    (fun n => ctx.image.byte (BitVec.ofNat 64 (aobHeaderSize + n))) userCodeBase
    (ctx.codeSize.setWidth 64) fun n hn => hkey (hlen ▸ hn)
  simp only [Bool.not_true, Bool.false_eq_true, if_false, processWriteUser, if_neg hcr3, hw]
    at hspawn
  obtain ⟨hj, rfl⟩ := Prod.mk.inj (Option.some.inj hspawn)
  obtain rfl : j = i := Except.ok.inj hj
  have hfixed : ∀ v ∈ fixedPages, keyOf v ∈ P.keys := fun v hv =>
    (mapPages_keys hpages _).mpr (.inr ((planCreate_keys hplan _).mpr ⟨v, hv, rfl⟩))
  obtain ⟨hgood₃, hfol, hroot⟩ := finishSpawn_follows (0x414F4150#64 :: api) cmdline background s₁
    hgood₂ hself hF₂ hfixed
  have hzero := hkey hpos
  rw [BitVec.add_zero] at hzero
  exact ⟨P, ⟨⟨_, _, hgood₃, hself, hroot, hfol⟩, hfixed⟩, hzero⟩

/-- 2 MB is always in the kernel's image or in its heap. -/
theorem Layout.inKernel_userCodeBase (L : Layout) : L.InKernel userCodeBase := by
  have h := L.notEmpty
  have haligned := L.aligned
  rw [Layout.InKernel, L.heapBase_eq]
  simp only [kernelStart, userCodeBase, heapSize, BitVec.toNat_ofNat] at h ⊢
  omega

/-! ## Both loaders -/

/-- **When a loaded program hides the kernel.**  An ELF program hides nothing
    exactly if none of its pages is at an address of the kernel's image or heap or
    of a table it is going to get; an AOB program always hides something. -/
theorem kernelVisible_iff (L : Layout) {s : PSys} (h : Inv s) : (∀ f cmdline background i reads s',
      elfSpawn f cmdline background s = some (.ok i, reads, s') →
      (Visible L s' i ↔ ∀ P, elfPlan f s = some P → Clear L (elfPages f) P)) ∧
    ∀ f ctx api cmdline background i s', f.size.toNat ≤ aobBufferSize → aobLoad f = .ok ctx →
      aobSpawn ctx api cmdline background s = some (.ok i, s') → ¬ Visible L s' i := by
  constructor
  · intro f cmdline background i reads s' hspawn
    obtain ⟨P, hplan, hkeys, hsp⟩ := elfSpawn_spawned h hspawn
    rw [hsp.visible_iff hkeys]
    refine ⟨fun hclear P' hP' => ?_, fun hclear => hclear P hplan⟩
    rwa [← Option.mem_unique hplan hP']
  · intro f ctx api cmdline background i s' hsize hload hspawn hvis
    obtain ⟨P, hsp, hkey⟩ := aobSpawn_spawned h hsize hload hspawn
    obtain ⟨sp, S, hgood, ha, hroot, hF⟩ := hsp.follows
    have htr := (hvis userCodeBase (.inl L.inKernel_userCodeBase)).1
    rw [hroot] at htr
    exact planned_not_visible hF hgood ha hkey htr

/-- A kernel of half a megabyte. -/
def smallKernel : Layout := ⟨0x180000#64, by decide, by decide, by decide⟩

/-- A file with a segment at 1 MB. -/
def shadowsKernel : Image :=
  ElfReads.imageOf (ElfReads.elfHeader 0x100000 64 ++ ElfReads.loadHeader 6 0 0x100000 64 64)

/-- **An ELF file in the kernel's place**: it is accepted, and in its process the
    first page of the kernel is a page of the program. -/
theorem elfSpawn_shadows_kernel :
    ∃ reads s', elfSpawn shadowsKernel [] false bootSys = some (.ok 1, reads, s') ∧
      smallKernel.InKernel 0x100000#64 ∧ ¬ Visible smallKernel s' 1 ∧
      ∃ x, translate s'.k.mem (s'.procs 1).cr3 0x100000#64 = some (x, true) := by
  obtain ⟨reads, s', hr, htr⟩ := ElfReads.spawned_of_eval (s := bootSys) (i := 1) shadowsKernel
    (fun r => Paging.translate r.2.k.mem (r.2.procs 1).cr3 0x100000#64)
    (show _ = some (_, some (0x20B000#64, true)) by decide +kernel)
  have hin : smallKernel.InKernel 0x100000#64 := .inl ⟨by decide, by decide⟩
  refine ⟨reads, s', hr, hin, fun hvis => ?_, _, htr⟩
  cases (htr.symm.trans (hvis _ (.inl hin)).1)

/-- At boot, for a file with its segment at 4 MB. -/
theorem kernelVisible_boot :
    ∃ reads s', elfSpawn ElfReads.plainFile [] false bootSys = some (.ok 1, reads, s') ∧
      (Visible smallKernel s' 1 ↔ ∀ P, elfPlan ElfReads.plainFile bootSys = some P →
        Clear smallKernel (elfPages ElfReads.plainFile) P) := by
  obtain ⟨reads, s', hr, -⟩ := ElfReads.spawned_of_eval (s := bootSys) (i := 1) (b := ())
    ElfReads.plainFile (fun _ => ()) (by decide +kernel)
  exact ⟨reads, s', hr, (kernelVisible_iff smallKernel (Inv.of_init bootSys_init)).1 _ _ _ _ _ _ hr⟩

end KernelVisible
