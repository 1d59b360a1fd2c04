import AoOs.PointerTree
import AoOs.Vmm

/-! # Address spaces — private trees over the kernel's tables

    An address space starts as a copy of the kernel's page-map root and becomes
    private lazily: a table that is about to be changed is first copied, created
    or split off, and marked private.  So every space is a pointer tree of
    private tables whose other entries are still the kernel's, and what a space
    maps is a function of page and index: the entry of its private page table if
    there is one, the kernel's entry otherwise (`view`).

    Every frame in use has at most one owner: a table at one path of one space,
    or one page of one space's list.  `Wf` ties trees, lists and the allocator's
    bitmap to one ownership map. -/

namespace AddressSpace

open Paging Vmm PointerTree

variable {n : Nat}

/-! ## Page frames -/

/-- A frame `pmm_alloc_page` can hand out. -/
def IsFrame (f : Word) : Prop := ∃ n, firstPage ≤ n ∧ n < maxPages ∧ f = frameAddr n

def frameNum (f : Word) : Nat := f.toNat / pageSize

theorem toNat_frameAddr (h : n < maxPages) : (frameAddr n).toNat = n * pageSize := by
  rw [frameAddr, BitVec.toNat_ofNat]
  apply Nat.mod_eq_of_lt
  simp only [maxPages, pageSize] at h ⊢
  omega

theorem frameNum_frameAddr (h : n < maxPages) : frameNum (frameAddr n) = n := by
  rw [frameNum, toNat_frameAddr h]
  exact Nat.mul_div_cancel n (by decide)

namespace IsFrame

variable {f g : Word}

theorem bounds (h : IsFrame f) : 0x100000 ≤ f.toNat ∧ f.toNat < 2 ^ 32 ∧ f.toNat % 4096 = 0 := by
  obtain ⟨n, h1, h2, rfl⟩ := h
  rw [toNat_frameAddr h2]
  simp only [firstPage, maxPages, pageSize] at h1 h2 ⊢
  omega

theorem isPage (h : IsFrame f) : IsPage f := by
  obtain ⟨-, h2, h3⟩ := h.bounds
  exact isPage_of_toNat h3 (by omega)

theorem ne_zero (h : IsFrame f) : f ≠ 0#64 := by
  rintro rfl
  have := h.bounds.1
  simp at this

/-- Frames are determined by their numbers. -/
theorem num_inj (hf : IsFrame f) (hg : IsFrame g) (h : frameNum f = frameNum g) : f = g := by
  obtain ⟨n, -, hn, rfl⟩ := hf
  obtain ⟨m, -, hm, rfl⟩ := hg
  rw [frameNum_frameAddr hn, frameNum_frameAddr hm] at h
  rw [h]

end IsFrame

/-! ## The frame allocator -/

theorem findFree_spec {used : Nat → Bool} {i j : Nat} (h : findFree used n i = some j) :
    i ≤ j ∧ j < i + n ∧ used j = false := by
  induction n generalizing i with
  | zero => cases h
  | succ n ih =>
    rw [findFree] at h
    split at h
    · obtain ⟨h1, h2, h3⟩ := ih h
      exact ⟨by omega, by omega, h3⟩
    · obtain rfl := Option.some.inj h
      exact ⟨Nat.le_refl _, by omega, by simpa using ‹¬ used i›⟩

/-- A frame that was free is marked, whatever the memory holds then. -/
structure Takes (k : KState) (f : Word) (k' : KState) : Prop where
  frame : IsFrame f
  free : k.used (frameNum f) = false
  used : ∀ n, k'.used n = (n == frameNum f || k.used n)
  kernel : k'.kernelPml4 = k.kernelPml4

theorem Takes.self {f : Word} (h : Takes k f k') : k'.used (frameNum f) := by
  rw [h.used, beq_self_eq_true, Bool.true_or]

theorem Takes.grows {f : Word} (h : Takes k f k') (n : Nat) (hn : k.used n) : k'.used n := by
  rw [h.used, hn, Bool.or_true]

/-- What a successful `pmm_alloc_page` does. -/
structure Allocates (k : KState) (f : Word) (k' : KState) : Prop extends Takes k f k' where
  mem : k'.mem = k.mem

theorem pmmAllocPage_cases (k : KState) :
    pmmAllocPage k = (0#64, k) ∨ ∃ f k', pmmAllocPage k = (f, k') ∧ Allocates k f k' := by
  rw [pmmAllocPage]
  split
  · exact .inl rfl
  · rename_i n hn
    obtain ⟨h1, h2, h3⟩ := findFree_spec hn
    have hlt : n < maxPages := by
      simp only [maxPages, firstPage, pageSize] at h2 ⊢
      omega
    refine .inr ⟨_, _, rfl, ⟨⟨n, h1, hlt, rfl⟩, ?_, ?_, rfl⟩, rfl⟩
    · rwa [frameNum_frameAddr hlt]
    · intro m
      rw [frameNum_frameAddr hlt]
      by_cases hm : m = n <;> simp [hm]

/-! ## The kernel's tables -/

/-- The tables `stage2.asm` builds: a root, one directory of page directories,
    and two page directories of 2 MB pages. -/
def bootMem : Mem := fun t i =>
  if t = 0x1000#64 then if i = 0#9 then 0x2003#64 else 0#64
  else if t = 0x2000#64 then
    if i = 0#9 then 0x3003#64 else if i = 1#9 then 0x4003#64 else 0#64
  else if t = 0x3000#64 then BitVec.ofNat 64 (0x83 + i.toNat * 0x200000)
  else if t = 0x4000#64 then BitVec.ofNat 64 (0x40000083 + i.toNat * 0x200000)
  else 0#64

/-- The frames of the kernel's tables. -/
def kernelTables : List Word := [0x1000#64, 0x2000#64, 0x3000#64, 0x4000#64]

/-- The kernel's root and tables are the boot loader's. -/
structure Booted (k : KState) : Prop where
  root : k.kernelPml4 = 0x1000#64
  tables : ∀ t ∈ kernelTables, k.mem t = bootMem t

/-- The page directory of the kernel at a path of length two. -/
def kernelPd (a b : Index) : Table := fun i =>
  if a = 0#9 ∧ b = 0#9 then bootMem 0x3000#64 i
  else if a = 0#9 ∧ b = 1#9 then bootMem 0x4000#64 i
  else 0#64

/-- What the kernel's address space has at place `i` of the table at a path.
    Where it has a 2 MB page, its 512 parts stand one level further down. -/
def kernelEntry : List Index → Table
  | [], i => bootMem 0x1000#64 i
  | [a], i => if a = 0#9 then bootMem 0x2000#64 i else 0#64
  | [a, b], i => kernelPd a b i
  | [a, b, c], i => if has (kernelPd a b c) ptePresent then splitTable (kernelPd a b c) i else 0#64
  | _, _ => 0#64

/-- The pointer an entry holds to a private table. -/
def child (e : Word) : Option Word :=
  if has e ptePresent && has e ptePrivateTable && !has e pteHuge then some (addrOf e) else none

theorem child_eq_some {e c : Word} (h : child e = some c) :
    has e ptePresent ∧ has e ptePrivateTable ∧ has e pteHuge = false ∧ addrOf e = c := by
  rw [child] at h
  split at h
  · rename_i hc
    simp only [Bool.and_eq_true, Bool.not_eq_true_eq_eq_false] at hc
    exact ⟨hc.1.1, hc.1.2, hc.2, Option.some.inj h⟩
  · cases h

/-- The entries of the boot loader's page directories. -/
theorem bootMem_pd (i : Index) :
    (addrOf (bootMem 0x3000#64 i) = BitVec.ofNat 64 (i.toNat * 0x200000) ∧
      bootMem 0x3000#64 i &&& ~~~pteAddrMask = 0x83#64) ∧
    (addrOf (bootMem 0x4000#64 i) = BitVec.ofNat 64 ((512 + i.toNat) * 0x200000) ∧
      bootMem 0x4000#64 i &&& ~~~pteAddrMask = 0x83#64) := by
  revert i
  decide +kernel

theorem has_of_flags {e g f : Word} (hf : IsFlags f) (h : e &&& ~~~pteAddrMask = g) :
    has e f = has g f := by
  rw [← h, has_not_mask hf]

/-- A page-directory entry of the kernel: nothing, or the 2 MB page of its
    number. -/
theorem kernelPd_cases (a b c : Index) :
    kernelPd a b c = 0#64 ∨ ∃ n, a = 0#9 ∧ b.toNat < 2 ∧ n = b.toNat * 512 + c.toNat ∧
      addrOf (kernelPd a b c) = BitVec.ofNat 64 (n * 0x200000) ∧
      kernelPd a b c &&& ~~~pteAddrMask = 0x83#64 := by
  by_cases h0 : a = 0#9 ∧ b = 0#9
  · rw [kernelPd, if_pos h0, h0.1, h0.2]
    obtain ⟨⟨haddr, hflags⟩, -⟩ := bootMem_pd c
    exact .inr ⟨c.toNat, rfl, by decide, by simp, haddr, hflags⟩
  · rw [kernelPd, if_neg h0]
    by_cases h1 : a = 0#9 ∧ b = 1#9
    · rw [if_pos h1, h1.1, h1.2]
      obtain ⟨-, haddr, hflags⟩ := bootMem_pd c
      exact .inr ⟨512 + c.toNat, rfl, by decide, by simp, haddr, hflags⟩
    · exact .inl (if_neg h1)

/-- A page-table entry of the kernel: nothing, or the page of its number, for the
    kernel only. -/
theorem kernelEntry_pt (a b c j : Index) :
    kernelEntry [a, b, c] j = 0#64 ∨ ∃ n, a = 0#9 ∧ b.toNat < 2 ∧
      n = (b.toNat * 512 + c.toNat) * 512 + j.toNat ∧
      kernelEntry [a, b, c] j = frameAddr n ||| 0x3#64 := by
  rw [kernelEntry]
  rcases kernelPd_cases a b c with h0 | ⟨n, ha, hb, hn, haddr, hflags⟩
  · rw [h0]
    exact .inl rfl
  · have hp : has (kernelPd a b c) ptePresent := by
      rw [has_of_flags (by decide) hflags]
      decide
    have hnum : n * 0x200000 + j.toNat * pageSize = (n * 512 + j.toNat) * pageSize := by
      simp only [pageSize]
      omega
    refine .inr ⟨n * 512 + j.toNat, ha, hb, by rw [hn], ?_⟩
    rw [if_pos hp, splitTable, haddr, hflags, ← BitVec.ofNat_add, hnum,
      show 0x83#64 &&& ~~~pteHuge = 0x3#64 by decide, frameAddr]

/-- The kernel's entries are supervisor entries and mark no table private. -/
theorem kernelEntry_flags (p : List Index) (i : Index) :
    has (kernelEntry p i) pteUser = false ∧ has (kernelEntry p i) ptePrivateTable = false := by
  match p with
  | [] => revert i; decide
  | [a] =>
    rw [kernelEntry]
    split
    · revert i; decide
    · decide
  | [a, b] =>
    rw [kernelEntry]
    rcases kernelPd_cases a b i with h0 | ⟨n, -, -, -, -, hflags⟩
    · rw [h0]
      decide
    · rw [has_of_flags (by decide) hflags, has_of_flags (by decide) hflags]
      decide
  | [a, b, c] =>
    rcases kernelEntry_pt a b c i with h0 | ⟨n, -, hb, hn, heq⟩
    · rw [h0]
      decide
    · have hpage : IsPage (frameAddr n) := by
        have hlt : n < maxPages := by
          have := c.isLt
          have := i.isLt
          simp only [maxPages]
          omega
        apply isPage_of_toNat
        · rw [toNat_frameAddr hlt]
          simp [pageSize]
        · rw [toNat_frameAddr hlt]
          simp only [maxPages, pageSize] at hlt ⊢
          omega
      rw [heq, has_or, has_or, has_page hpage (by decide), has_page hpage (by decide)]
      decide
  | _ :: _ :: _ :: _ :: _ =>
    rw [kernelEntry]
    · decide
    all_goals simp

theorem child_kernelEntry (p : List Index) (i : Index) : child (kernelEntry p i) = none := by
  rw [child, (kernelEntry_flags p i).2]
  simp

/-- Above the page directories the kernel has a table of its own below an entry,
    or nothing at all. -/
theorem kernelEntry_step {p : List Index} (hp : p.length < 2) (i : Index) :
    (kernelEntry p i = 0#64 ∧ kernelEntry (p ++ [i]) = fun _ => 0#64) ∨
      (has (kernelEntry p i) ptePresent ∧ has (kernelEntry p i) pteHuge = false ∧
        addrOf (kernelEntry p i) ∈ kernelTables ∧
        bootMem (addrOf (kernelEntry p i)) = kernelEntry (p ++ [i])) := by
  -- the three entries of the boot loader, by value; everything else is zero
  have key : ∀ e t : Word, kernelEntry p i = e → addrOf e = t →
      (has e ptePresent ∧ has e pteHuge = false ∧ t ∈ kernelTables) →
      bootMem t = kernelEntry (p ++ [i]) →
      has (kernelEntry p i) ptePresent ∧ has (kernelEntry p i) pteHuge = false ∧
        addrOf (kernelEntry p i) ∈ kernelTables ∧
        bootMem (addrOf (kernelEntry p i)) = kernelEntry (p ++ [i]) := by
    rintro e t rfl rfl ⟨hP, hH, hmem⟩ heq
    exact ⟨hP, hH, hmem, heq⟩
  match p with
  | [] =>
    by_cases hi : i = 0#9
    · subst hi
      refine .inr (key 0x2003#64 0x2000#64 (by decide) (by decide) (by decide) ?_)
      funext j
      show _ = if 0#9 = 0#9 then bootMem 0x2000#64 j else 0#64
      rw [if_pos rfl]
    · refine .inl ⟨by simp [kernelEntry, bootMem, hi], ?_⟩
      funext j
      exact if_neg hi
  | [a] =>
    by_cases ha : a = 0#9
    · subst ha
      by_cases h0 : i = 0#9
      · subst h0
        refine .inr (key 0x3003#64 0x3000#64 (by decide) (by decide) (by decide) ?_)
        funext j
        show _ = kernelPd 0#9 0#9 j
        rw [kernelPd, if_pos ⟨rfl, rfl⟩]
      · by_cases h1 : i = 1#9
        · subst h1
          refine .inr (key 0x4003#64 0x4000#64 (by decide) (by decide) (by decide) ?_)
          funext j
          show _ = kernelPd 0#9 1#9 j
          rw [kernelPd, if_neg (by decide), if_pos ⟨rfl, rfl⟩]
        · refine .inl ⟨by simp [kernelEntry, bootMem, h0, h1], ?_⟩
          funext j
          show kernelPd 0#9 i j = 0#64
          rw [kernelPd, if_neg (fun h => h0 h.2), if_neg (fun h => h1 h.2)]
    · refine .inl ⟨by simp [kernelEntry, ha], ?_⟩
      funext j
      show kernelPd a i j = 0#64
      rw [kernelPd, if_neg (fun h => ha h.1), if_neg (fun h => ha h.1)]
  | _ :: _ :: _ =>
    simp at hp

/-- A page directory of the kernel has a 2 MB page or nothing. -/
theorem kernelEntry_huge {p : List Index} (hp : p.length = 2) (i : Index) :
    (kernelEntry p i = 0#64 ∧ kernelEntry (p ++ [i]) = fun _ => 0#64) ∨
      (has (kernelEntry p i) ptePresent ∧ has (kernelEntry p i) pteHuge ∧
        kernelEntry (p ++ [i]) = splitTable (kernelEntry p i)) := by
  match p with
  | [a, b] =>
    rcases kernelPd_cases a b i with h0 | ⟨n, -, -, -, -, hflags⟩
    · refine .inl ⟨h0, ?_⟩
      funext j
      show (if has (kernelPd a b i) ptePresent then _ else _) = 0#64
      rw [h0]
      rfl
    · have hP : has (kernelPd a b i) ptePresent := by
        rw [has_of_flags (by decide) hflags]
        decide
      refine .inr ⟨hP, ?_, ?_⟩
      · rw [kernelEntry, has_of_flags (by decide) hflags]
        decide
      · funext j
        exact if_pos hP

/-! ## Ownership -/

/-- An address space and the list of user pages that belongs to it. -/
structure Space where
  root : Word
  pages : List Word

/-- What a frame is used for. -/
inductive Owner (ι : Type) where
  | table (a : ι) (p : List Index)
  | page (a : ι) (n : Nat)

/-- The private table at a path. -/
abbrev tableAt (m : Mem) (r : Word) (p : List Index) : Option Word := nodeAt child m r p

/-- The page table of a space at a path of length three, as the hardware sees it:
    the private one, or else the kernel's. -/
def view (m : Mem) (r : Word) (p : List Index) : Table :=
  match tableAt m r p with
  | some t => m t
  | none => kernelEntry p

variable {ι : Type} {k k' : KState} {sp : ι → Option Space} {own : Word → Option (Owner ι)}

/-- The spaces `sp` are well formed in state `k`, with the frames owned as `own`
    says. -/
structure Wf (k : KState) (sp : ι → Option Space) (own : Word → Option (Owner ι)) : Prop where
  booted : Booted k
  table_own : ∀ {a S p t}, sp a = some S → p.length ≤ 3 → tableAt k.mem S.root p = some t →
    own t = some (.table a p)
  own_table : ∀ {a p t}, own t = some (.table a p) →
    p.length ≤ 3 ∧ ∃ S, sp a = some S ∧ tableAt k.mem S.root p = some t
  page_own : ∀ {a S n f}, sp a = some S → S.pages[n]? = some f → own f = some (.page a n)
  own_page : ∀ {a n f}, own f = some (.page a n) → ∃ S, sp a = some S ∧ S.pages[n]? = some f
  frame : ∀ {f o}, own f = some o → IsFrame f ∧ k.used (frameNum f)
  /-- An entry above the page tables is the kernel's, or points to a private
      table and is open to user mode. -/
  upper : ∀ {a S p t}, sp a = some S → p.length < 3 → tableAt k.mem S.root p = some t → ∀ i,
    k.mem t i = kernelEntry p i ∨ (child (k.mem t i) ≠ none ∧ presentUser (k.mem t i))

/-- What every space maps is as before. -/
def SameViews (sp : ι → Option Space) (k k' : KState) : Prop :=
  ∀ a S, sp a = some S → ∀ p, p.length = 3 → view k'.mem S.root p = view k.mem S.root p

theorem SameViews.refl (sp : ι → Option Space) (k : KState) : SameViews sp k k :=
  fun _ _ _ _ _ => rfl

theorem SameViews.trans {k'' : KState} (h : SameViews sp k k') (h' : SameViews sp k' k'') :
    SameViews sp k k'' := fun a S ha p hp => (h' a S ha p hp).trans (h a S ha p hp)

/-- A frame that is free has no owner. -/
theorem Wf.own_free (h : Wf k sp own) {f : Word} (hf : k.used (frameNum f) = false) :
    own f = none := by
  cases ho : own f with
  | none => rfl
  | some o =>
    rw [(h.frame ho).2] at hf
    cases hf

section Owned

variable {a b : ι} {S S' : Space} {p q : List Index} {t f : Word} (h : Wf k sp own)
  (ha : sp a = some S)

include h ha

/-- A table is at one path of one space. -/
theorem Wf.table_inj (hp : p.length ≤ 3) (ht : tableAt k.mem S.root p = some t)
    (hb : sp b = some S') (hq : q.length ≤ 3) (hu : tableAt k.mem S'.root q = some t) :
    b = a ∧ q = p := by
  have hown := h.table_own hb hq hu
  rw [h.table_own ha hp ht] at hown
  injection hown with hown
  injection hown with hab hpq
  exact ⟨hab.symm, hpq.symm⟩

/-- A free frame is no table, and no page. -/
theorem Wf.table_fresh (hp : p.length ≤ 3) (ht : tableAt k.mem S.root p = some t)
    (hf : k.used (frameNum f) = false) : t ≠ f := by
  rintro rfl
  cases (h.own_free hf).symm.trans (h.table_own ha hp ht)

theorem Wf.page_owned (hf : f ∈ S.pages) : ∃ n, own f = some (.page a n) := by
  obtain ⟨n, hn⟩ := List.getElem?_of_mem hf
  exact ⟨n, h.page_own ha hn⟩

theorem Wf.page_frame (hf : f ∈ S.pages) : IsFrame f := by
  obtain ⟨n, hn⟩ := h.page_owned ha hf
  exact (h.frame hn).1

/-- A page is no table. -/
theorem Wf.page_ne_table (hp : p.length ≤ 3) (ht : tableAt k.mem S.root p = some t)
    (hf : f ∈ S.pages) : f ≠ t := by
  rintro rfl
  obtain ⟨n, hn⟩ := h.page_owned ha hf
  cases (hn.symm.trans (h.table_own ha hp ht))

theorem Wf.page_fresh (hf : f ∈ S.pages) (ht : k.used (frameNum t) = false) : f ≠ t := by
  rintro rfl
  obtain ⟨n, hn⟩ := h.page_owned ha hf
  cases (h.own_free ht).symm.trans hn

end Owned

/-- A frame is none of the kernel's tables. -/
theorem IsFrame.not_kernel {f : Word} (hf : IsFrame f) : f ∉ kernelTables := by
  intro hm
  have hb := hf.bounds.1
  simp only [kernelTables, List.mem_cons, List.not_mem_nil, or_false] at hm
  rcases hm with rfl | rfl | rfl | rfl <;> simp at hb

theorem Booted.of_mem (h : Booted k) (hroot : k'.kernelPml4 = k.kernelPml4)
    (hmem : ∀ t ∈ kernelTables, k'.mem t = k.mem t) : Booted k' :=
  ⟨hroot.trans h.root, fun t ht => (hmem t ht).trans (h.tables t ht)⟩

/-! ## Hanging in a new table -/

/-- A frame that was free, filled with the kernel's entries for the path
    `p ++ [i]`, becomes the table at that path of the space `a`. -/
structure NewTable (k : KState) (sp : ι → Option Space) (a : ι) (p : List Index) (i : Index)
    (c : Word) (k' : KState) : Prop extends Takes k c k' where
  place : ∃ S t v, sp a = some S ∧ p.length < 3 ∧ tableAt k.mem S.root p = some t ∧
    k.mem t i = kernelEntry p i ∧ child v = some c ∧ presentUser v ∧
    k'.mem = (k.mem.setPage c (kernelEntry (p ++ [i]))).set t i v

section NewTable

variable [DecidableEq ι] {a : ι} {p : List Index} {i : Index} {c : Word}

/-- The ownership map with one frame more. -/
def addOwner (own : Word → Option (Owner ι)) (c : Word) (o : Owner ι) : Word → Option (Owner ι) :=
  fun f => if f = c then some o else own f

omit [DecidableEq ι] in
theorem addOwner_cases {f : Word} {o o' : Owner ι} (h : addOwner own c o f = some o') :
    f = c ∧ o = o' ∨ own f = some o' := by
  rw [addOwner] at h
  split at h
  · exact .inl ⟨‹_›, Option.some.inj h⟩
  · exact .inr h

omit [DecidableEq ι] in
/-- A frame without owner gets one, the others keep theirs. -/
theorem addOwner_old {f : Word} {o o' : Owner ι} (hc : own c = none) (h : own f = some o') :
    addOwner own c o f = some o' := by
  refine (if_neg ?_).trans h
  rintro rfl
  cases hc.symm.trans h

omit [DecidableEq ι] in
/-- Away from the place and the new table nothing is stored. -/
theorem hung_other {m : Mem} {t u v : Word} {x : Table} {j : Index} (hu : u ≠ c)
    (huj : u ≠ t ∨ j ≠ i) : ((m.setPage c x).set t i v) u j = m u j := by
  rw [Mem.set, if_neg fun hc => huj.elim (· hc.1) (· hc.2), Mem.setPage_other _ _ hu]

/-- The tables after a new one has been hung in. -/
theorem NewTable.tableAt (hn : NewTable k sp a p i c k') (h : Wf k sp own) {b : ι} {S' : Space}
    (hb : sp b = some S') {q : List Index} (hq : q.length ≤ 3) : tableAt k'.mem S'.root q =
      if b = a ∧ q = p ++ [i] then some c else tableAt k.mem S'.root q := by
  obtain ⟨S, t, v, ha, hp, ht, he, hv, -, hmem⟩ := hn.place
  -- the new frame is at no path
  have hnc : ∀ {q u}, q.length ≤ 3 → AddressSpace.tableAt k.mem S'.root q = some u → u ≠ c :=
    fun hq hu => h.table_fresh hb hq hu hn.free
  have htc : t ≠ c := h.table_fresh ha (by omega) ht hn.free
  have hrest : ∀ u j, u ≠ c → (u ≠ t ∨ j ≠ i) → k'.mem u j = k.mem u j := by
    intro u j huc huj
    rw [hmem, hung_other huc huj]
  by_cases hba : b = a
  · subst hba
    obtain rfl : S = S' := Option.mem_unique ha hb
    have hg : Replace child k.mem k'.mem 3 S.root p t i c := by
      refine ⟨@fun _ _ _ hp hq ht hu => (h.table_inj ha hq hu ha hp ht).2, hp, ht, ?_,
        .inr fun _ _ => hnc, ?_, ?_, hrest⟩
      · rw [hmem, Mem.set_same]
        exact hv
      · intro s hs
        rw [he, child_kernelEntry] at hs
        cases hs
      · intro _ _ j
        rw [hmem, Mem.set_table _ _ _ _ (Ne.symm htc), Mem.setPage_same]
        exact child_kernelEntry _ j
    exact (hg.nodes hq).trans (by simp)
  · rw [if_neg (fun hc => hba hc.1)]
    refine nodeAt_congr ?_ hq
    intro q u hq hu j
    have hut : u ≠ t := by
      rintro rfl
      exact hba (h.table_inj ha (by omega) ht hb (by omega) hu).1
    rw [hrest u j (hnc (by omega) hu) (.inl hut)]

/-- **A new table keeps the spaces well formed, and nobody notices.** -/
theorem NewTable.wf (hn : NewTable k sp a p i c k') (h : Wf k sp own) :
    Wf k' sp (addOwner own c (.table a (p ++ [i]))) ∧ SameViews sp k k' := by
  have htab : ∀ {b S'}, sp b = some S' → ∀ {q : List Index}, q.length ≤ 3 →
      AddressSpace.tableAt k'.mem S'.root q =
        if b = a ∧ q = p ++ [i] then some c else AddressSpace.tableAt k.mem S'.root q :=
    fun hb _ hq => hn.tableAt h hb hq
  obtain ⟨S, t, v, ha, hp, ht, he, hv, hopen, hmem⟩ := hn.place
  have hto := h.table_own ha (by omega) ht
  have hold : ∀ {f o}, own f = some o → f ≠ c := by
    rintro f o hf rfl
    cases hf.symm.trans (h.own_free hn.free)
  have htc := hold hto
  have hkeep : ∀ {f o}, own f = some o → addOwner own c (.table a (p ++ [i])) f = some o :=
    addOwner_old (h.own_free hn.free)
  have hrest : ∀ u j, u ≠ c → (u ≠ t ∨ j ≠ i) → k'.mem u j = k.mem u j := by
    intro u j huc huj
    rw [hmem, hung_other huc huj]
  have hempty : AddressSpace.tableAt k.mem S.root (p ++ [i]) = none := by
    show nodeAt child k.mem S.root (p ++ [i]) = none
    rw [nodeAt_snoc, show nodeAt child k.mem S.root p = some t from ht, Option.bind_some, he,
      child_kernelEntry]
  have hnew : k'.mem c = kernelEntry (p ++ [i]) := by
    funext j
    rw [hmem, Mem.set_table _ _ _ _ (Ne.symm htc), Mem.setPage_same]
  refine ⟨⟨?_, ?_, ?_, ?_, ?_, ?_, ?_⟩, ?_⟩
  · refine h.booted.of_mem hn.kernel fun u hu => ?_
    have huc : u ≠ c := fun hcu => hn.frame.not_kernel (hcu ▸ hu)
    have hut : u ≠ t := fun htu => (h.frame hto).1.not_kernel (htu ▸ hu)
    funext j
    exact hrest u j huc (.inl hut)
  · intro b S' q u hb hq hu
    rw [htab hb hq] at hu
    split at hu
    · rename_i hnewq
      obtain ⟨rfl, rfl⟩ := hnewq
      cases hu
      exact if_pos rfl
    · exact hkeep (h.table_own hb hq hu)
  · intro b q u hu
    rcases addOwner_cases hu with ⟨rfl, ho⟩ | hu
    · cases ho
      have hlen := length_snoc_le hp (i := i)
      exact ⟨hlen, S, ha, by rw [htab ha hlen, if_pos ⟨rfl, rfl⟩]⟩
    · obtain ⟨hq, S', hb, hu'⟩ := h.own_table hu
      refine ⟨hq, S', hb, ?_⟩
      rw [htab hb hq, if_neg, hu']
      rintro ⟨rfl, rfl⟩
      -- the place was empty before
      obtain rfl : S = S' := Option.mem_unique ha hb
      cases hempty.symm.trans hu'
  · intro b S' n f hb hf
    exact hkeep (h.page_own hb hf)
  · intro b n f hf
    rcases addOwner_cases hf with ⟨-, ho⟩ | hf
    · cases ho
    · exact h.own_page hf
  · intro f o hf
    rcases addOwner_cases hf with ⟨rfl, -⟩ | hf
    · exact ⟨hn.frame, by rw [hn.used]; simp⟩
    · obtain ⟨hfr, hus⟩ := h.frame hf
      exact ⟨hfr, hn.grows _ hus⟩
  · intro b S' q u hb hq hu j
    rw [htab hb (by omega)] at hu
    split at hu
    · rename_i hnewq
      obtain ⟨rfl, rfl⟩ := hnewq
      cases hu
      exact .inl (congrFun hnew j)
    · have huo := h.table_own hb (by omega) hu
      by_cases hplace : u = t ∧ j = i
      · obtain ⟨rfl, rfl⟩ := hplace
        rw [hmem, Mem.set_same]
        exact .inr ⟨by rw [hv]; exact Option.some_ne_none c, hopen⟩
      · rw [hrest u j (hold huo) (not_and_or.mp hplace)]
        exact h.upper hb hq hu j
  · intro b S' hb q hq
    rw [view, view, htab hb (by omega)]
    by_cases hnewq : b = a ∧ q = p ++ [i]
    · rw [if_pos hnewq]
      obtain ⟨rfl, rfl⟩ := hnewq
      obtain rfl : S = S' := Option.mem_unique ha hb
      rw [hempty]
      exact hnew
    · rw [if_neg hnewq]
      cases hu : AddressSpace.tableAt k.mem S'.root q with
      | none => rfl
      | some u =>
        have huo := h.table_own hb (by omega) hu
        have hut : u ≠ t := by
          rintro rfl
          have hqp := (h.table_inj ha (by omega) ht hb (by omega) hu).2
          rw [hqp] at hq
          omega
        funext j
        exact hrest u j (hold huo) (.inl hut)

end NewTable

end AddressSpace
