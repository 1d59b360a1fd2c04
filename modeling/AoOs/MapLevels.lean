import AoOs.AddressSpace

/-! # The levels of `vmm_map_page_in`

    On its way down `vmm_map_page_in` does one of five things with an entry: it
    gives up for want of a frame, follows the entry, or hangs in a fresh table
    there, which is empty, a copy of the table below, or the parts of a 2 MB
    page (`Level`).  This file says so once, for every hierarchy and all flags;
    what a mapping does is read off the levels. -/

namespace AddressSpace

open Paging Vmm

variable {e c : Word}

variable {k k' : KState} {t : Word} {i : Index} {flags : Word}

/-! ## Entries and flags -/

theorem or_user (h : has e pteUser) : e ||| pteUser = e := by
  have hu : e &&& pteUser = pteUser := has_twoPow h
  rw [← hu, BitVec.or_comm, BitVec.and_comm]
  ext i hi
  simp only [BitVec.getElem_or, BitVec.getElem_and]
  cases e[i] <;> simp

theorem KState.store_self (k : KState) (t : Word) (i : Index) : k.store t i (k.mem t i) = k := by
  have hm : k.mem.set t i (k.mem t i) = k.mem := by
    funext t' i'
    rw [Mem.set]
    split
    · rename_i h
      rw [h.1, h.2]
    · rfl
  rw [KState.store, hm]

theorem KState.store_same (k : KState) (t : Word) (i : Index) (e : Word) :
    (k.store t i e).mem t i = e := Mem.set_same _ _ _ _

theorem setPage_setPage (m : Mem) (c : Word) (x y : Table) :
    (m.setPage c x).setPage c y = m.setPage c y := by
  funext t
  by_cases h : t = c
  · rw [h, Mem.setPage_same, Mem.setPage_same]
  · rw [Mem.setPage_other _ _ h, Mem.setPage_other _ _ h, Mem.setPage_other _ _ h]

theorem presentUser_of_has (hP : has e ptePresent) (hU : has e pteUser) : presentUser e := by
  rw [presentUser, beq_iff_eq]
  exact (present_user_iff e).mpr ⟨hP, hU⟩

theorem has_of_presentUser (h : presentUser e) : has e ptePresent ∧ has e pteUser := by
  rw [presentUser, beq_iff_eq] at h
  exact (present_user_iff e).mp h

theorem parentFlags_user {flags : Word} (h : has flags pteUser) :
    parentFlags flags = ptePresent ||| pteWritable ||| pteUser := if_pos h

/-- What the flags given to a table's entry say. -/
theorem has_parentFlags (flags : Word) :
    IsFlags (parentFlags flags) ∧ has (parentFlags flags) ptePresent ∧
      has (parentFlags flags) pteUser = has flags pteUser ∧
      has (parentFlags flags) pteHuge = false ∧
      has (parentFlags flags) ptePrivateTable = false := by
  cases hu : has flags pteUser with
  | true =>
    rw [parentFlags_user hu]
    decide
  | false =>
    rw [parentFlags, hu]
    decide

/-! ## Fresh tables -/

/-- The frame `c` that the allocator gives becomes a table with contents `x`. -/
structure Fresh (k : KState) (c : Word) (x : Table) (k' : KState) : Prop
    extends Takes k c k' where
  alloc : (pmmAllocPage k).1 = c
  mem : k'.mem = k.mem.setPage c x

theorem Allocates.fresh {k₁ : KState} (h : pmmAllocPage k = (c, k₁)) (ha : Allocates k c k₁)
    (x : Table) : Fresh k c x { k₁ with mem := k₁.mem.setPage c x } where
  toTakes := ⟨ha.frame, ha.free, ha.used, ha.kernel⟩
  alloc := congrArg Prod.fst h
  mem := congrArg (·.setPage c x) ha.mem

/-- `alloc_table_page`: no frame, or a frame of zeroes. -/
theorem allocTablePage_cases (k : KState) :
    ((pmmAllocPage k).1 = 0#64 ∧ allocTablePage k = (0#64, k)) ∨
      ∃ c k', allocTablePage k = (c, k') ∧ Fresh k c (fun _ => 0#64) k' := by
  rw [allocTablePage]
  rcases pmmAllocPage_cases k with h | ⟨c, k₁, h, ha⟩
  · rw [h]
    exact .inl ⟨rfl, if_pos rfl⟩
  · have hfresh := ha.fresh h fun _ => 0#64
    rw [h]
    exact .inr ⟨c, _, if_neg ha.frame.ne_zero, hfresh⟩

/-- `copy_table_page`: no frame, or a copy. -/
theorem copyTablePage_cases (k : KState) (src : Word) :
    ((pmmAllocPage k).1 = 0#64 ∧ copyTablePage src k = (0#64, k)) ∨
      ∃ c k', copyTablePage src k = (c, k') ∧ Fresh k c (k.mem src) k' := by
  rw [copyTablePage]
  rcases pmmAllocPage_cases k with h | ⟨c, k₁, h, ha⟩
  · rw [h]
    exact .inl ⟨rfl, if_pos rfl⟩
  · have hfresh := ha.fresh h (k₁.mem src)
    rw [h, ← ha.mem]
    exact .inr ⟨c, _, if_neg ha.frame.ne_zero, hfresh⟩

/-- The frame `c` that the allocator gives becomes a table with contents `x`, and
    place `i` of the table `t` gets the entry `e`. -/
structure Hangs (k : KState) (t : Word) (i : Index) (c : Word) (x : Table) (e : Word)
    (k' : KState) : Prop extends Takes k c k' where
  alloc : (pmmAllocPage k).1 = c
  mem : k'.mem = (k.mem.setPage c x).set t i e

theorem Fresh.hangs {x : Table} (h : Fresh k c x k') (t : Word) (i : Index) (e : Word) :
    Hangs k t i c x e (k'.store t i e) where
  toTakes := ⟨h.frame, h.free, h.used, h.kernel⟩
  alloc := h.alloc
  mem := congrArg (·.set t i e) h.mem

/-- An entry that is opened to user mode if asked for. -/
def opened (flags e : Word) : Word := if has flags pteUser then e ||| pteUser else e

/-- The entry of a table that was missing, or split off. -/
def madeEntry (c flags : Word) : Word := c ||| parentFlags flags ||| ptePrivateTable

/-- The entry of a table that was copied. -/
def copiedEntry (c flags e : Word) : Word :=
  c ||| ((e ||| parentFlags flags ||| ptePrivateTable) &&& ~~~pteAddrMask)

theorem isFlags_made (flags : Word) : IsFlags (parentFlags flags ||| ptePrivateTable) :=
  (has_parentFlags flags).1.or (by decide)

/-- An entry that is open stays as it is. -/
theorem opened_eq (h : has flags pteUser → has e pteUser) : opened flags e = e := by
  rw [opened]
  split
  · exact or_user (h ‹_›)
  · rfl

theorem has_opened (flags e f : Word) :
    has (opened flags e) f = (has e f || (has flags pteUser && has pteUser f)) := by
  rw [opened]
  cases has flags pteUser with
  | true =>
    rw [if_pos rfl, has_or]
    rfl
  | false =>
    rw [if_neg (by decide)]
    simp

theorem addrOf_opened (flags e : Word) : addrOf (opened flags e) = addrOf e := by
  rw [opened]
  split
  · exact addrOf_or_flags (by decide)
  · rfl

/-- The flags of the entry of a new table. -/
theorem has_madeEntry {f : Word} (hc : IsPage c) (hf : IsFlags f) (flags : Word) :
    has (madeEntry c flags) f = (has (parentFlags flags) f || has ptePrivateTable f) := by
  rw [madeEntry, has_or, has_or, has_page hc hf]
  rfl

theorem addrOf_madeEntry (hc : IsPage c) (flags : Word) : addrOf (madeEntry c flags) = c := by
  rw [madeEntry, BitVec.or_assoc, addrOf_page_or hc (isFlags_made flags)]

/-- The flags of the entry of a copy: those of the old entry, and more. -/
theorem has_copiedEntry {f : Word} (hc : IsPage c) (hf : IsFlags f) (flags e : Word) :
    has (copiedEntry c flags e) f =
      (has e f || has (parentFlags flags) f || has ptePrivateTable f) := by
  rw [copiedEntry, has_or, has_page hc hf, has_not_mask hf, has_or, has_or]
  rfl

theorem addrOf_copiedEntry (hc : IsPage c) (flags e : Word) :
    addrOf (copiedEntry c flags e) = c := by
  rw [copiedEntry, addrOf_page_or hc (addrOf_not_mask _)]

/-! ## One level -/

/-- What one level of `vmm_map_page_in` does with place `i` of the table `t`, and
    which table is below it afterwards; `last` says that the level is that of
    the page directories. -/
inductive Level (k : KState) (cr3 flags : Word) (last : Bool) (t : Word) (i : Index) :
    Option Word → KState → Prop where
  /-- A table has to be made and no frame is left. -/
  | full : (pmmAllocPage k).1 = 0#64 →
      (last = false ∧ addrOf cr3 ≠ k.kernelPml4 ∧ has (k.mem t i) ptePrivateTable = false ∨
        last ∧ has (k.mem t i) pteHuge ∨ has (k.mem t i) ptePresent = false) →
      Level k cr3 flags last t i none k
  /-- The table is there; at the upper levels it may be changed. -/
  | found : has (k.mem t i) ptePresent →
      (last = false → addrOf cr3 = k.kernelPml4 ∨ has (k.mem t i) ptePrivateTable) →
      (last → has (k.mem t i) pteHuge = false) →
      Level k cr3 flags last t i (some (addrOf (k.mem t i)))
        (k.store t i (opened flags (k.mem t i)))
  /-- There is nothing: an empty table. -/
  | made {c : Word} {k' : KState} : has (k.mem t i) ptePresent = false →
      Hangs k t i c (fun _ => 0#64) (madeEntry c flags) k' →
      Level k cr3 flags last t i (some c) k'
  /-- The table is shared: a copy of it. -/
  | copied {c : Word} {k' : KState} : last = false → addrOf cr3 ≠ k.kernelPml4 →
      has (k.mem t i) ptePresent → has (k.mem t i) ptePrivateTable = false →
      Hangs k t i c (k.mem (addrOf (k.mem t i))) (copiedEntry c flags (k.mem t i)) k' →
      Level k cr3 flags last t i (some c) k'
  /-- There is a 2 MB page: a table of its parts. -/
  | split {c : Word} {k' : KState} : last → has (k.mem t i) ptePresent →
      has (k.mem t i) pteHuge →
      Hangs k t i c (splitTable (k.mem t i)) (madeEntry c flags) k' →
      Level k cr3 flags last t i (some c) k'

/-- The second half of a level where there is an entry. -/
theorem presentEntry_opens (up : Word) (h : has (k.mem t i) ptePresent) :
    presentEntry t i up flags k =
      (some (addrOf (k.mem t i)), k.store t i (opened flags (k.mem t i))) := by
  rw [presentEntry, h, opened]
  cases has flags pteUser with
  | true => simp [addrOf_or_flags (show IsFlags pteUser by decide)]
  | false => simp [KState.store_self]

/-- The second half of a level where the entry has just been stored, open. -/
theorem presentEntry_idle (up : Word) (he : k.mem t i = e) (hP : has e ptePresent)
    (hU : has flags pteUser → has e pteUser) :
    presentEntry t i up flags k = (some (addrOf e), k) := by
  subst he
  rw [presentEntry_opens up hP, opened_eq hU, KState.store_self]

/-- The second half of a level where there is nothing. -/
theorem presentEntry_makes (cr3 : Word) (last : Bool) (h : has (k.mem t i) ptePresent = false) :
    Level k cr3 flags last t i (presentEntry t i (parentFlags flags) flags k).1
      (presentEntry t i (parentFlags flags) flags k).2 := by
  rw [presentEntry, h]
  simp only [Bool.not_false, if_true]
  rcases allocTablePage_cases k with ⟨hfull, halloc⟩ | ⟨c, k₁, halloc, hfresh⟩
  · rw [halloc]
    exact .full hfull (.inr (.inr h))
  · rw [halloc]
    simp only [if_neg hfresh.frame.ne_zero]
    rw [← madeEntry, addrOf_madeEntry hfresh.frame.isPage]
    exact .made h (hfresh.hangs t i _)

/-- **Levels 4 and 3.** -/
theorem nextTable_level (cr3 t : Word) (i : Index) (flags : Word) (k : KState) :
    Level k cr3 flags false t i (nextTable cr3 t i (parentFlags flags) flags k).1
      (nextTable cr3 t i (parentFlags flags) flags k).2 := by
  rw [nextTable, ensurePrivateEntry]
  by_cases hker : addrOf cr3 = k.kernelPml4
  · rw [if_pos hker]
    cases hP : has (k.mem t i) ptePresent with
    | false => exact presentEntry_makes cr3 false hP
    | true =>
      simp only [Bool.not_true, Bool.false_eq_true, if_false]
      rw [presentEntry_opens _ hP]
      exact .found hP (fun _ => .inl hker) nofun
  · rw [if_neg hker]
    cases hP : has (k.mem t i) ptePresent with
    | false => exact presentEntry_makes cr3 false hP
    | true =>
      cases hV : has (k.mem t i) ptePrivateTable with
      | true =>
        simp only [Bool.not_true, Bool.false_eq_true, if_false, if_true]
        rw [presentEntry_opens _ hP]
        exact .found hP (fun _ => .inr hV) nofun
      | false =>
        simp only [Bool.not_true, Bool.false_eq_true, if_false]
        rcases copyTablePage_cases k (addrOf (k.mem t i)) with
          ⟨hfull, hcopy⟩ | ⟨c, k₁, hcopy, hfresh⟩
        · rw [hcopy]
          exact .full hfull (.inl ⟨rfl, hker, hV⟩)
        · have hfr := hfresh.frame
          rw [hcopy]
          simp only [if_neg hfr.ne_zero, Bool.not_true, Bool.false_eq_true, if_false]
          rw [← copiedEntry, presentEntry_idle _ (KState.store_same _ _ _ _),
            addrOf_copiedEntry hfr.isPage]
          · exact .copied rfl hker hP hV (hfresh.hangs t i _)
          · rw [has_copiedEntry hfr.isPage (by decide), hP]
            rfl
          · intro hU
            rw [has_copiedEntry hfr.isPage (by decide), (has_parentFlags flags).2.2.1, hU]
            simp

/-- **Level 2.** -/
theorem pdTable_level (cr3 t : Word) (i : Index) (flags : Word) (k : KState) :
    Level k cr3 flags true t i (pdTable t i (parentFlags flags) flags k).1
      (pdTable t i (parentFlags flags) flags k).2 := by
  rw [pdTable, splitHuge]
  cases hP : has (k.mem t i) ptePresent with
  | false => exact presentEntry_makes cr3 true hP
  | true =>
    cases hH : has (k.mem t i) pteHuge with
    | false =>
      simp only [Bool.and_false, Bool.false_eq_true, if_false]
      rw [presentEntry_opens _ hP]
      exact .found hP nofun fun _ => hH
    | true =>
      simp only [Bool.and_self, if_true]
      rcases allocTablePage_cases k with ⟨hfull, halloc⟩ | ⟨c, k₁, halloc, hfresh⟩
      · rw [halloc]
        exact .full hfull (.inr (.inl ⟨rfl, hH⟩))
      · have hfr := hfresh.frame
        rw [halloc]
        simp only [if_neg hfr.ne_zero]
        rw [← madeEntry, presentEntry_idle _ (KState.store_same _ _ _ _),
          addrOf_madeEntry hfr.isPage]
        · refine .split rfl hP hH ⟨⟨hfr, hfresh.free, hfresh.used, hfresh.kernel⟩, hfresh.alloc, ?_⟩
          rw [KState.store, hfresh.mem, setPage_setPage]
        · rw [has_madeEntry hfr.isPage (by decide), (has_parentFlags flags).2.1]
          rfl
        · intro hU
          rw [has_madeEntry hfr.isPage (by decide), (has_parentFlags flags).2.2.1, hU]
          rfl

end AddressSpace
