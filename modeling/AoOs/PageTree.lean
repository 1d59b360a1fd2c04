import AoOs.MapLevels

/-! # Page-table hierarchies

    A four-level hierarchy, whoever built it: the tables that are reached from a
    root through present entries form a tree, 2 MB pages are aligned and closed
    to user mode, and a page that is open to user mode stands below open entries
    only (`WellFormed`).  What such a hierarchy maps is read off one entry per
    page, with the 2 MB pages thought split up (`entryOf`): the translation of
    `vmm_get_physical_in` (`getPhysical_eq`) and the answer of
    `vmm_user_page_ok` (`userPageOk_eq`).

    Then what a level of `vmm_map_page_in` does to a hierarchy: tables are opened,
    copied, made and split off, and no entry changes (`Level.keeps`). -/

namespace PageTree

open Paging Vmm PointerTree AddressSpace

variable {e : Word} {m : Mem}

/-! ## The tree of tables -/

/-- The table an entry above the page tables points to. -/
def link (e : Word) : Option Word :=
  if has e ptePresent && !has e pteHuge then some (addrOf e) else none

theorem link_eq_some {c : Word} :
    link e = some c ↔ has e ptePresent ∧ has e pteHuge = false ∧ addrOf e = c := by
  rw [link]
  cases has e ptePresent <;> cases has e pteHuge <;> simp

/-- The table at a path. -/
abbrev tableOf (m : Mem) (r : Word) (p : List Index) : Option Word := nodeAt link m r p

/-- Every entry on a path is marked for user mode. -/
def Opened (m : Mem) (r : Word) (p : List Index) : Prop :=
  ∀ q i s u, p = q ++ i :: s → tableOf m r q = some u → has (m u i) pteUser

/-- A page that the allocator does not hand out. -/
def Taken (k : KState) (t : Word) : Prop := ∀ d, IsFrame d → k.used (frameNum d) = false → t ≠ d

theorem Taken.mono {k k' : KState} {t : Word} (h : Taken k t) (hused : ∀ n, k.used n → k'.used n) :
    Taken k' t := by
  intro d hd hfree
  refine h d hd ?_
  rw [← Bool.not_eq_true] at hfree ⊢
  exact fun hu => hfree (hused _ hu)

/-- The hierarchy below the root `r` is well formed. -/
structure WellFormed (k : KState) (r : Word) : Prop where
  tree : ∀ {p q t}, p.length ≤ 3 → q.length ≤ 3 → tableOf k.mem r p = some t →
    tableOf k.mem r q = some t → p = q
  /-- No table is a frame that is free. -/
  fresh : ∀ {p t}, p.length ≤ 3 → tableOf k.mem r p = some t → Taken k t
  /-- Only a page directory has 2 MB pages. -/
  upper : ∀ {p t}, p.length < 2 → tableOf k.mem r p = some t → ∀ i,
    has (k.mem t i) ptePresent → has (k.mem t i) pteHuge = false
  huge : ∀ {p t}, p.length = 2 → tableOf k.mem r p = some t → ∀ i,
    has (k.mem t i) ptePresent → has (k.mem t i) pteHuge →
    (addrOf (k.mem t i)).toNat % 2 ^ 21 = 0 ∧ has (k.mem t i) pteUser = false
  user : ∀ {p t}, p.length = 3 → tableOf k.mem r p = some t → ∀ j,
    presentUser (k.mem t j) → Opened k.mem r p

variable {k k' : KState} {r t c : Word} {p q : List Index} {i j : Index}

theorem tableOf_snoc (h : tableOf m r p = some t) (i : Index) :
    tableOf m r (p ++ [i]) = link (m t i) := by
  show nodeAt link m r (p ++ [i]) = _
  rw [nodeAt_snoc, show nodeAt link m r p = some t from h, Option.bind_some]

theorem tableOf_snoc_none (h : tableOf m r p = none) (i : Index) :
    tableOf m r (p ++ [i]) = none := by
  show nodeAt link m r (p ++ [i]) = _
  rw [nodeAt_snoc, show nodeAt link m r p = none from h]
  rfl

theorem absent_zero : has 0#64 ptePresent = false := by decide

/-! ## What is mapped -/

/-- The 512 entries below an entry; for a 2 MB page, its parts. -/
def below (m : Mem) (e : Word) : Table :=
  if has e ptePresent then if has e pteHuge then splitTable e else m (addrOf e)
  else fun _ => 0#64

/-- The entries of the pages below place `i` of the page directory at a path. -/
def pages (m : Mem) (r : Word) (p : List Index) (i : Index) : Table :=
  match tableOf m r p with
  | some t => below m (m t i)
  | none => fun _ => 0#64

/-- The entry of an address. -/
def entryOf (m : Mem) (r a : Word) : Word :=
  pages m r [pml4Index a, pdptIndex a] (pdIndex a) (ptIndex a)

/-- The address an entry translates to. -/
def physOf (e a : Word) : Word := if has e ptePresent then addrOf e + (a &&& 0xFFF#64) else 0#64

theorem below_absent (h : has e ptePresent = false) : below m e = fun _ => 0#64 := by
  rw [below, h]
  rfl

theorem below_table (h : link e = some c) : below m e = m c := by
  obtain ⟨hP, hH, rfl⟩ := link_eq_some.mp h
  rw [below, hP, hH]
  rfl

theorem below_huge (hP : has e ptePresent) (hH : has e pteHuge) : below m e = splitTable e := by
  rw [below, hP, hH]
  rfl

theorem pages_of_some (h : tableOf m r p = some t) : pages m r p i = below m (m t i) := by
  rw [pages, h]

theorem pages_of_none (h : tableOf m r p = none) : pages m r p i = fun _ => 0#64 := by
  rw [pages, h]

/-- The flags of the parts of a 2 MB page are its own. -/
theorem has_splitTable {f : Word} (hf : IsFlags f) (hfh : ~~~pteHuge &&& f = f)
    (ha : (addrOf e).toNat % 2 ^ 21 = 0) (j : Index) : has (splitTable e j) f = has e f := by
  have hpage : IsPage (addrOf e + BitVec.ofNat 64 (j.toNat * pageSize)) := by
    have hlt := toNat_addrOf e
    have hj := j.isLt
    apply isPage_of_toNat <;> rw [BitVec.toNat_add, BitVec.toNat_ofNat] <;>
      simp only [pageSize] <;> omega
  rw [splitTable, has_or, has_page hpage hf, Bool.false_or, has, BitVec.and_assoc, hfh, ← has,
    has_not_mask hf]

/-- The address of a part of a 2 MB page. -/
theorem addrOf_splitTable (ha : (addrOf e).toNat % 2 ^ 21 = 0) (j : Index) :
    addrOf (splitTable e j) = addrOf e + BitVec.ofNat 64 (j.toNat * pageSize) := by
  have hpage : IsPage (addrOf e + BitVec.ofNat 64 (j.toNat * pageSize)) := by
    have hlt := toNat_addrOf e
    have hj := j.isLt
    apply isPage_of_toNat <;> rw [BitVec.toNat_add, BitVec.toNat_ofNat] <;>
      simp only [pageSize] <;> omega
  have hflags : IsFlags (e &&& ~~~pteAddrMask &&& ~~~pteHuge) := by
    rw [IsFlags, addrOf, BitVec.and_assoc _ (~~~pteHuge), BitVec.and_comm (~~~pteHuge),
      ← BitVec.and_assoc, show e &&& ~~~pteAddrMask &&& pteAddrMask = 0#64 from addrOf_not_mask e,
      BitVec.zero_and]
  exact addrOf_page_or hpage hflags

/-- A part of a 2 MB page is where it was in the whole. -/
theorem physOf_split (hP : has e ptePresent) (ha : (addrOf e).toNat % 2 ^ 21 = 0) (a : Word) :
    physOf (splitTable e (ptIndex a)) a = addrOf e + (a &&& 0x1FFFFF#64) := by
  have hidx : (ptIndex a).toNat = a.toNat / 2 ^ 12 % 512 := toNat_low9 a 12
  have hoff : (a &&& 0x1FFFFF#64).toNat = a.toNat % 2 ^ 21 := by
    rw [BitVec.toNat_and]
    exact Nat.and_two_pow_sub_one_eq_mod _ 21
  rw [physOf, has_splitTable (by decide) (by decide) ha, if_pos hP, addrOf_splitTable ha,
    BitVec.add_assoc]
  congr 1
  apply BitVec.eq_of_toNat_eq
  rw [BitVec.toNat_add, toNat_offset, hoff, BitVec.toNat_ofNat, hidx]
  simp only [pageSize]
  omega

/-- A present entry above the page directories leads to a table. -/
theorem WellFormed.link_upper (h : WellFormed k r) (hp : p.length < 2)
    (ht : tableOf k.mem r p = some t) (hP : has (k.mem t i) ptePresent) :
    link (k.mem t i) = some (addrOf (k.mem t i)) :=
  link_eq_some.mpr ⟨hP, h.upper hp ht i hP, rfl⟩

theorem link_absent (h : has e ptePresent = false) : link e = none := by
  rw [link, h]
  rfl

/-- **`vmm_get_physical_in` reads the entry of the page.** -/
theorem getPhysical_eq {cr3 : Word} (h : WellFormed k (addrOf cr3)) (h0 : addrOf cr3 ≠ 0#64)
    (a : Word) : vmmGetPhysicalIn k.mem cr3 a = physOf (entryOf k.mem (addrOf cr3) a) a := by
  have hzero : physOf 0#64 a = 0#64 := rfl
  have hroot : tableOf k.mem (addrOf cr3) [] = some (addrOf cr3) := rfl
  have hpath : [pml4Index a, pdptIndex a] = [] ++ [pml4Index a] ++ [pdptIndex a] := rfl
  rw [vmmGetPhysicalIn, entryOf, hpath]
  simp only [if_neg h0]
  cases h4 : has (k.mem (addrOf cr3) (pml4Index a)) ptePresent with
  | false =>
    rw [pages_of_none (tableOf_snoc_none ((tableOf_snoc hroot _).trans (link_absent h4)) _)]
    exact hzero.symm
  | true =>
    simp only [Bool.not_true, Bool.false_eq_true, if_false]
    have ht3 := (tableOf_snoc hroot (pml4Index a)).trans (h.link_upper (by decide) hroot h4)
    cases h3 : has (k.mem _ (pdptIndex a)) ptePresent with
    | false =>
      rw [pages_of_none ((tableOf_snoc ht3 _).trans (link_absent h3))]
      exact hzero.symm
    | true =>
      simp only [Bool.not_true, Bool.false_eq_true, if_false]
      have ht2 := (tableOf_snoc ht3 (pdptIndex a)).trans (h.link_upper (by simp) ht3 h3)
      rw [pages_of_some ht2]
      cases h2 : has (k.mem _ (pdIndex a)) ptePresent with
      | false =>
        rw [below_absent h2]
        exact hzero.symm
      | true =>
        simp only [Bool.not_true, Bool.false_eq_true, if_false]
        cases hH : has (k.mem _ (pdIndex a)) pteHuge with
        | true =>
          obtain ⟨hal, -⟩ := h.huge (by simp) ht2 _ h2 hH
          rw [below_huge h2 hH, physOf_split h2 hal]
          rfl
        | false =>
          rw [below_table (link_eq_some.mpr ⟨h2, hH, rfl⟩), physOf]
          cases has (k.mem _ (ptIndex a)) ptePresent <;> rfl

/-- An entry that is open to user mode is in a page table, below open entries. -/
theorem WellFormed.open_entry (h : WellFormed k r) {a : Word}
    (hu : presentUser (entryOf k.mem r a)) :
    ∃ t3 t2 t1, link (k.mem r (pml4Index a)) = some t3 ∧
      link (k.mem t3 (pdptIndex a)) = some t2 ∧ link (k.mem t2 (pdIndex a)) = some t1 ∧
      entryOf k.mem r a = k.mem t1 (ptIndex a) ∧
      Opened k.mem r [pml4Index a, pdptIndex a, pdIndex a] := by
  have hzero : presentUser 0#64 = false := by decide
  have hroot : tableOf k.mem r [] = some r := rfl
  have hpath : [pml4Index a, pdptIndex a] = [] ++ [pml4Index a] ++ [pdptIndex a] := rfl
  rw [entryOf] at hu ⊢
  cases ht2 : tableOf k.mem r [pml4Index a, pdptIndex a] with
  | none =>
    rw [pages_of_none ht2, hzero] at hu
    cases hu
  | some t2 =>
    rw [pages_of_some ht2] at hu ⊢
    obtain ⟨t3, ht3, hl3⟩ := nodeAt_parent (hpath ▸ ht2)
    cases h2 : has (k.mem t2 (pdIndex a)) ptePresent with
    | false =>
      rw [below_absent h2, hzero] at hu
      cases hu
    | true =>
      cases hH : has (k.mem t2 (pdIndex a)) pteHuge with
      | true =>
        obtain ⟨hal, hU⟩ := h.huge (by simp) ht2 _ h2 hH
        rw [below_huge h2 hH] at hu
        have hU' := (has_of_presentUser hu).2
        rw [has_splitTable (by decide) (by decide) hal, hU] at hU'
        cases hU'
      | false =>
        have hl2 := link_eq_some.mpr ⟨h2, hH, rfl⟩
        rw [below_table hl2] at hu ⊢
        have ht1 := (tableOf_snoc ht2 (pdIndex a)).trans hl2
        exact ⟨t3, t2, _, (tableOf_snoc hroot _).symm.trans ht3, hl3, hl2, rfl,
          h.user (by simp) ht1 _ hu⟩

theorem presentUser_eq (e : Word) : presentUser e = (has e ptePresent && has e pteUser) := by
  rw [Bool.eq_iff_iff, Bool.and_eq_true]
  exact ⟨has_of_presentUser, fun h => presentUser_of_has h.1 h.2⟩

/-- **`vmm_user_page_ok` reads the entry of the page.** -/
theorem userPageOk_eq {cr3 : Word} (h : WellFormed k (addrOf cr3)) (h0 : addrOf cr3 ≠ 0#64)
    (a : Word) : vmmUserPageOk k.mem cr3 a = presentUser (entryOf k.mem (addrOf cr3) a) := by
  have hroot : tableOf k.mem (addrOf cr3) [] = some (addrOf cr3) := rfl
  rw [Bool.eq_iff_iff]
  constructor
  · intro hok
    rw [vmmUserPageOk] at hok
    simp only [if_neg h0] at hok
    cases hu4 : presentUser (k.mem (addrOf cr3) (pml4Index a)) with
    | false => simp [hu4] at hok
    | true =>
      cases hu3 : presentUser (k.mem (addrOf (k.mem (addrOf cr3) (pml4Index a))) (pdptIndex a)) with
      | false => simp [hu4, hu3] at hok
      | true =>
        have h4 := h.link_upper (by decide) hroot (has_of_presentUser hu4).1
        have ht3 := (tableOf_snoc hroot _).trans h4
        have ht2 := (tableOf_snoc ht3 _).trans
          (h.link_upper (by simp) ht3 (has_of_presentUser hu3).1)
        simp only [hu4, hu3, Bool.not_true, Bool.false_eq_true, if_false] at hok
        generalize addrOf (k.mem (addrOf (k.mem (addrOf cr3) (pml4Index a))) (pdptIndex a)) = t2
          at hok ht2
        rw [entryOf,
          show [pml4Index a, pdptIndex a] = [] ++ [pml4Index a] ++ [pdptIndex a] from rfl,
          pages_of_some ht2]
        cases hu2 : presentUser (k.mem t2 (pdIndex a)) with
        | false => simp [hu2] at hok
        | true =>
          obtain ⟨h2, hU2⟩ := has_of_presentUser hu2
          simp only [hu2, Bool.not_true, Bool.false_eq_true, if_false] at hok
          cases hH : has (k.mem t2 (pdIndex a)) pteHuge with
          | true =>
            obtain ⟨-, hU⟩ := h.huge (by simp) ht2 _ h2 hH
            cases hU.symm.trans hU2
          | false =>
            rw [hH] at hok
            rw [below_table (link_eq_some.mpr ⟨h2, hH, rfl⟩)]
            exact hok
  · intro hu
    obtain ⟨t3, t2, t1, hl4, hl3, hl2, he, hopen⟩ := h.open_entry hu
    have ht3 := (tableOf_snoc hroot (pml4Index a)).trans hl4
    have ht2 := (tableOf_snoc ht3 (pdptIndex a)).trans hl3
    obtain ⟨hP4, -, ha4⟩ := link_eq_some.mp hl4
    obtain ⟨hP3, -, ha3⟩ := link_eq_some.mp hl3
    obtain ⟨hP2, hH2, ha2⟩ := link_eq_some.mp hl2
    have hU4 := hopen [] _ _ _ rfl hroot
    have hU3 := hopen [pml4Index a] _ _ _ rfl ht3
    have hU2 := hopen [pml4Index a, pdptIndex a] _ _ _ rfl ht2
    rw [he] at hu
    rw [vmmUserPageOk]
    simp only [if_neg h0, ha4, ha3, ha2, presentUser_of_has hP4 hU4, presentUser_of_has hP3 hU3,
      presentUser_of_has hP2 hU2, hH2, Bool.not_true, Bool.false_eq_true, if_false, hu]

/-! ## What a level changes -/

/-- From `k` to `k'` the hierarchy below `r` stays well formed and no page's entry
    changes. -/
structure Keeps (k k' : KState) (r : Word) : Prop where
  wf : WellFormed k' r
  pages : ∀ p i, p.length = 2 → pages k'.mem r p i = pages k.mem r p i

theorem Keeps.refl (h : WellFormed k r) : Keeps k k r := ⟨h, fun _ _ _ => rfl⟩

theorem Keeps.trans {k'' : KState} (h : Keeps k k' r) (h' : Keeps k' k'' r) : Keeps k k'' r :=
  ⟨h'.wf, fun p i hp => (h'.pages p i hp).trans (h.pages p i hp)⟩

theorem below_congr {m' : Mem} (h : ∀ c, link e = some c → m' c = m c) :
    below m' e = below m e := by
  cases hl : link e with
  | some c => rw [below_table hl, below_table hl, h c hl]
  | none =>
    rw [below, below]
    split
    · rename_i hP
      split
      · rfl
      · rename_i hH
        rw [link_eq_some.mpr ⟨hP, by simpa using hH, rfl⟩] at hl
        cases hl
    · rfl

/-- Tables at paths of different lengths are different. -/
theorem WellFormed.ne_of_length (h : WellFormed k r) {u : Word} (hp : p.length ≤ 3)
    (hq : q.length ≤ 3) (ht : tableOf k.mem r p = some t) (hu : tableOf k.mem r q = some u)
    (hne : p.length ≠ q.length) : u ≠ t := by
  rintro rfl
  exact hne (by rw [h.tree hp hq ht hu])

/-- Where the tables are as before, the paths and the entries are. -/
theorem pages_congr {m' : Mem} (hmem : ∀ q t, q.length ≤ 3 → tableOf m r q = some t → m' t = m t) :
    (∀ q, q.length ≤ 3 → tableOf m' r q = tableOf m r q) ∧
      ∀ p i, p.length = 2 → pages m' r p i = pages m r p i := by
  have htab : ∀ q, q.length ≤ 3 → tableOf m' r q = tableOf m r q := by
    intro q hq
    refine nodeAt_congr (fun q u hq hu j => ?_) hq
    rw [hmem q u (by omega) hu]
  refine ⟨htab, ?_⟩
  intro p i hp
  cases ht : tableOf m r p with
  | none => rw [pages_of_none ht, pages_of_none ((htab p (by omega)).trans ht)]
  | some t =>
    rw [pages_of_some ht, pages_of_some ((htab p (by omega)).trans ht), hmem p t (by omega) ht]
    exact below_congr fun c hc =>
      hmem (p ++ [i]) c (length_snoc_le (by omega)) ((tableOf_snoc ht i).trans hc)

/-- A hierarchy whose tables are as before is as before. -/
theorem WellFormed.congr (h : WellFormed k r)
    (hmem : ∀ q t, q.length ≤ 3 → tableOf k.mem r q = some t → k'.mem t = k.mem t)
    (hfresh : ∀ q t, q.length ≤ 3 → tableOf k.mem r q = some t → Taken k' t) :
    Keeps k k' r ∧ ∀ q, q.length ≤ 3 → tableOf k'.mem r q = tableOf k.mem r q := by
  obtain ⟨htab, hpages⟩ := pages_congr hmem
  refine ⟨⟨⟨?_, ?_, ?_, ?_, ?_⟩, hpages⟩, htab⟩
  · intro p q t hp hq ht hu
    rw [htab p hp] at ht
    rw [htab q hq] at hu
    exact h.tree hp hq ht hu
  · intro p t hp ht
    rw [htab p hp] at ht
    exact hfresh p t hp ht
  · intro p t hp ht i
    rw [htab p (by omega)] at ht
    rw [hmem p t (by omega) ht]
    exact h.upper hp ht i
  · intro p t hp ht i
    rw [htab p (by omega)] at ht
    rw [hmem p t (by omega) ht]
    exact h.huge hp ht i
  · intro p t hp ht j hu q i s u hpq hq
    have hlen : q.length < 3 := by
      rw [← hp, hpq, List.length_append, List.length_cons]
      omega
    rw [htab p (by omega)] at ht
    rw [htab q (by omega)] at hq
    rw [hmem p t (by omega) ht] at hu
    rw [hmem q u (by omega) hq]
    exact h.user hp ht j hu q i s u hpq hq

/-- Place `i` of the table `t` at path `p` is made to point to the table `c`, which
    holds what was below it: the table that was there, or a frame that was in no
    hierarchy. -/
structure Rewires (k k' : KState) (r : Word) (p : List Index) (t : Word) (i : Index) (c : Word) :
    Prop where
  before : WellFormed k r
  inside : p.length < 3
  place : tableOf k.mem r p = some t
  points : link (k'.mem t i) = some c
  body : k'.mem c = below k.mem (k.mem t i)
  rest : ∀ u j, u ≠ c → (u ≠ t ∨ j ≠ i) → k'.mem u j = k.mem u j
  new : link (k.mem t i) = some c ∨
    ∀ q u, q.length ≤ 3 → tableOf k.mem r q = some u → u ≠ c
  rights : link (k.mem t i) ≠ none → has (k.mem t i) pteUser → has (k'.mem t i) pteUser
  used : ∀ n, k.used n → k'.used n
  taken : Taken k' c

namespace Rewires

variable {u : Word} (hr : Rewires k k' r p t i c)

include hr

/-- The table below the place holds what it did. -/
theorem body_eq {s : Word} (hs : tableOf k.mem r (p ++ [i]) = some s) : k'.mem c = k.mem s := by
  rw [hr.body]
  exact below_table ((tableOf_snoc hr.place i).symm.trans hs)

/-- Where there was no table, no entry of the new one points anywhere, unless it
    is a page table. -/
theorem body_empty (hp2 : p.length < 2) (hs : tableOf k.mem r (p ++ [i]) = none) :
    k'.mem c = fun _ => 0#64 := by
  rw [hr.body]
  refine below_absent ?_
  rw [← Bool.not_eq_true]
  intro hP
  rw [tableOf_snoc hr.place, hr.before.link_upper hp2 hr.place hP] at hs
  cases hs

/-- The tables change as in a tree where one is replaced. -/
theorem replace : Replace link k.mem k'.mem 3 r p t i c where
  tree := hr.before.tree
  inside := hr.inside
  place := hr.place
  points := hr.points
  new := hr.new
  body s hs := hr.body_eq ((tableOf_snoc hr.place i).trans hs)
  leaf hs hp2 j := by
    rw [hr.body_empty (by omega) ((tableOf_snoc hr.place i).trans hs)]
    exact link_absent absent_zero
  rest := hr.rest

/-- The tables afterwards. -/
theorem tables (hq : q.length ≤ 3) :
    tableOf k'.mem r q = if q = p ++ [i] then some c else tableOf k.mem r q :=
  hr.replace.nodes hq

theorem table_new : tableOf k'.mem r (p ++ [i]) = some c :=
  (hr.tables (length_snoc_le hr.inside)).trans (if_pos rfl)

/-- Paths that were open still are. -/
theorem opened (hq : q.length ≤ 3) (hu : tableOf k.mem r q = some u) (hopen : Opened k.mem r q) :
    Opened k'.mem r q := by
  rintro w y s v hqw hv
  have hlen : w.length < q.length := by
    rw [hqw, List.length_append, List.length_cons]
    omega
  -- the table of the path so far existed before
  obtain ⟨v₀, hv₀⟩ : ∃ v₀, tableOf k.mem r w = some v₀ :=
    nodeAt_of_append (hqw ▸ hu)
  have hU := hopen w y s v₀ hqw hv₀
  rcases hr.replace.value_cases (by omega) hv y with ⟨s, hs, heq⟩ | ⟨rfl, rfl, rfl⟩ | hnew
  · rw [heq, Option.mem_unique hs hv₀]
    exact hU
  · refine hr.rights ?_ (Option.mem_unique hv₀ hr.place ▸ hU)
    obtain ⟨x, hx⟩ : ∃ x, tableOf k.mem r (w ++ [y]) = some x := by
      refine nodeAt_of_append (q := s) (u := u) ?_
      rwa [List.append_assoc, List.singleton_append, ← hqw]
    rw [← tableOf_snoc hr.place, hx]
    exact Option.some_ne_none x
  · cases hnew.2.2.symm.trans hv₀

/-- The hierarchy stays well formed. -/
theorem wf : WellFormed k' r := by
  have h := hr.before
  have hp := hr.inside
  have hrep := hr.replace
  obtain ⟨-, hH, -⟩ := link_eq_some.mp hr.points
  refine ⟨hrep.tree_after, ?_, ?_, ?_, ?_⟩
  · intro q u hq hu
    rcases hrep.node_cases hq hu with ⟨-, rfl⟩ | ⟨-, hu⟩
    · exact hr.taken
    · exact (h.fresh hq hu).mono hr.used
  · intro q u hq hu j hP
    rcases hrep.value_cases (by omega) hu j with ⟨s, hs, heq⟩ | ⟨rfl, rfl, rfl⟩ | ⟨rfl, rfl, hs⟩
    · rw [heq] at hP ⊢
      exact h.upper hq hs j hP
    · exact hH
    · rw [length_snoc] at hq
      rw [hr.body_empty (by omega) hs] at hP
      cases absent_zero.symm.trans hP
  · intro q u hq hu j hP hHuge
    rcases hrep.value_cases (by omega) hu j with ⟨s, hs, heq⟩ | ⟨rfl, rfl, rfl⟩ | ⟨rfl, rfl, hs⟩
    · rw [heq] at hP hHuge ⊢
      exact h.huge hq hs j hP hHuge
    · cases hH.symm.trans hHuge
    · rw [length_snoc] at hq
      rw [hr.body_empty (by omega) hs] at hP
      cases absent_zero.symm.trans hP
  · intro q u hq hu j hopen
    rcases hrep.value_cases (by omega) hu j with ⟨s, hs, heq⟩ | ⟨rfl, rfl, rfl⟩ | ⟨rfl, rfl, hs⟩
    · rw [heq] at hopen
      exact hr.opened (by omega) hs (h.user hq hs j hopen)
    · omega
    · -- the parts of a 2 MB page are closed to user mode
      rw [length_snoc] at hq
      rw [hr.body] at hopen
      have hlink : link (k.mem t i) = none := (tableOf_snoc hr.place i).symm.trans hs
      cases hP : has (k.mem t i) ptePresent with
      | false =>
        rw [below_absent hP] at hopen
        cases absent_zero.symm.trans (has_of_presentUser hopen).1
      | true =>
        cases hHuge : has (k.mem t i) pteHuge with
        | false => cases (link_eq_some.mpr ⟨hP, hHuge, rfl⟩).symm.trans hlink
        | true =>
          obtain ⟨hal, hU⟩ := h.huge (by omega) hr.place i hP hHuge
          rw [below_huge hP hHuge] at hopen
          have hU' := (has_of_presentUser hopen).2
          rw [has_splitTable (by decide) (by decide) hal, hU] at hU'
          cases hU'

/-- **Rewiring a place changes no page's entry.** -/
theorem keeps : Keeps k k' r := by
  have hp := hr.inside
  refine ⟨hr.wf, ?_⟩
  intro q j hq
  -- page tables are not touched
  have hbelow : ∀ u, tableOf k.mem r q = some u → (q ≠ p ∨ j ≠ i) →
      below k'.mem (k.mem u j) = below k.mem (k.mem u j) := by
    intro u hu hplace
    refine below_congr fun d hd => ?_
    have hlen : (q ++ [j]).length = 3 := by
      rw [length_snoc, hq]
    have hne : q ++ [j] ≠ p ++ [i] := by
      intro heq
      obtain ⟨rfl, rfl⟩ := List.append_singleton_inj.mp heq
      exact hplace.elim (· rfl) (· rfl)
    funext x
    refine hr.replace.value (by omega) ((tableOf_snoc hu j).trans hd) hne (.inl ?_)
    rintro rfl
    omega
  have htab := hr.tables (q := q) (by omega)
  by_cases hnew : q = p ++ [i]
  · rw [if_pos hnew] at htab
    have hp1 : p.length < 2 := by
      rw [hnew, length_snoc] at hq
      omega
    have hqp : q ≠ p := by
      rintro rfl
      omega
    rw [pages_of_some htab]
    cases hs : tableOf k.mem r q with
    | some s =>
      rw [pages_of_some hs, hr.body_eq (hnew ▸ hs)]
      exact hbelow s hs (.inl hqp)
    | none =>
      rw [pages_of_none hs, hr.body_empty hp1 (hnew ▸ hs)]
      exact below_absent absent_zero
  · rw [if_neg hnew] at htab
    cases hu : tableOf k.mem r q with
    | none => rw [pages_of_none (htab.trans hu), pages_of_none hu]
    | some u =>
      rw [pages_of_some (htab.trans hu), pages_of_some hu]
      by_cases hplace : q = p ∧ j = i
      · obtain ⟨rfl, rfl⟩ := hplace
        obtain rfl : u = t := Option.mem_unique hu hr.place
        rw [below_table hr.points, hr.body]
      · rw [hr.replace.value (by omega) hu hnew (not_and_or.mp hplace)]
        exact hbelow u hu (not_and_or.mp hplace)

end Rewires

end PageTree
