import Mathlib.Tactic

/-! # Four-level page tables — words, indices and the hardware's walk

    A page-table entry is a 64-bit word: an address in bits 12 to 51 and flags in
    the others.  Tables live in physical memory, which is a table of 512 words
    for every page address; the kernel reaches them by physical address because
    it runs identity-mapped.

    The bit lemmas below are the only place where words are taken apart: the
    address of an entry and its flags are independent, so every store the kernel
    makes is described by what it does to the address and to each flag. -/

namespace Paging

abbrev Word := BitVec 64

variable {f e : Word} (a : Word) (m : Mem)

/-- The nine bits that select an entry of a table. -/
abbrev Index := BitVec 9

abbrev Table := Index → Word

/-- Physical memory, page by page. -/
abbrev Mem := Word → Table

/-- One word stored. -/
def Mem.set (m : Mem) (t : Word) (i : Index) (e : Word) : Mem :=
  fun t' i' => if t' = t ∧ i' = i then e else m t' i'

/-- One whole page stored. -/
def Mem.setPage (m : Mem) (t : Word) (p : Table) : Mem := fun t' => if t' = t then p else m t'

theorem Mem.set_same (t : Word) (i : Index) (e : Word) : m.set t i e t i = e :=
  if_pos ⟨rfl, rfl⟩

theorem Mem.set_table {t t' : Word} (i i' : Index) (e : Word) (h : t' ≠ t) :
    m.set t i e t' i' = m t' i' := if_neg fun hc => h hc.1

theorem Mem.set_index (t t' : Word) {i i' : Index} (e : Word) (h : i' ≠ i) :
    m.set t i e t' i' = m t' i' := if_neg fun hc => h hc.2

theorem Mem.setPage_same (t : Word) (p : Table) : m.setPage t p t = p := if_pos rfl

theorem Mem.setPage_other {t t' : Word} (p : Table) (h : t' ≠ t) :
    m.setPage t p t' = m t' := if_neg h

/-! ## Flags and indices -/

def ptePresent : Word := 1#64 <<< 0
def pteWritable : Word := 1#64 <<< 1
def pteUser : Word := 1#64 <<< 2
def pteHuge : Word := 1#64 <<< 7
def pteNx : Word := 1#64 <<< 63

/-- The software bit that marks a table owned by one address space. -/
def ptePrivateTable : Word := 1#64 <<< 9

def pteAddrMask : Word := 0x000FFFFFFFFFF000#64

def pageSize : Nat := 4096

def pml4Index (a : Word) : Index := ((a >>> 39) &&& 0x1FF#64).setWidth 9
def pdptIndex (a : Word) : Index := ((a >>> 30) &&& 0x1FF#64).setWidth 9
def pdIndex (a : Word) : Index := ((a >>> 21) &&& 0x1FF#64).setWidth 9
def ptIndex (a : Word) : Index := ((a >>> 12) &&& 0x1FF#64).setWidth 9

/-- The test `e & flag`. -/
def has (e flag : Word) : Bool := e &&& flag != 0#64

/-- The address an entry holds. -/
def addrOf (e : Word) : Word := e &&& pteAddrMask

/-- `a & ~(PAGE_SIZE - 1)`. -/
def pageOf (a : Word) : Word := a &&& ~~~0xFFF#64

/-! ## Entries as an address and flags -/

/-- A page-aligned address that fits an entry. -/
def IsPage (p : Word) : Prop := addrOf p = p

instance (p : Word) : Decidable (IsPage p) := inferInstanceAs (Decidable (_ = _))

/-- A word with flags only. -/
def IsFlags (f : Word) : Prop := addrOf f = 0#64

instance (f : Word) : Decidable (IsFlags f) := inferInstanceAs (Decidable (_ = _))

theorem addrOf_or (a b : Word) : addrOf (a ||| b) = addrOf a ||| addrOf b :=
  BitVec.and_or_distrib_right

theorem addrOf_not_mask (e : Word) : IsFlags (e &&& ~~~pteAddrMask) := by
  rw [IsFlags, addrOf, BitVec.and_assoc, show ~~~pteAddrMask &&& pteAddrMask = 0#64 by decide]
  exact BitVec.and_zero

theorem isPage_addrOf (e : Word) : IsPage (addrOf e) := by
  rw [IsPage, addrOf, addrOf, BitVec.and_assoc, BitVec.and_self]

theorem IsFlags.or {g : Word} (hf : IsFlags f) (hg : IsFlags g) : IsFlags (f ||| g) := by
  rw [IsFlags, addrOf_or, hf, hg, BitVec.or_zero]

/-- The address of an entry built from a page and flags. -/
theorem addrOf_page_or {p : Word} (hp : IsPage p) (hf : IsFlags f) : addrOf (p ||| f) = p := by
  rw [addrOf_or, hp, hf, BitVec.or_zero]

/-- More flags do not change the address. -/
theorem addrOf_or_flags (hf : IsFlags f) : addrOf (e ||| f) = addrOf e := by
  rw [addrOf_or, hf, BitVec.or_zero]

theorem has_or (a b f : Word) : has (a ||| b) f = (has a f || has b f) := by
  have h : ∀ x y : Word, (x ||| y != 0#64) = (x != 0#64 || y != 0#64) := by
    intro x y
    rw [Bool.eq_iff_iff]
    simp only [bne_iff_ne, ne_eq, BitVec.or_eq_zero_iff, Bool.or_eq_true]
    tauto
  rw [has, BitVec.and_or_distrib_right, h]
  rfl

/-- A page address carries no flag. -/
theorem has_page {p : Word} (hp : IsPage p) (hf : IsFlags f) : has p f = false := by
  have h : p &&& f = 0#64 := by
    rw [← show addrOf p = p from hp, addrOf, BitVec.and_assoc, BitVec.and_comm pteAddrMask,
      show f &&& pteAddrMask = 0#64 from hf, BitVec.and_zero]
  simp [has, h]

/-- Clearing the address keeps the flags. -/
theorem has_not_mask (hf : IsFlags f) : has (e &&& ~~~pteAddrMask) f = has e f := by
  have h : ~~~pteAddrMask &&& f = f := by
    have hall : (pteAddrMask ||| ~~~pteAddrMask) &&& f = f := by
      rw [show pteAddrMask ||| ~~~pteAddrMask = BitVec.allOnes 64 by decide, BitVec.allOnes_and]
    rw [BitVec.and_or_distrib_right, BitVec.and_comm pteAddrMask f,
      show f &&& pteAddrMask = 0#64 from hf, BitVec.zero_or] at hall
    exact hall
  rw [has, has, BitVec.and_assoc, h]

theorem has_twoPow {k : Nat} (h : has e (1#64 <<< k)) : e &&& 1#64 <<< k = 1#64 <<< k := by
  have hand : e &&& 1#64 <<< k = if e.getLsbD k then BitVec.twoPow 64 k else 0#64 :=
    BitVec.and_twoPow e k
  rw [hand]
  by_cases hb : e.getLsbD k
  · rw [if_pos hb]
    rfl
  · rw [has, hand, if_neg hb] at h
    simp at h

/-- The kernel's combined test is the two tests. -/
theorem present_user_iff (e : Word) : e &&& (ptePresent ||| pteUser) = ptePresent ||| pteUser ↔
      has e ptePresent ∧ has e pteUser := by
  constructor
  · intro h
    have key : ∀ f, (ptePresent ||| pteUser) &&& f = f → f ≠ 0#64 → has e f := by
      intro f hf hne
      have : e &&& f = f := by
        rw [← hf, ← BitVec.and_assoc, h]
      simp [has, this, hne]
    exact ⟨key _ (by decide) (by decide), key _ (by decide) (by decide)⟩
  · rintro ⟨hp, hu⟩
    rw [BitVec.and_or_distrib_left, show e &&& ptePresent = ptePresent from has_twoPow hp,
      show e &&& pteUser = pteUser from has_twoPow hu]

/-! ## Addresses as numbers -/

theorem toNat_low9 (n : Nat) :
    (((a >>> n) &&& 0x1FF#64).setWidth 9).toNat = a.toNat / 2 ^ n % 512 := by
  have h : ((a >>> n) &&& 0x1FF#64).toNat = a.toNat / 2 ^ n % 512 := by
    rw [BitVec.toNat_and, BitVec.toNat_ushiftRight, Nat.shiftRight_eq_div_pow]
    exact Nat.and_two_pow_sub_one_eq_mod _ 9
  rw [BitVec.toNat_setWidth, h]
  omega

theorem toNat_offset : (a &&& 0xFFF#64).toNat = a.toNat % 4096 := by
  rw [BitVec.toNat_and]
  exact Nat.and_two_pow_sub_one_eq_mod _ 12

/-- A word is its page and its offset. -/
theorem pageOf_add_offset : pageOf a + (a &&& 0xFFF#64) = a := by
  have hz : (a &&& ~~~0xFFF#64) &&& (a &&& 0xFFF#64) = 0#64 := by
    rw [BitVec.and_comm a (0xFFF#64), BitVec.and_assoc, ← BitVec.and_assoc _ (0xFFF#64),
      show ~~~0xFFF#64 &&& 0xFFF#64 = 0#64 by decide, BitVec.zero_and, BitVec.and_zero]
  rw [pageOf, BitVec.add_eq_or_of_and_eq_zero _ _ hz, ← BitVec.and_or_distrib_left,
    show ~~~0xFFF#64 ||| 0xFFF#64 = BitVec.allOnes 64 by decide, BitVec.and_allOnes]

theorem toNat_pageOf : (pageOf a).toNat = a.toNat - a.toNat % 4096 := by
  have hsum := congrArg BitVec.toNat (pageOf_add_offset a)
  rw [BitVec.toNat_add, toNat_offset] at hsum
  have hle : (pageOf a).toNat ≤ a.toNat := by
    rw [pageOf, BitVec.toNat_and]
    exact Nat.and_le_left
  have := a.isLt
  omega

/-- Two addresses with the same bits 12 to 47 have the same indices. -/
theorem index_congr {a b : Word} (h : a.toNat / 4096 % 2 ^ 36 = b.toNat / 4096 % 2 ^ 36) :
    pml4Index a = pml4Index b ∧ pdptIndex a = pdptIndex b ∧
      pdIndex a = pdIndex b ∧ ptIndex a = ptIndex b := by
  refine ⟨?_, ?_, ?_, ?_⟩ <;> apply BitVec.eq_of_toNat_eq
  · rw [pml4Index, pml4Index, toNat_low9, toNat_low9]
    omega
  · rw [pdptIndex, pdptIndex, toNat_low9, toNat_low9]
    omega
  · rw [pdIndex, pdIndex, toNat_low9, toNat_low9]
    omega
  · rw [ptIndex, ptIndex, toNat_low9, toNat_low9]
    omega

/-- The indices of an address are those of its page. -/
theorem index_pageOf :
    pml4Index (pageOf a) = pml4Index a ∧ pdptIndex (pageOf a) = pdptIndex a ∧
      pdIndex (pageOf a) = pdIndex a ∧ ptIndex (pageOf a) = ptIndex a :=
  index_congr (by rw [toNat_pageOf]; omega)

theorem toNat_addrOf : (addrOf a).toNat = (a.toNat - a.toNat % 4096) % 2 ^ 52 := by
  have hsplit : addrOf a = pageOf a &&& 0xFFFFFFFFFFFFF#64 := by
    rw [addrOf, pageOf, BitVec.and_assoc]
    exact congrArg _ (by decide)
  rw [hsplit, BitVec.toNat_and, toNat_pageOf]
  exact Nat.and_two_pow_sub_one_eq_mod _ 52

/-- The indices of an address are those of the page an entry would hold. -/
theorem index_addrOf :
    pml4Index (addrOf a) = pml4Index a ∧ pdptIndex (addrOf a) = pdptIndex a ∧
      pdIndex (addrOf a) = pdIndex a ∧ ptIndex (addrOf a) = ptIndex a :=
  index_congr (by rw [toNat_addrOf]; omega)

theorem isPage_of_toNat {a : Word} (h : a.toNat % 4096 = 0) (hlt : a.toNat < 2 ^ 52) :
    IsPage a := by
  apply BitVec.eq_of_toNat_eq
  rw [toNat_addrOf]
  omega

/-! ## What the hardware allows -/

/-- Bits 47 to 63 are equal. -/
def Canonical (a : Word) : Prop := a.toNat < 2 ^ 47 ∨ 2 ^ 64 - 2 ^ 47 ≤ a.toNat

instance (a : Word) : Decidable (Canonical a) := inferInstanceAs (Decidable (_ ∨ _))

/-- An address within a page. -/
theorem pageOf_page_add (hf : IsPage f) (v : Word) : pageOf (f + (v &&& 0xFFF#64)) = f := by
  have hfa := congrArg BitVec.toNat (show addrOf f = f from hf)
  rw [toNat_addrOf] at hfa
  have hlt := f.isLt
  have hmod : f.toNat % 4096 = 0 := by omega
  have hsmall : f.toNat < 2 ^ 52 := by omega
  apply BitVec.eq_of_toNat_eq
  rw [toNat_pageOf, BitVec.toNat_add, toNat_offset]
  omega

/-- The entries the hardware reads on its way to `a`: four of them, or three when
    the page directory maps a 2 MB page. -/
def walk (m : Mem) (cr3 a : Word) : List Word :=
  let e4 := m (addrOf cr3) (pml4Index a)
  let e3 := m (addrOf e4) (pdptIndex a)
  let e2 := m (addrOf e3) (pdIndex a)
  if has e2 pteHuge then [e4, e3, e2] else [e4, e3, e2, m (addrOf e2) (ptIndex a)]

/-- Ring 3 may access `a`: it is canonical, and every entry on the way to it is
    present and marked user. -/
def Ring3Access (m : Mem) (cr3 a : Word) : Prop :=
  Canonical a ∧ ∀ e ∈ walk m cr3 a, has e ptePresent ∧ has e pteUser

/-- The hardware's translation of `a`: the physical address, and whether every
    level is marked user.  A 2 MB page is a leaf of the page directory. -/
def translate (m : Mem) (cr3 a : Word) : Option (Word × Bool) :=
  let e4 := m (addrOf cr3) (pml4Index a)
  if !has e4 ptePresent then none else
  let e3 := m (addrOf e4) (pdptIndex a)
  if !has e3 ptePresent then none else
  let e2 := m (addrOf e3) (pdIndex a)
  if !has e2 ptePresent then none else
  if has e2 pteHuge then
    some (addrOf e2 + (a &&& 0x1FFFFF#64), has e4 pteUser && has e3 pteUser && has e2 pteUser)
  else
  let e1 := m (addrOf e2) (ptIndex a)
  if !has e1 ptePresent then none
  else some (addrOf e1 + (a &&& 0xFFF#64),
    has e4 pteUser && has e3 pteUser && has e2 pteUser && has e1 pteUser)

end Paging
