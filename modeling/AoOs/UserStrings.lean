import AoOs.UserPointer

/-! # User strings — the contract of `vmm_user_strlen`

    The comment above `vmm_user_strlen` promises the length of a string of up to
    and including `max_len` bytes, the NUL not counted, and that no byte outside a
    user-accessible page is touched.  The loop stops one byte short: it never
    looks at byte `max_len`, so a string of exactly that length is refused.

    The contract is compared with the code for every address space, memory, start
    and limit (`strlenContract_iff`).  Its one other condition is that of every
    user pointer: the page walk does not look at bits 48 to 63. -/

namespace UserPointer

open Paging Vmm

variable {n : Nat} {a : Word}

variable {m : Mem} {cr3 virt maxLen : Word}

/-! ## What is returned and what is read -/

/-- The result of `vmm_user_strlen`, a `long`: `(long)i`, or -1. -/
def vmmUserStrlenLong (m : Mem) (cr3 virt maxLen : Word) : Int :=
  match vmmUserStrlen m cr3 virt maxLen.toNat with
  | some i => (BitVec.ofNat 64 i).toInt
  | none => -1

/-- The bytes the loop of `vmm_user_strlen` reads, in order. -/
def strlenLoopReads (m : Mem) (cr3 virt : Word) : Nat → Nat → Word → List Word
  | 0, _, _ => []
  | n + 1, i, page =>
    let addr := virt + BitVec.ofNat 64 i
    if pageOf addr ≠ page ∧ vmmUserPageOk m cr3 (pageOf addr) = false then []
    else if loadByte m cr3 addr = 0#8 then [addr]
    else addr :: strlenLoopReads m cr3 virt n (i + 1) (pageOf addr)

/-- The bytes `vmm_user_strlen` reads. -/
def strlenReads (m : Mem) (cr3 virt maxLen : Word) : List Word :=
  if !vmmUserPageOk m cr3 (pageOf virt) then []
  else strlenLoopReads m cr3 virt maxLen.toNat 0 (pageOf virt)

/-- The scan that starts at byte `i` comes to byte `k`: every byte up to it is on
    a page that passes the walk, and no earlier one is NUL. -/
structure Scanned (m : Mem) (cr3 virt : Word) (i k : Nat) : Prop where
  mapped : ∀ j, i ≤ j → j ≤ k → vmmUserPageOk m cr3 (charAddr virt j)
  nonzero : ∀ j, i ≤ j → j < k → loadByte m cr3 (charAddr virt j) ≠ 0#8

theorem Scanned.next {i k : Nat} (h : Scanned m cr3 virt i k) : Scanned m cr3 virt (i + 1) k :=
  ⟨fun j hj hk => h.mapped j (by omega) hk, fun j hj hk => h.nonzero j (by omega) hk⟩

theorem mem_strlenLoopReads {i : Nat} {page : Word} (hpage : vmmUserPageOk m cr3 page) :
    a ∈ strlenLoopReads m cr3 virt n i page ↔
      ∃ k, i ≤ k ∧ k < i + n ∧ Scanned m cr3 virt i k ∧ a = charAddr virt k := by
  induction n generalizing i page with
  | zero =>
    refine ⟨fun h => (by cases h), ?_⟩
    rintro ⟨k, h1, h2, -⟩
    omega
  | succ n ih =>
    rw [strlenLoopReads, ← charAddr]
    by_cases hok : vmmUserPageOk m cr3 (charAddr virt i)
    · have hok' : vmmUserPageOk m cr3 (pageOf (charAddr virt i)) := by
        rwa [vmmUserPageOk_pageOf]
      have hhere : Scanned m cr3 virt i i := by
        refine ⟨fun j h1 h2 => ?_, fun j h1 h2 => by omega⟩
        rwa [show j = i by omega]
      rw [if_neg (by simp [hok'])]
      by_cases hz : loadByte m cr3 (charAddr virt i) = 0#8
      · rw [if_pos hz, List.mem_singleton]
        refine ⟨fun h => ⟨i, Nat.le_refl _, by omega, hhere, h⟩, ?_⟩
        rintro ⟨k, hle, -, hs, rfl⟩
        by_cases hik : i = k
        · rw [hik]
        · exact absurd hz (hs.nonzero i (Nat.le_refl _) (by omega))
      · rw [if_neg hz, List.mem_cons, ih hok']
        constructor
        · rintro (h | ⟨k, hle, hlt, hs, ha⟩)
          · exact ⟨i, Nat.le_refl _, by omega, hhere, h⟩
          · refine ⟨k, by omega, by omega, ⟨fun j h1 h2 => ?_, fun j h1 h2 => ?_⟩, ha⟩
            · by_cases hj : j = i
              · rwa [hj]
              · exact hs.mapped j (by omega) h2
            · by_cases hj : j = i
              · rwa [hj]
              · exact hs.nonzero j (by omega) h2
        · rintro ⟨k, hle, hlt, hs, ha⟩
          by_cases hik : k = i
          · exact .inl (by rw [ha, hik])
          · exact .inr ⟨k, by omega, by omega, hs.next, ha⟩
    · have hne : pageOf (charAddr virt i) ≠ page := by
        rintro rfl
        rw [vmmUserPageOk_pageOf] at hpage
        exact hok hpage
      rw [if_pos ⟨hne, by rw [vmmUserPageOk_pageOf]; simpa using hok⟩]
      refine ⟨fun h => (by cases h), ?_⟩
      rintro ⟨k, hle, hlt, hs, -⟩
      exact absurd (hs.mapped i (Nat.le_refl _) hle) hok

/-- **The bytes read**: those the scan comes to below the limit. -/
theorem mem_strlenReads (m : Mem) (cr3 virt maxLen a : Word) : a ∈ strlenReads m cr3 virt maxLen ↔
      ∃ k < maxLen.toNat, Scanned m cr3 virt 0 k ∧ a = charAddr virt k := by
  have h0 : charAddr virt 0 = virt := BitVec.add_zero virt
  rw [strlenReads]
  by_cases hok : vmmUserPageOk m cr3 (pageOf virt)
  · rw [hok]
    simp [mem_strlenLoopReads hok]
  · rw [if_pos (by simpa using hok)]
    refine ⟨nofun, ?_⟩
    rintro ⟨k, -, hs, -⟩
    have := hs.mapped 0 (Nat.le_refl _) (Nat.zero_le _)
    rw [h0, ← vmmUserPageOk_pageOf] at this
    exact absurd this hok

/-! ## Lengths are not negative -/

/-- Addresses that differ above bit 47 only are read alike. -/
theorem loadByte_congr {b : Word} (h : a.toNat % 2 ^ 48 = b.toNat % 2 ^ 48) :
    loadByte m cr3 a = loadByte m cr3 b := by
  obtain ⟨h4, h3, h2, h1⟩ := index_congr (a := a) (b := b) (by omega)
  have hsmall : a &&& 0xFFF#64 = b &&& 0xFFF#64 := by
    apply BitVec.eq_of_toNat_eq
    rw [toNat_offset, toNat_offset]
    omega
  have hlarge : a &&& 0x1FFFFF#64 = b &&& 0x1FFFFF#64 := by
    have hlow (x : Word) : (x &&& 0x1FFFFF#64).toNat = x.toNat % 2 ^ 21 := by
      rw [BitVec.toNat_and]
      exact Nat.and_two_pow_sub_one_eq_mod _ 21
    apply BitVec.eq_of_toNat_eq
    rw [hlow, hlow]
    omega
  have hphys : vmmGetPhysicalIn m cr3 a = vmmGetPhysicalIn m cr3 b := by
    simp only [vmmGetPhysicalIn, h4, h3, h2, h1, hsmall, hlarge]
  rw [loadByte, loadByte, hphys]

/-- A string ends before its addresses repeat. -/
theorem UserString.lt (h : UserString m cr3 virt 0 n) : n < 2 ^ 48 := by
  by_contra hge
  have hsame : loadByte m cr3 (charAddr virt (n - 2 ^ 48)) = loadByte m cr3 (charAddr virt n) := by
    apply loadByte_congr
    rw [charAddr, charAddr, BitVec.toNat_add, BitVec.toNat_add, BitVec.toNat_ofNat,
      BitVec.toNat_ofNat]
    omega
  exact h.nonzero (n - 2 ^ 48) (Nat.zero_le _) (by omega) (hsame.trans h.nul)

theorem vmmUserStrlenLong_eq_iff (m : Mem) (cr3 virt maxLen : Word) (n : Nat) :
    vmmUserStrlenLong m cr3 virt maxLen = n ↔ n < maxLen.toNat ∧ UserString m cr3 virt 0 n := by
  rw [← vmmUserStrlen_iff, vmmUserStrlenLong]
  cases hlen : vmmUserStrlen m cr3 virt maxLen.toNat with
  | none =>
    refine ⟨fun h => ?_, nofun⟩
    have : (-1 : Int) = n := h
    omega
  | some i =>
    have hi := ((vmmUserStrlen_iff m cr3 virt _ i).mp hlen).2.lt
    have hint : (BitVec.ofNat 64 i).toInt = i := by
      rw [BitVec.toInt_eq_toNat_of_lt (by rw [BitVec.toNat_ofNat]; omega), BitVec.toNat_ofNat]
      omega
    show (BitVec.ofNat 64 i).toInt = n ↔ _
    rw [hint, Option.some.injEq]
    exact Int.ofNat_inj

/-! ## The contract -/

/-- The bytes at `virt` are a string of length `n` that ring 3 may read. -/
structure AccessibleString (m : Mem) (cr3 virt : Word) (n : Nat) : Prop where
  nonzero : ∀ k < n, loadByte m cr3 (charAddr virt k) ≠ 0#8
  nul : loadByte m cr3 (charAddr virt n) = 0#8
  accessible : ∀ k ≤ n, Ring3Access m cr3 (charAddr virt k)

/-- What the comment above `vmm_user_strlen` promises. -/
structure StrlenContract (m : Mem) (cr3 virt maxLen : Word) : Prop where
  length : ∀ n : Nat, vmmUserStrlenLong m cr3 virt maxLen = n ↔
    n ≤ maxLen.toNat ∧ AccessibleString m cr3 virt n
  refused : (¬ ∃ n ≤ maxLen.toNat, AccessibleString m cr3 virt n) →
    vmmUserStrlenLong m cr3 virt maxLen = -1
  reads : ∀ a ∈ strlenReads m cr3 virt maxLen, Ring3Access m cr3 a

/-- No string of exactly `max_len` bytes is at `virt`, and what the scan comes to
    is canonical. -/
structure BelowLimit (m : Mem) (cr3 virt maxLen : Word) : Prop where
  limit : ¬ AccessibleString m cr3 virt maxLen.toNat
  canonical : ∀ k < maxLen.toNat, Scanned m cr3 virt 0 k → Canonical (charAddr virt k)

theorem userPageOk_of_access (h0 : addrOf cr3 ≠ 0#64) (h : Ring3Access m cr3 a) :
    vmmUserPageOk m cr3 a :=
  (vmmUserPageOk_iff m cr3 a).mpr ⟨h0, h.2⟩

theorem AccessibleString.userString (h0 : addrOf cr3 ≠ 0#64) (h : AccessibleString m cr3 virt n) :
    UserString m cr3 virt 0 n :=
  ⟨fun k _ hk => userPageOk_of_access h0 (h.accessible k hk), fun k _ hk => h.nonzero k hk, h.nul⟩

theorem UserString.scanned {k : Nat} (h : UserString m cr3 virt 0 n) (hk : k ≤ n) :
    Scanned m cr3 virt 0 k :=
  ⟨fun j h1 h2 => h.mapped j h1 (by omega), fun j h1 h2 => h.nonzero j h1 (by omega)⟩

/-- Below the limit, what the loop finds is what the contract asks for. -/
theorem BelowLimit.userString_iff (h : BelowLimit m cr3 virt maxLen) (h0 : addrOf cr3 ≠ 0#64)
    (n : Nat) : (n < maxLen.toNat ∧ UserString m cr3 virt 0 n) ↔
      n ≤ maxLen.toNat ∧ AccessibleString m cr3 virt n := by
  constructor
  · rintro ⟨hn, hs⟩
    refine ⟨by omega, fun k hk => hs.nonzero k (Nat.zero_le _) hk, hs.nul, fun k hk => ?_⟩
    exact (ring3Access_iff (hs.mapped k (Nat.zero_le _) hk)).mpr
      (h.canonical k (by omega) (hs.scanned hk))
  · rintro ⟨hn, hs⟩
    have hne : n ≠ maxLen.toNat := fun heq => h.limit (heq ▸ hs)
    exact ⟨by omega, hs.userString h0⟩

/-- The loop ends before it has looked at byte `max_len`. -/
theorem StrlenContract.belowLimit (h : StrlenContract m cr3 virt maxLen) :
    BelowLimit m cr3 virt maxLen := by
  refine ⟨fun hs => ?_, fun k hk hscan => ?_⟩
  · have hret := (h.length maxLen.toNat).mpr ⟨Nat.le_refl _, hs⟩
    exact Nat.lt_irrefl _ ((vmmUserStrlenLong_eq_iff m cr3 virt maxLen _).mp hret).1
  · exact (h.reads _ ((mem_strlenReads m cr3 virt maxLen _).mpr ⟨k, hk, hscan, rfl⟩)).1

/-- **The contract of `vmm_user_strlen` is met exactly when** no string of just
    `max_len` bytes is at the start, and all of it that is scanned is canonical. -/
theorem strlenContract_iff (m : Mem) (cr3 virt maxLen : Word) (h0 : addrOf cr3 ≠ 0#64) :
    StrlenContract m cr3 virt maxLen ↔ BelowLimit m cr3 virt maxLen := by
  refine ⟨StrlenContract.belowLimit, fun h => ?_⟩
  have hlen : ∀ n : Nat, vmmUserStrlenLong m cr3 virt maxLen = n ↔
      n ≤ maxLen.toNat ∧ AccessibleString m cr3 virt n := fun n =>
    (vmmUserStrlenLong_eq_iff m cr3 virt maxLen n).trans (h.userString_iff h0 n)
  refine ⟨hlen, fun hnone => ?_, fun a ha => ?_⟩
  · rw [vmmUserStrlenLong]
    cases hr : vmmUserStrlen m cr3 virt maxLen.toNat with
    | none => rfl
    | some i =>
      exact absurd ⟨i, (h.userString_iff h0 i).mp ((vmmUserStrlen_iff m cr3 virt _ i).mp hr)⟩ hnone
  · obtain ⟨k, hk, hscan, rfl⟩ := (mem_strlenReads m cr3 virt maxLen a).mp ha
    exact (ring3Access_iff (hscan.mapped k (Nat.zero_le _) (Nat.le_refl _))).mpr
      (h.canonical k hk hscan)

/-- `onePage` with the text "ao" at 0x200000. -/
def twoChars : Mem := fun t i =>
  if t = 0x104000#64 ∧ i = 0#9 then 0x6F61#64 else onePage t i

/-- A limit of four bytes is enough for "ao". -/
theorem strlenContract_twoChars : StrlenContract twoChars 0x100000#64 0x200000#64 4#64 := by
  refine (strlenContract_iff _ _ _ _ (by decide)).mpr ⟨fun hs => ?_, fun k hk _ => ?_⟩
  · exact hs.nonzero 2 (by decide) (by decide)
  · have hk : k < 4 := hk
    interval_cases k <;> decide

/-- "ao" is refused by a limit of two bytes, and has the length two for any
    larger limit. -/
theorem vmmUserStrlen_refuses_limit : AccessibleString twoChars 0x100000#64 0x200000#64 2 ∧
      vmmUserStrlenLong twoChars 0x100000#64 0x200000#64 2#64 = -1 ∧
      vmmUserStrlenLong twoChars 0x100000#64 0x200000#64 3#64 = 2 ∧
      ¬ StrlenContract twoChars 0x100000#64 0x200000#64 2#64 := by
  have hs : AccessibleString twoChars 0x100000#64 0x200000#64 2 := by
    refine ⟨?_, by decide, ?_⟩
    · intro k hk
      interval_cases k <;> decide
    · intro k hk
      interval_cases k <;> exact (ring3Access_iff (by decide)).mpr (by decide)
  exact ⟨hs, by decide, by decide, fun h => h.belowLimit.limit hs⟩

end UserPointer
