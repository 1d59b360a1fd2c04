import AoOs.Vmm

/-! # User pointers — what `vmm_user_range_ok` lets through

    System calls validate the pointers they get from ring 3 with
    `vmm_user_range_ok` and `vmm_user_strlen`, and then dereference them.  Both
    walk the page tables; neither looks at bits 48 to 63 of the address.

    The two validators are characterised exactly (`vmmUserRangeOk_iff`,
    `vmmUserStrlen_iff`).  Hence validation is sound for an argument exactly when
    all of it that passes the walk is canonical, and it is not sound in general:
    a mapped page answers for every address that differs from its own in bits 48
    to 63 only. -/

namespace UserPointer

open Paging Vmm

variable {cr3 page : Word} {m : Mem} {n : Nat}

/-! ## The validators of `syscall.c` -/

/-- The fields of the calling process the validators read. -/
structure Caller where
  isUser : Bool
  cr3 : Word

/-- `SYSCALL_MAX_STR`. -/
def syscallMaxStr : Nat := 4096

/-- `user_buf_ok`. -/
def userBufOk (m : Mem) (p : Option Caller) (addr len : Word) : Option Bool :=
  if len = 0#64 then some true
  else match p with
    | none => some false
    | some p => if !p.isUser then some false else vmmUserRangeOk m p.cr3 addr len

/-- `user_str_len`; `none` is the result -1. -/
def userStrLen (m : Mem) (p : Option Caller) (addr : Word) : Option Nat :=
  match p with
  | none => none
  | some p => if !p.isUser then none else vmmUserStrlen m p.cr3 addr syscallMaxStr

/-- For a user process the validators are those of the memory manager. -/
theorem userStrLen_user (m : Mem) (cr3 addr : Word) :
    userStrLen m (some ⟨true, cr3⟩) addr = vmmUserStrlen m cr3 addr syscallMaxStr := by
  simp [userStrLen]

theorem userBufOk_user (m : Mem) {addr len : Word} (h : len ≠ 0#64) :
    userBufOk m (some ⟨true, cr3⟩) addr len = vmmUserRangeOk m cr3 addr len := by
  simp [userBufOk, h]

/-! ## One page -/

theorem presentUser_iff (e : Word) : presentUser e ↔ has e ptePresent ∧ has e pteUser := by
  rw [presentUser, beq_iff_eq]
  exact present_user_iff e

/-- `vmm_user_page_ok` is the hardware's walk, without its look at bits 48 to
    63. -/
theorem vmmUserPageOk_iff (m : Mem) (cr3 a : Word) : vmmUserPageOk m cr3 a ↔ addrOf cr3 ≠ 0#64 ∧
      ∀ e ∈ walk m cr3 a, has e ptePresent ∧ has e pteUser := by
  simp only [vmmUserPageOk, walk, ← presentUser_iff]
  by_cases h0 : addrOf cr3 = 0#64
  · simp [h0]
  · rw [if_neg h0]
    split
    · rename_i h
      split <;> simp_all
    · split
      · rename_i h
        split <;> simp_all
      · split
        · split <;> simp_all
        · split <;> simp_all

theorem vmmUserPageOk_pageOf (m : Mem) (cr3 a : Word) :
    vmmUserPageOk m cr3 (pageOf a) = vmmUserPageOk m cr3 a := by
  obtain ⟨h4, h3, h2, h1⟩ := index_pageOf a
  simp only [vmmUserPageOk, h4, h3, h2, h1]

/-! ## Ranges -/

/-- `a` is one of the bytes from `virt` to `virt + size`. -/
def InRange (virt size a : Word) : Prop :=
  virt.toNat ≤ a.toNat ∧ a.toNat < virt.toNat + size.toNat

/-- The range ends below the last page, and every page of it passes the walk. -/
def Mapped (m : Mem) (cr3 virt size : Word) : Prop :=
  virt.toNat + size.toNat ≤ 2 ^ 64 - 4096 ∧ ∀ a, InRange virt size a → vmmUserPageOk m cr3 a

theorem toNat_add_page (p : Word) :
    (p + BitVec.ofNat 64 pageSize).toNat = (p.toNat + 4096) % 2 ^ 64 := by
  rw [BitVec.toNat_add]
  rfl

/-- What a loop that ends with 1 has seen.  The cursor may have wrapped on the
    way; that adds pages, it skips none. -/
theorem rangeLoop_sound {stop : Word} (hal : page.toNat % 4096 = 0)
    (h : rangeLoop m cr3 stop n page = some true) :
    stop.toNat ≤ 2 ^ 64 - 4096 ∧ ∀ a : Word, page.toNat ≤ a.toNat → a.toNat < stop.toNat →
      vmmUserPageOk m cr3 a := by
  induction n generalizing page with
  | zero => cases h
  | succ n ih =>
    rw [rangeLoop] at h
    have hp := page.isLt
    split at h
    · split at h
      · cases h
      · rename_i hlt hok
        have hnext := toNat_add_page page
        obtain ⟨hstop, hrest⟩ := ih (by omega) h
        refine ⟨hstop, ?_⟩
        intro a hle ha
        by_cases hin : a.toNat < page.toNat + 4096
        · have hpage : pageOf a = page := by
            apply BitVec.eq_of_toNat_eq
            rw [toNat_pageOf]
            omega
          rw [← vmmUserPageOk_pageOf, hpage]
          simpa using hok
        · have := a.isLt
          exact hrest a (by omega) ha
    · rename_i hge
      have hge : stop.toNat ≤ page.toNat := Nat.not_lt.mp hge
      exact ⟨by omega, fun a hle ha => by omega⟩

/-- A loop over mapped pages below the last one ends with 1. -/
theorem rangeLoop_complete {stop : Word} (hstop : stop.toNat ≤ 2 ^ 64 - 4096)
    (hok : ∀ a : Word, page.toNat ≤ a.toNat → a.toNat < stop.toNat → vmmUserPageOk m cr3 a)
    (hn : stop.toNat ≤ page.toNat + n * 4096) : rangeLoop m cr3 stop (n + 1) page = some true := by
  induction n generalizing page with
  | zero =>
    have hge : ¬ page < stop := Nat.not_lt.mpr (by omega)
    rw [rangeLoop, if_neg hge]
  | succ n ih =>
    rw [rangeLoop]
    split
    · rename_i hlt
      have hlt : page.toNat < stop.toNat := hlt
      have hnext := toNat_add_page page
      rw [hok page (Nat.le_refl _) hlt]
      refine ih (fun a hle ha => hok a ?_ ha) ?_ <;> omega
    · rfl

/-- **`vmm_user_range_ok`, exactly.** -/
theorem vmmUserRangeOk_iff (m : Mem) (cr3 virt size : Word) :
    vmmUserRangeOk m cr3 virt size = some true ↔ 0 < size.toNat ∧ Mapped m cr3 virt size := by
  have hv := virt.isLt
  have hs := size.isLt
  have hsum : (virt + size).toNat = (virt.toNat + size.toNat) % 2 ^ 64 := BitVec.toNat_add ..
  have hpage := toNat_pageOf virt
  rw [vmmUserRangeOk]
  by_cases h0 : size = 0#64
  · subst h0
    simp
  · have hpos : 0 < size.toNat := Nat.pos_of_ne_zero fun h => h0 (BitVec.eq_of_toNat_eq h)
    rw [if_neg h0]
    by_cases hw : virt + size < virt
    · rw [if_pos hw]
      have hw : (virt + size).toNat < virt.toNat := hw
      refine ⟨nofun, fun hm => ?_⟩
      have := hm.2.1
      omega
    · rw [if_neg hw]
      have hw : virt.toNat ≤ (virt + size).toNat := Nat.not_lt.mp hw
      have hend : (virt + size).toNat = virt.toNat + size.toNat := by omega
      constructor
      · intro h
        obtain ⟨hstop, hall⟩ := rangeLoop_sound (by omega) h
        refine ⟨hpos, by omega, ?_⟩
        rintro a ⟨hle, hlt⟩
        exact hall a (by omega) (by omega)
      · rintro ⟨-, htop, hall⟩
        refine rangeLoop_complete (by omega) ?_ (by omega)
        intro a hle hlt
        by_cases hin : virt.toNat ≤ a.toNat
        · exact hall a ⟨hin, by omega⟩
        · -- below `virt`, but in its page
          have hsame : pageOf a = pageOf virt := by
            apply BitVec.eq_of_toNat_eq
            rw [toNat_pageOf a]
            omega
          rw [← vmmUserPageOk_pageOf, hsame, vmmUserPageOk_pageOf]
          exact hall virt ⟨Nat.le_refl _, by omega⟩

/-! ## Strings -/

/-- The address of the `k`-th byte of a string. -/
def charAddr (virt : Word) (k : Nat) : Word := virt + BitVec.ofNat 64 k

/-- The bytes from `i` to `n` of a string: all on pages that pass the walk, the
    last one NUL and no other. -/
structure UserString (m : Mem) (cr3 virt : Word) (i n : Nat) : Prop where
  mapped : ∀ k, i ≤ k → k ≤ n → vmmUserPageOk m cr3 (charAddr virt k)
  nonzero : ∀ k, i ≤ k → k < n → loadByte m cr3 (charAddr virt k) ≠ 0#8
  nul : loadByte m cr3 (charAddr virt n) = 0#8

theorem strlenLoop_iff {virt : Word} {i : Nat} {r : Nat} (hpage : vmmUserPageOk m cr3 page) :
    strlenLoop m cr3 virt n i page = some r ↔ i ≤ r ∧ r < i + n ∧ UserString m cr3 virt i r := by
  induction n generalizing i page with
  | zero =>
    refine ⟨nofun, ?_⟩
    rintro ⟨h1, h2, -⟩
    omega
  | succ n ih =>
    rw [strlenLoop, ← charAddr]
    -- the page of the next byte passes, or the loop ends here
    by_cases hok : vmmUserPageOk m cr3 (charAddr virt i)
    · have hok' : vmmUserPageOk m cr3 (pageOf (charAddr virt i)) := by
        rwa [vmmUserPageOk_pageOf]
      rw [if_neg (by simp [hok'])]
      by_cases hz : loadByte m cr3 (charAddr virt i) = 0#8
      · rw [if_pos hz]
        constructor
        · intro h
          obtain rfl : i = r := Option.some.inj h
          refine ⟨Nat.le_refl _, by omega, ?_, ?_, hz⟩
          · intro k h1 h2
            rwa [show k = i by omega]
          · intro k h1 h2
            omega
        · rintro ⟨hle, -, hs⟩
          by_cases hir : i = r
          · rw [hir]
          · exact absurd hz (hs.nonzero i (Nat.le_refl _) (by omega))
      · rw [if_neg hz, ih hok']
        constructor
        · rintro ⟨hle, hlt, hs⟩
          refine ⟨by omega, by omega, ?_, ?_, hs.nul⟩
          · intro k h1 h2
            by_cases hk : k = i
            · rwa [hk]
            · exact hs.mapped k (by omega) h2
          · intro k h1 h2
            by_cases hk : k = i
            · rwa [hk]
            · exact hs.nonzero k (by omega) h2
        · rintro ⟨hle, hlt, hs⟩
          have hir : i ≠ r := by
            rintro rfl
            exact hz hs.nul
          exact ⟨by omega, by omega, fun k h1 h2 => hs.mapped k (by omega) h2,
            fun k h1 h2 => hs.nonzero k (by omega) h2, hs.nul⟩
    · have hne : pageOf (charAddr virt i) ≠ page := by
        rintro rfl
        rw [vmmUserPageOk_pageOf] at hpage
        exact hok hpage
      rw [if_pos ⟨hne, by rw [vmmUserPageOk_pageOf]; simpa using hok⟩]
      refine ⟨nofun, ?_⟩
      rintro ⟨hle, hlt, hs⟩
      exact absurd (hs.mapped i (Nat.le_refl _) hle) hok

/-- **`vmm_user_strlen`, exactly.** -/
theorem vmmUserStrlen_iff (m : Mem) (cr3 virt : Word) (maxLen n : Nat) :
    vmmUserStrlen m cr3 virt maxLen = some n ↔ n < maxLen ∧ UserString m cr3 virt 0 n := by
  have h0 : charAddr virt 0 = virt := BitVec.add_zero virt
  rw [vmmUserStrlen]
  by_cases hok : vmmUserPageOk m cr3 (pageOf virt)
  · rw [hok]
    simp [strlenLoop_iff hok]
  · rw [if_pos (by simpa using hok)]
    refine ⟨nofun, ?_⟩
    rintro ⟨-, hs⟩
    have := hs.mapped 0 (Nat.le_refl _) (Nat.zero_le _)
    rw [h0, ← vmmUserPageOk_pageOf] at this
    exact absurd this hok

/-! ## Soundness -/

/-- What the system calls rely on, for one argument: a range or buffer that is
    accepted does not wrap and is accessible to ring 3 byte by byte, and so is a
    string whose length is returned, with its NUL. -/
structure ValidationSound (m : Mem) (cr3 virt size : Word) : Prop where
  range : vmmUserRangeOk m cr3 virt size = some true →
    0 < size.toNat ∧ virt.toNat + size.toNat < 2 ^ 64 ∧
      ∀ a, InRange virt size a → Ring3Access m cr3 a
  buffer : userBufOk m (some ⟨true, cr3⟩) virt size = some true →
    ∀ a, InRange virt size a → Ring3Access m cr3 a
  string : ∀ n, userStrLen m (some ⟨true, cr3⟩) virt = some n →
    ∀ k ≤ n, Ring3Access m cr3 (charAddr virt k)

/-- Whatever of the argument passes the walk is canonical. -/
structure CanonicalWhereMapped (m : Mem) (cr3 virt size : Word) : Prop where
  range : Mapped m cr3 virt size → ∀ a, InRange virt size a → Canonical a
  string : ∀ n < syscallMaxStr, UserString m cr3 virt 0 n → ∀ k ≤ n, Canonical (charAddr virt k)

/-- Ring 3 access is the walk and a canonical address. -/
theorem ring3Access_iff {a : Word} (h : vmmUserPageOk m cr3 a) :
    Ring3Access m cr3 a ↔ Canonical a :=
  and_iff_left ((vmmUserPageOk_iff m cr3 a).mp h).2

/-- Ring 3 may store to `a`. -/
def Ring3Store (m : Mem) (cr3 a : Word) : Prop :=
  Ring3Access m cr3 a ∧ ∀ e ∈ walk m cr3 a, has e pteWritable

/-- Ring 3 may execute what is at `a`. -/
def Ring3Fetch (m : Mem) (cr3 a : Word) : Prop :=
  Ring3Access m cr3 a ∧ ∀ e ∈ walk m cr3 a, has e pteNx = false

/-- **Validation is sound for an argument exactly when all of it that passes the
    walk is canonical.** -/
theorem validationSound_iff (m : Mem) (cr3 virt size : Word) :
    ValidationSound m cr3 virt size ↔ CanonicalWhereMapped m cr3 virt size := by
  constructor
  · rintro ⟨hrange, -, hstr⟩
    refine ⟨fun hm a ha => ?_, fun n hn hs k hk => ?_⟩
    · have hpos : 0 < size.toNat := by
        obtain ⟨h1, h2⟩ := ha
        omega
      have hok := (vmmUserRangeOk_iff m cr3 virt size).mpr ⟨hpos, hm⟩
      exact ((hrange hok).2.2 a ha).1
    · have hlen := (vmmUserStrlen_iff m cr3 virt _ n).mpr ⟨hn, hs⟩
      rw [← userStrLen_user] at hlen
      exact (hstr n hlen k hk).1
  · rintro ⟨hrange, hstr⟩
    have key : vmmUserRangeOk m cr3 virt size = some true →
        0 < size.toNat ∧ virt.toNat + size.toNat < 2 ^ 64 ∧
          ∀ a, InRange virt size a → Ring3Access m cr3 a := by
      intro h
      obtain ⟨hpos, hm⟩ := (vmmUserRangeOk_iff m cr3 virt size).mp h
      have htop := hm.1
      exact ⟨hpos, by omega, fun a ha => (ring3Access_iff (hm.2 a ha)).mpr (hrange hm a ha)⟩
    refine ⟨key, fun h a ha => ?_, fun n h k hk => ?_⟩
    · by_cases h0 : size = 0#64
      · -- an empty buffer has no bytes
        obtain ⟨h1, h2⟩ := ha
        rw [h0] at h2
        exact absurd h2 (Nat.not_lt.mpr h1)
      · rw [userBufOk_user m h0] at h
        exact (key h).2.2 a ha
    · rw [userStrLen_user] at h
      obtain ⟨hn, hs⟩ := (vmmUserStrlen_iff m cr3 virt _ n).mp h
      exact (ring3Access_iff (hs.mapped k (Nat.zero_le k) hk)).mpr (hstr n hn hs k hk)

/-- A buffer inside one user page. -/
theorem vmmUserRangeOk_inside {m : Mem} {cr3 virt size : Word}
    (hsize : 0 < size.toNat ∧ virt.toNat % 4096 + size.toNat ≤ 4096)
    (hv : virt.toNat < 2 ^ 64 - 8192) (hok : vmmUserPageOk m cr3 virt) :
    vmmUserRangeOk m cr3 virt size = some true := by
  refine (vmmUserRangeOk_iff _ _ _ _).mpr ⟨hsize.1, by omega, ?_⟩
  rintro a ⟨hle, hlt⟩
  have hpage : pageOf a = pageOf virt := by
    apply BitVec.eq_of_toNat_eq
    rw [toNat_pageOf, toNat_pageOf]
    omega
  rwa [← vmmUserPageOk_pageOf, hpage, vmmUserPageOk_pageOf]

/-- An address space with one user page, at 0x200000. -/
def onePage : Mem := fun t i =>
  if t = 0x100000#64 ∧ i = 0#9 then 0x101207#64
  else if t = 0x101000#64 ∧ i = 0#9 then 0x102207#64
  else if t = 0x102000#64 ∧ i = 1#9 then 0x103207#64
  else if t = 0x103000#64 ∧ i = 0#9 then 0x104007#64
  else 0#64

/-- The page at 0x200000 answers for the address 0x0001000000200000, which is not
    canonical. -/
theorem vmmUserRangeOk_accepts_noncanonical :
    vmmUserRangeOk onePage 0x100000#64 0x0001000000200000#64 8#64 = some true ∧
      ¬ Canonical 0x0001000000200000#64 ∧
      ¬ ValidationSound onePage 0x100000#64 0x0001000000200000#64 8#64 := by
  have hok : vmmUserRangeOk onePage 0x100000#64 0x0001000000200000#64 8#64 = some true :=
    vmmUserRangeOk_inside (by decide) (by decide) (by decide)
  refine ⟨hok, by decide, fun h => ?_⟩
  have hacc := (h.range hok).2.2 0x0001000000200000#64 ⟨Nat.le_refl _, by decide⟩
  exact absurd hacc.1 (by decide)

end UserPointer
