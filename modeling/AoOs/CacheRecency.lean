import AoOs.CacheFailures
import AoOs.RecencyList

/-! # Replacement — the block cache holds what was used last

    Every entry carries the value of a clock at its latest use, and the entry with
    the lowest value is replaced once all are taken.  As long as the clock has not
    wrapped, the 32 entries are those of the 32 LBAs used last: `Ranked` relates the
    ages to the order of uses, one successful access keeps it (`Ranked.uses`), and a
    failed access touches no entry. -/

namespace CacheRecency

open BlockIO BlockCache CacheFailures RecencyList

/-! ## Runs with a record of what was used -/

/-- The LBA an access has used, if it succeeds. -/
def used (st : Storage) : Access → Option UInt32
  | .read lba buffer ok =>
    if (CacheFailures.blockCacheReadSector st lba buffer ok).1.isSome then some lba else none
  | .write lba buffer out =>
    if (CacheFailures.blockCacheWriteSector st lba buffer out).1 then some lba else none

/-- The storage, and the LBAs used with success, the latest first. -/
structure Recorded where
  st : Storage
  history : List UInt32

/-- One access. -/
def record (t : Recorded) (x : Access) : Recorded :=
  ⟨after t.st x, (used t.st x).toList ++ t.history⟩

/-- A run of accesses from a cache that has just been invalidated. -/
def accesses (st : Storage) (xs : List Access) : Recorded :=
  xs.foldl record ⟨blockCacheInvalidate st, []⟩

/-- There is a valid entry for an LBA. -/
def Cached (st : Storage) (lba : UInt32) : Prop :=
  ∃ i < cacheSize, (st.cache i).valid ∧ (st.cache i).lba = lba

/-! ## What one access does to the entries -/

/-- Entry `idx` is used for `lba`: it is the one that changes, and takes the
    clock. -/
structure Uses (st : Storage) (idx : Nat) (lba : UInt32) (st' : Storage) : Prop where
  entry : (st'.cache idx).valid ∧ (st'.cache idx).lba = lba ∧ (st'.cache idx).age = st.clock
  other : ∀ i, i ≠ idx → st'.cache i = st.cache i
  clock : st'.clock = st.clock + 1

/-- The entry for an LBA: the one that has it, or else the victim. -/
def slotFor (st : Storage) (lba : UInt32) : Nat := (findEntry st lba).getD (chooseVictim st)

theorem uses_touch {st : Storage} {lba : UInt32} {idx : Nat} (h : findEntry st lba = some idx) :
    Uses st (slotFor st lba) lba (st.touch idx) := by
  obtain ⟨-, hvalid, hlba⟩ := findEntry_some h
  have hslot : slotFor st lba = idx := by rw [slotFor, h]; rfl
  have he : (st.touch idx).cache idx = { st.cache idx with age := st.clock } := if_pos rfl
  rw [hslot]
  refine ⟨?_, fun i hi => if_neg hi, rfl⟩
  rw [he]
  exact ⟨hvalid, hlba, rfl⟩

theorem uses_fill (st : Storage) (idx : Nat) (lba : UInt32) (data : Sector) :
    Uses st idx lba (st.fill idx lba data) := by
  refine ⟨?_, fun i hi => cache_fill_other st lba data hi, rfl⟩
  rw [cache_fill_same]
  exact ⟨rfl, rfl, rfl⟩

/-- **An access**: it uses the entry for its LBA, or it has failed and touches no
    entry. -/
theorem used_cases (st : Storage) (x : Access) :
    (∃ lba, used st x = some lba ∧ Uses st (slotFor st lba) lba (after st x)) ∨
      (used st x = none ∧ (after st x).cache = st.cache ∧ (after st x).clock = st.clock) := by
  cases x with
  | read lba buffer ok =>
    cases buffer with
    | false => exact .inr ⟨rfl, rfl, rfl⟩
    | true =>
      simp only [used, after, CacheFailures.blockCacheReadSector, if_true,
        BlockCache.blockCacheReadSector]
      cases hf : findEntry st lba with
      | some idx => exact .inl ⟨lba, rfl, uses_touch hf⟩
      | none =>
        cases ok with
        | false => exact .inr ⟨rfl, rfl, rfl⟩
        | true =>
          refine .inl ⟨lba, rfl, ?_⟩
          rw [slotFor, hf]
          exact uses_fill st _ lba _
  | write lba buffer out =>
    cases buffer with
    | none => exact .inr ⟨rfl, rfl, rfl⟩
    | some buf =>
      cases out with
      | lost => exact .inr ⟨rfl, rfl, rfl⟩
      | reached => exact .inr ⟨rfl, rfl, rfl⟩
      | done =>
        refine .inl ⟨lba, rfl, ?_⟩
        have h := uses_fill (st.ataStore lba buf)
          ((findEntry (st.ataStore lba buf) lba).getD (chooseVictim (st.ataStore lba buf)))
          lba buf
        rw [slotFor, ← slotFor_ataStore st lba buf]
        exact ⟨h.entry, h.other, h.clock⟩

/-! ## The victim -/

/-- What `choose_victim` finds: the first entry that is not taken, or one of the
    lowest age. -/
theorem victimFrom_spec (st : Storage) (n i victim : Nat) (hvalid : ∀ j < i, (st.cache j).valid)
    (hleast : ∀ j < i, (st.cache victim).age ≤ (st.cache j).age) (hv : victim < i ∨ i = victim) :
    let r := victimFrom st n i victim
    ((st.cache r).valid = false ∧ ∀ j < r, (st.cache j).valid) ∨
      ((∀ j < i + n, (st.cache j).valid) ∧ ∀ j < i + n, (st.cache r).age ≤ (st.cache j).age) := by
  induction n generalizing i victim with
  | zero => exact .inr ⟨hvalid, hleast⟩
  | succ n ih =>
    rw [victimFrom]
    by_cases hi : (st.cache i).valid = false
    · rw [if_pos hi]
      exact .inl ⟨hi, hvalid⟩
    · rw [if_neg hi, show i + (n + 1) = i + 1 + n by omega]
      refine ih (i + 1) _ (fun j hj => ?_) (fun j hj => ?_) ?_
      · by_cases hji : j = i
        · rw [hji]
          simpa using hi
        · exact hvalid j (by omega)
      · by_cases hji : j = i
        · rw [hji]
          split
          · exact UInt32.le_refl _
          · rename_i hge
            exact UInt32.not_lt.mp hge
        · have hj := hleast j (by omega)
          split
          · rename_i hlt
            exact UInt32.le_trans (UInt32.le_of_lt hlt) hj
          · exact hj
      · split <;> omega

theorem chooseVictim_spec (st : Storage) :
    ((st.cache (chooseVictim st)).valid = false ∧ ∀ j < chooseVictim st, (st.cache j).valid) ∨
      ((∀ j < cacheSize, (st.cache j).valid) ∧
        ∀ j < cacheSize, (st.cache (chooseVictim st)).age ≤ (st.cache j).age) := by
  have h := victimFrom_spec st cacheSize 0 0 (fun j hj => absurd hj (Nat.not_lt_zero j))
    (fun j hj => absurd hj (Nat.not_lt_zero j)) (.inr rfl)
  rwa [Nat.zero_add] at h

/-! ## Ages and the order of uses -/

/-- The entries are those of the LBAs used last, filled up in order, and their ages
    are the numbers of their latest uses. -/
structure Ranked (st : Storage) (h : List UInt32) : Prop where
  distinct : Distinct st
  cached : ∀ lba, Cached st lba ↔ lba ∈ (recency h).take cacheSize
  filled : ∀ i < cacheSize, ((st.cache i).valid ↔ i < ((recency h).take cacheSize).length)
  age : ∀ i < cacheSize, (st.cache i).valid → (st.cache i).age.toNat = lastUse h (st.cache i).lba
  clock : st.clock.toNat = h.length + 1

theorem ranked_invalidate (st : Storage) : Ranked (blockCacheInvalidate st) [] where
  distinct := fun _ _ _ _ hv => (nomatch hv)
  cached := fun _ => ⟨fun ⟨_, _, hv, _⟩ => (nomatch hv), fun hm => (nomatch hm)⟩
  filled := fun _ _ => ⟨fun hv => (nomatch hv), fun hlt => (nomatch hlt)⟩
  age := fun _ _ hv => (nomatch hv)
  clock := rfl

variable {st st' : Storage} {h : List UInt32} {lba : UInt32}

/-- The entries after a use: the one for the LBA, and the others as they were. -/
theorem Uses.cached_iff {idx : Nat} (hu : Uses st idx lba st') (hidx : idx < cacheSize)
    (y : UInt32) : Cached st' y ↔
      y = lba ∨ ∃ i < cacheSize, i ≠ idx ∧ (st.cache i).valid ∧ (st.cache i).lba = y := by
  constructor
  · rintro ⟨i, hi, hv, hy⟩
    by_cases hii : i = idx
    · rw [hii, hu.entry.2.1] at hy
      exact .inl hy.symm
    · rw [hu.other i hii] at hv hy
      exact .inr ⟨i, hi, hii, hv, hy⟩
  · rintro (rfl | ⟨i, hi, hii, hv, hy⟩)
    · exact ⟨idx, hidx, hu.entry.1, hu.entry.2.1⟩
    · exact ⟨i, hi, by rwa [hu.other i hii], by rwa [hu.other i hii]⟩

/-- Which LBAs have an entry after a use. -/
theorem Ranked.cached_uses (hr : Ranked st h) (hu : Uses st (slotFor st lba) lba st') (y : UInt32) :
    Cached st' y ↔ y ∈ (recency (lba :: h)).take cacheSize := by
  obtain ⟨hidx, hfresh⟩ := slotFor_spec st lba hr.distinct
  rw [hu.cached_iff hidx, show cacheSize = 31 + 1 from rfl]
  cases hf : findEntry st lba with
  | some idx =>
    -- a hit: the same entries as before
    obtain ⟨hlt, hvalid, hlba⟩ := findEntry_some hf
    have hslot : slotFor st lba = idx := by rw [slotFor, hf]; rfl
    have hin : lba ∈ (recency h).take (31 + 1) := (hr.cached lba).mp ⟨idx, hlt, hvalid, hlba⟩
    rw [mem_take_recency_hit hin, ← show cacheSize = 31 + 1 from rfl, ← hr.cached, hslot]
    constructor
    · rintro (rfl | ⟨i, hi, -, hv, hy⟩)
      · exact ⟨idx, hlt, hvalid, hlba⟩
      · exact ⟨i, hi, hv, hy⟩
    · rintro ⟨i, hi, hv, hy⟩
      by_cases hii : i = idx
      · rw [hii, hlba] at hy
        exact .inl hy.symm
      · exact .inr ⟨i, hi, hii, hv, hy⟩
  | none =>
    have hslot : slotFor st lba = chooseVictim st := by rw [slotFor, hf]; rfl
    have hmiss : lba ∉ (recency h).take (31 + 1) := fun hmem => by
      obtain ⟨i, hi, hv, hy⟩ := (hr.cached lba).mpr hmem
      exact findEntry_none hf hi hv hy
    rw [take_recency_miss hmiss, List.mem_cons, hslot]
    refine or_congr_right ?_
    have hvict := chooseVictim_lt st
    rcases chooseVictim_spec st with ⟨hinv, -⟩ | ⟨hall, hmin⟩
    · -- an entry is free: nothing is given up
      have hshort : ((recency h).take cacheSize).length ≤ 31 := by
        have := mt (hr.filled _ hvict).mpr (by rw [hinv]; decide)
        unfold cacheSize at hvict
        omega
      have hall : (recency h).take 31 = (recency h).take cacheSize := by
        rw [List.length_take] at hshort
        unfold cacheSize at hshort ⊢
        rw [List.take_of_length_le (by omega), List.take_of_length_le (by omega)]
      rw [hall, ← hr.cached]
      refine ⟨fun ⟨i, hi, _, hv, hy⟩ => ⟨i, hi, hv, hy⟩, fun ⟨i, hi, hv, hy⟩ => ?_⟩
      have hne : i ≠ chooseVictim st := by
        rintro rfl
        cases hinv.symm.trans hv
      exact ⟨i, hi, hne, hv, hy⟩
    · -- all entries are taken: the one of the lowest age is given up
      have hlen : 31 < (recency h).length := by
        have := (hr.filled 31 (by decide)).mp (hall 31 (by decide))
        rw [List.length_take] at this
        omega
      have hin : (st.cache (chooseVictim st)).lba ∈ (recency h).take (31 + 1) :=
        (hr.cached _).mp ⟨_, hvict, hall _ hvict, rfl⟩
      rw [mem_take_of_least hlen hin ?_, ← show cacheSize = 31 + 1 from rfl, ← hr.cached]
      · constructor
        · rintro ⟨i, hi, hne, hv, rfl⟩
          exact ⟨⟨i, hi, hv, rfl⟩, fun heq => hne (hr.distinct i _ hi hvict hv (hall _ hvict) heq)⟩
        · rintro ⟨⟨i, hi, hv, rfl⟩, hne⟩
          exact ⟨i, hi, fun heq => hne (by rw [heq]), hv, rfl⟩
      · intro z hz
        obtain ⟨i, hi, hv, rfl⟩ := (hr.cached z).mpr hz
        rw [← hr.age _ hvict (hall _ hvict), ← hr.age i hi hv]
        exact UInt32.le_iff_toNat_le.mp (hmin i hi)

/-- Which entries are taken after a use. -/
theorem Ranked.filled_uses (hr : Ranked st h) (hu : Uses st (slotFor st lba) lba st') {i : Nat}
    (hi : i < cacheSize) :
    (st'.cache i).valid ↔ i < ((recency (lba :: h)).take cacheSize).length := by
  have hvict := chooseVictim_lt st
  cases hf : findEntry st lba with
  | some idx =>
    obtain ⟨hlt, hvalid, hlba⟩ := findEntry_some hf
    have hslot : slotFor st lba = idx := by rw [slotFor, hf]; rfl
    have hin : lba ∈ (recency h).take (31 + 1) := (hr.cached lba).mp ⟨idx, hlt, hvalid, hlba⟩
    have hlen : ((recency (lba :: h)).take cacheSize).length =
        ((recency h).take cacheSize).length :=
      ((List.perm_ext_iff_of_nodup (recency_nodup _).take (recency_nodup _).take).mpr
        fun y => mem_take_recency_hit hin).length_eq
    rw [hlen, ← hr.filled i hi]
    by_cases hii : i = idx
    · rw [hii]
      exact iff_of_true (hslot ▸ hu.entry.1) hvalid
    · rw [hu.other i (by rwa [hslot])]
  | none =>
    have hslot : slotFor st lba = chooseVictim st := by rw [slotFor, hf]; rfl
    have hmiss : lba ∉ (recency h).take (31 + 1) := fun hmem => by
      obtain ⟨i, hi, hv, hy⟩ := (hr.cached lba).mpr hmem
      exact findEntry_none hf hi hv hy
    have hlen : ((recency (lba :: h)).take cacheSize).length = min 31 (recency h).length + 1 := by
      rw [show cacheSize = 31 + 1 from rfl, take_recency_miss hmiss, List.length_cons,
        List.length_take]
    have hold : ∀ j < cacheSize, ((st.cache j).valid ↔ j < (recency h).length) := fun j hj => by
      rw [hr.filled j hj, List.length_take]
      omega
    rw [hlen]
    rw [hslot] at hu
    rcases chooseVictim_spec st with ⟨hinv, hbefore⟩ | ⟨hall, -⟩
    · -- the first free entry is the one behind the last that is taken
      have hlast : chooseVictim st = (recency h).length := by
        have hge := mt (hold _ hvict).mpr (by rw [hinv]; decide)
        by_contra hne
        have hlt : (recency h).length < chooseVictim st := by omega
        have := (hold _ (by omega)).mp (hbefore _ hlt)
        omega
      by_cases hii : i = chooseVictim st
      · rw [hii]
        exact iff_of_true hu.entry.1 (by unfold cacheSize at hvict; omega)
      · rw [hu.other i hii, hold i hi]
        unfold cacheSize at hi hvict
        omega
    · have hfull := (hold 31 (by decide)).mp (hall 31 (by decide))
      have hi' : i < min 31 (recency h).length + 1 := by
        unfold cacheSize at hi
        omega
      by_cases hii : i = chooseVictim st
      · rw [hii]
        exact iff_of_true hu.entry.1 (hii ▸ hi')
      · rw [hu.other i hii]
        exact iff_of_true (hall i hi) hi'

/-- **One successful access** keeps the entries those used last. -/
theorem Ranked.uses (hr : Ranked st h) (hu : Uses st (slotFor st lba) lba st')
    (hlen : h.length + 2 < 2 ^ 32) : Ranked st' (lba :: h) := by
  obtain ⟨hidx, hfresh⟩ := slotFor_spec st lba hr.distinct
  refine ⟨?_, hr.cached_uses hu, fun i hi => hr.filled_uses hu hi, ?_, ?_⟩
  · intro i j hi hj hvi hvj heq
    by_cases hii : i = slotFor st lba <;> by_cases hjj : j = slotFor st lba
    · rw [hii, hjj]
    · rw [hii, hu.entry.2.1, hu.other j hjj] at heq
      rw [hu.other j hjj] at hvj
      exact absurd heq.symm (hfresh j hj hjj hvj)
    · rw [hjj, hu.entry.2.1, hu.other i hii] at heq
      rw [hu.other i hii] at hvi
      exact absurd heq (hfresh i hi hii hvi)
    · rw [hu.other i hii] at hvi heq
      rw [hu.other j hjj] at hvj heq
      exact hr.distinct i j hi hj hvi hvj heq
  · intro i hi hv
    by_cases hii : i = slotFor st lba
    · rw [hii, hu.entry.2.1, hu.entry.2.2, lastUse_cons_self, hr.clock]
    · rw [hu.other i hii] at hv ⊢
      rw [lastUse_cons_other h (hfresh i hi hii hv)]
      exact hr.age i hi hv
  · rw [hu.clock, UInt32.toNat_add, hr.clock, List.length_cons, UInt32.toNat_one]
    omega

/-- A failed access changes no entry. -/
theorem Ranked.unchanged (hr : Ranked st h) (hcache : st'.cache = st.cache)
    (hclock : st'.clock = st.clock) : Ranked st' h := by
  refine ⟨?_, fun y => ?_, ?_, ?_, hclock ▸ hr.clock⟩
  · simpa only [Distinct, hcache] using hr.distinct
  · simpa only [Cached, hcache] using hr.cached y
  · simpa only [hcache] using hr.filled
  · simpa only [hcache] using hr.age

/-! ## Runs -/

theorem ranked_run {t : Recorded} {xs : List Access} (hr : Ranked t.st t.history)
    (hlen : t.history.length + xs.length + 1 < 2 ^ 32) :
    Ranked (xs.foldl record t).st (xs.foldl record t).history := by
  induction xs generalizing t with
  | nil => exact hr
  | cons x xs ih =>
    rw [List.length_cons] at hlen
    rw [List.foldl_cons]
    rcases used_cases t.st x with ⟨lba, hused, hu⟩ | ⟨hused, hcache, hclock⟩
    · have hhist : (record t x).history = lba :: t.history := by rw [record, hused]; rfl
      refine ih ?_ (by rw [hhist, List.length_cons]; omega)
      rw [hhist]
      exact hr.uses hu (by omega)
    · have hhist : (record t x).history = t.history := by rw [record, hused]; rfl
      refine ih ?_ (by rw [hhist]; omega)
      rw [hhist]
      exact hr.unchanged hcache hclock

/-- **Least recently used.**  After fewer than `2 ^ 32 - 1` accesses since the last
    invalidation, the LBAs with an entry are the 32 used last (all of them, if there
    are no more), and an access that fails changes no entry. -/
theorem cache_least_recent (st : Storage) (xs : List Access) (hlen : xs.length < 2 ^ 32 - 1) :
    (∀ lba, Cached (accesses st xs).st lba ↔
      lba ∈ (recency (accesses st xs).history).take cacheSize) ∧
    ((recency (accesses st xs).history).take cacheSize).length =
      min cacheSize (accesses st xs).history.toFinset.card ∧
    ∀ x, used (accesses st xs).st x = none →
      (after (accesses st xs).st x).cache = (accesses st xs).st.cache := by
  have hr : Ranked (accesses st xs).st (accesses st xs).history :=
    ranked_run (ranked_invalidate st) (by
      show 0 + xs.length + 1 < 2 ^ 32
      omega)
  refine ⟨hr.cached, by rw [List.length_take, length_recency], fun x hx => ?_⟩
  rcases used_cases (accesses st xs).st x with ⟨lba, hused, -⟩ | ⟨-, hcache, -⟩
  · cases hused.symm.trans hx
  · exact hcache

/-- Sectors 0 to 31 are read, 0 once more, a write to 40 fails, and one to 32 succeeds. -/
def thirtyThree : List Access :=
  (List.range 32).map (fun n => .read (.ofNat n) true true) ++
    [.read 0 true true, .write 40 (some fun _ => 1) .lost, .write 32 (some fun _ => 1) .done]

/-- Sector 1 has made room for 32. -/
theorem cache_least_recent_evicts :
    Cached (accesses blank thirtyThree).st 0 ∧ Cached (accesses blank thirtyThree).st 32 ∧
      ¬ Cached (accesses blank thirtyThree).st 1 ∧ ¬ Cached (accesses blank thirtyThree).st 40 := by
  have h := (cache_least_recent blank thirtyThree (by decide)).1
  have hlast : (recency (accesses blank thirtyThree).history).take cacheSize =
      [32, 0] ++ (List.range 30).map fun n => .ofNat (31 - n) := by decide +kernel
  simp only [h, hlast]
  decide

end CacheRecency
