import AoOs.FatDirs

/-! # Scanning a directory

    `find_entry` and `free_entry_index` in terms of the slots they pass.  The first stops
    at the first live entry with the name, the second at the first slot it may use; if
    the slots run out, a directory on a chain gets one more cluster. -/

namespace FatScan

open BlockIO FatTypes FatDriver FatGeometry FatImage FatAlloc FatFill FatDirs
open BlockIO.BlockM (run exec)

variable {n i j : Nat} {e : Entry}

/-! ## Looking up a name -/

/-- The scan of `find_entry` over a row of slots. -/
def lookupFrom (s : Nat → Option Entry) (name : CString) : Nat → Nat → Option (Entry × Nat)
  | 0, _ => none
  | n + 1, i =>
    match s i with
    | none => none
    | some e =>
      if e 0 = 0 then none
      else if skipped e then lookupFrom s name n (i + 1)
      else if nameMatch e name then some (e, i)
      else lookupFrom s name n (i + 1)

/-- `find_entry` over a row of slots. -/
def lookup (s : Nat → Option Entry) (name : CString) : Option (Entry × Nat) :=
  lookupFrom s name maxDirEntries 0

/-- An entry the scan passes by. -/
def Passed (name : CString) (e : Entry) : Prop :=
  e 0 ≠ 0 ∧ (skipped e ∨ nameMatch e name = false)

section Lookup

variable {s : Nat → Option Entry} {name : CString}

theorem lookupFrom_some (h : lookupFrom s name n i = some (e, j)) :
    i ≤ j ∧ j < i + n ∧ s j = some e ∧ e 0 ≠ 0 ∧ skipped e = false ∧ nameMatch e name ∧
      ∀ k, i ≤ k → k < j → ∃ e', s k = some e' ∧ Passed name e' := by
  induction n generalizing i with
  | zero => cases h
  | succ n ih =>
    rw [lookupFrom] at h
    cases hs : s i with
    | none =>
      rw [hs] at h
      cases h
    | some x =>
      rw [hs] at h
      dsimp only at h
      -- past an entry the scan goes on behind it
      have hnext : x 0 ≠ 0 → (skipped x ∨ nameMatch x name = false) →
          lookupFrom s name n (i + 1) = some (e, j) → _ := fun h0 hp hrest => by
        obtain ⟨h1, h2, h3, h4, h5, h6, h7⟩ := ih hrest
        refine (⟨by omega, by omega, h3, h4, h5, h6, fun k hk hkj => ?_⟩ :
          i ≤ j ∧ j < i + (n + 1) ∧ s j = some e ∧ e 0 ≠ 0 ∧ skipped e = false ∧
            nameMatch e name ∧ ∀ k, i ≤ k → k < j → ∃ e', s k = some e' ∧ Passed name e')
        rcases Nat.lt_or_eq_of_le hk with hlt | rfl
        · exact h7 k hlt hkj
        · exact ⟨x, hs, h0, hp⟩
      by_cases h0 : x 0 = 0
      · cases (if_pos h0).symm.trans h
      · rw [if_neg h0] at h
        by_cases hsk : skipped x
        · rw [if_pos hsk] at h
          exact hnext h0 (.inl hsk) h
        · rw [if_neg hsk] at h
          by_cases hm : nameMatch x name
          · rw [if_pos hm] at h
            obtain ⟨rfl, rfl⟩ := Prod.mk.inj (Option.some.inj h)
            exact ⟨Nat.le_refl i, by omega, hs, h0, by simpa using hsk, hm, fun k h1 h2 => by omega⟩
          · rw [if_neg hm] at h
            exact hnext h0 (.inr (by simpa using hm)) h

/-- Where the scan ends, if it passes everything in front. -/
theorem lookupFrom_hit (hij : i ≤ j) (hjn : j < i + n)
    (hpass : ∀ k, i ≤ k → k < j → ∃ e', s k = some e' ∧ Passed name e') (hs : s j = some e)
    (h0 : e 0 ≠ 0) (hsk : skipped e = false) (hm : nameMatch e name) :
    lookupFrom s name n i = some (e, j) := by
  induction n generalizing i with
  | zero => omega
  | succ n ih =>
    rw [lookupFrom]
    rcases Nat.lt_or_eq_of_le hij with hlt | rfl
    · obtain ⟨x, hx, hx0, hp⟩ := hpass i (Nat.le_refl i) hlt
      have hrest := ih hlt (by omega) fun k hk => hpass k (by omega)
      rw [hx]
      dsimp only
      rw [if_neg hx0]
      rcases hp with hp | hp
      · rw [if_pos hp]
        exact hrest
      · rw [hp]
        split
        · exact hrest
        · exact hrest
    · rw [hs]
      dsimp only
      rw [if_neg h0, hsk, if_neg (by decide), if_pos hm]

/-- A name that is not found belongs to no entry the scan can reach. -/
theorem lookupFrom_none (h : lookupFrom s name n i = none) (hij : i ≤ j) (hjn : j < i + n)
    (hused : ∀ k, i ≤ k → k < j → ∃ e', s k = some e' ∧ e' 0 ≠ 0) (hs : s j = some e) (h0 : e 0 ≠ 0)
    (hsk : skipped e = false) : nameMatch e name = false := by
  by_contra hm
  rw [Bool.not_eq_false] at hm
  -- the scan would have ended at `e`, or at a match before it
  induction n generalizing i with
  | zero => omega
  | succ n ih =>
    rw [lookupFrom] at h
    rcases Nat.lt_or_eq_of_le hij with hlt | rfl
    · obtain ⟨x, hx, hx0⟩ := hused i (Nat.le_refl i) hlt
      rw [hx] at h
      dsimp only at h
      rw [if_neg hx0] at h
      have hrest := fun hr => ih hr hlt (by omega) fun k hk => hused k (by omega)
      split at h
      · exact hrest h
      · split at h
        · cases h
        · exact hrest h
    · rw [hs] at h
      dsimp only at h
      rw [if_neg h0, hsk, if_neg (by decide), if_pos hm] at h
      cases h

end Lookup

/-! ## Looking for a slot -/

/-- A slot that `free_entry_index` passes by. -/
def Used (e : Entry) : Prop := e 0 ≠ 0 ∧ e 0 ≠ 0xE5

/-- All slots in front of `n` are in use. -/
def UsedUpTo (s : Nat → Option Entry) (n : Nat) : Prop := ∀ j < n, ∃ e, s j = some e ∧ Used e

/-- Slot `i` is the first that may be used. -/
def Vacant (s : Nat → Option Entry) (i : Nat) : Prop :=
  i < maxDirEntries ∧ UsedUpTo s i ∧ ∃ e, s i = some e ∧ ¬ Used e

/-- The slots end at `n`, all in use. -/
def Full (s : Nat → Option Entry) (n : Nat) : Prop :=
  n < maxDirEntries ∧ UsedUpTo s n ∧ s n = none

/-- A directory has a slot to use, or is full, or is as long as the driver can see. -/
theorem slots_cases (s : Nat → Option Entry) :
    (∃ i, Vacant s i) ∨ (∃ n, Full s n) ∨ UsedUpTo s maxDirEntries := by
  have key : ∀ n, n ≤ maxDirEntries →
      (∃ i, Vacant s i) ∨ (∃ n, Full s n) ∨ UsedUpTo s n := by
    intro n
    induction n with
    | zero => intro _; exact .inr (.inr fun j hj => absurd hj (Nat.not_lt_zero j))
    | succ n ih =>
      intro hn
      rcases ih (by omega) with h | h | h
      · exact .inl h
      · exact .inr (.inl h)
      · cases hs : s n with
        | none => exact .inr (.inl ⟨n, by omega, h, hs⟩)
        | some e =>
          by_cases hu : Used e
          · refine .inr (.inr fun j hj => ?_)
            rcases Nat.lt_or_eq_of_le (Nat.le_of_lt_succ hj) with hlt | rfl
            · exact h j hlt
            · exact ⟨e, hs, hu⟩
          · exact .inl ⟨n, by omega, h, e, hs, hu⟩
  exact key maxDirEntries (Nat.le_refl _)

section Scan

variable {v : Vol} (hv : Numbered v) {d : Disk} {h : Nat} {A : Area}
  (hA : Locates v (image v d) h A)

include hv hA

/-- **`find_entry` looks the name up in the slots.** -/
theorem exec_findEntry (name : CString) :
    exec (findEntry v h name) d = (lookup (A.slot v (image v d)) name, d) := by
  have key : ∀ n i, exec (findFrom v h name n i) d =
      (lookupFrom (A.slot v (image v d)) name n i, d) := by
    intro n
    induction n with
    | zero => intro i; rfl
    | succ n ih =>
      intro i
      rw [findFrom, exec_bind, exec_dirRead hv hA, lookupFrom]
      dsimp only
      cases A.slot v (image v d) i with
      | none => rfl
      | some e =>
        dsimp only
        simp only [exec_ite, ih]
        split
        · rfl
        · split
          · rfl
          · split <;> rfl
  exact key _ 0

/-- A used slot is passed by. -/
theorem exec_freeIndex_used (hs : A.slot v (image v d) i = some e) (hu : Used e) :
    exec (freeIndexFrom v h (n + 1) i) d = exec (freeIndexFrom v h n (i + 1)) d := by
  rw [freeIndexFrom, exec_bind, exec_dirRead hv hA, hs]
  dsimp only
  rw [if_neg (by rintro (h0 | h5); exacts [hu.1 h0, hu.2 h5])]

theorem exec_freeIndex_upTo (hused : UsedUpTo (A.slot v (image v d)) n) (hn : n ≤ maxDirEntries) :
    exec (freeEntryIndex v h) d = exec (freeIndexFrom v h (maxDirEntries - n) n) d := by
  induction n with
  | zero => rfl
  | succ n ih =>
    obtain ⟨e, hs, hu⟩ := hused n (Nat.lt_succ_self n)
    rw [ih (fun j hj => hused j (by omega)) (by omega),
      show maxDirEntries - n = maxDirEntries - (n + 1) + 1 by omega,
      exec_freeIndex_used hv hA hs hu]

/-- **`free_entry_index` takes the first slot it may use.** -/
theorem exec_freeEntryIndex_vacant (hi : Vacant (A.slot v (image v d)) i) :
    exec (freeEntryIndex v h) d = (some i, d) := by
  obtain ⟨hlt, hused, e, hs, hu⟩ := hi
  rw [exec_freeIndex_upTo hv hA hused (Nat.le_of_lt hlt),
    show maxDirEntries - i = maxDirEntries - i - 1 + 1 by omega, freeIndexFrom, exec_bind,
    exec_dirRead hv hA, hs]
  dsimp only
  rw [if_pos]
  · rfl
  · by_contra hno
    rw [not_or] at hno
    exact hu hno

/-- As long as the driver can see: no slot. -/
theorem exec_freeEntryIndex_long (hused : UsedUpTo (A.slot v (image v d)) maxDirEntries) :
    exec (freeEntryIndex v h) d = (none, d) := by
  rw [exec_freeIndex_upTo hv hA hused (Nat.le_refl _), Nat.sub_self]
  rfl

/-- The end of a full directory. -/
theorem exec_freeEntryIndex_full (hn : Full (A.slot v (image v d)) n) :
    exec (freeEntryIndex v h) d =
      exec (if h = 0 ∧ v.type ≠ .fat32 then pure none
        else do if ← growDirectory v h then pure (some n) else pure none) d := by
  obtain ⟨hlt, hused, hs⟩ := hn
  rw [exec_freeIndex_upTo hv hA hused (Nat.le_of_lt hlt),
    show maxDirEntries - n = maxDirEntries - n - 1 + 1 by omega, freeIndexFrom, exec_bind,
    exec_dirRead hv hA, hs]

end Scan

/-! ## Growing -/

section Grow

variable {v : Vol} (hv : Numbered v)

include hv

/-- The `while (1)` walk ends at the last cluster of a chain. -/
theorem exec_lastCluster : ∀ n l c d (hl : (image v d).Chain v c l), l.length ≤ n →
    exec (lastCluster v n c) d = (some (l.getLast hl.ne_nil), d) := by
  intro n
  induction n with
  | zero =>
    intro l c d hl hlen
    obtain ⟨t, rfl⟩ := hl.head
    exact absurd hlen (Nat.not_succ_le_zero _)
  | succ n ih =>
    intro l c d hl hlen
    have hgood := hl.good_of_mem hl.mem_head
    rw [lastCluster, exec_bind, hv.exec_fatGet d hgood]
    dsimp only
    cases hl with
    | last _ hs =>
      rw [if_pos hs]
      rfl
    | @link _ l _ hs hl =>
      have hnext := (valid_bounds (hl.good_of_mem hl.mem_head)).1
      rw [if_neg hs, if_neg (by omega), ih l _ d hl (Nat.le_of_succ_le_succ hlen)]
      exact Prod.ext (congrArg some (List.getLast_cons hl.ne_nil).symm) rfl

/-- A chain grown by a fresh cluster. -/
def grown (v : Vol) (I : Image) (last c : Nat) : Image := (I.allocated v c).set v last c

/-- **Growing a directory**: nothing free, nothing done; otherwise the first free
    cluster, emptied, behind the last one. -/
theorem exec_growDirectory {d : Disk} {h : Nat} {l : List Nat}
    (hA : Locates v (image v d) h (.chain l)) :
    ((image v d).firstFree v = none → exec (growDirectory v h) d = (false, d)) ∧
    ∀ c, (image v d).firstFree v = some c →
      ∃ d', exec (growDirectory v h) d = (true, d') ∧
        image v d' = grown v (image v d) (l.getLastD 0) c ∧
        Updates v (image v d) (image v d') := by
  obtain ⟨-, hl⟩ := hA
  have hlen := chain_length_le hv hl
  have hcount : v.clusterCount < walkFuel := by
    have := hv.small
    have := eocMin_le v
    rw [walkFuel]
    omega
  have hlast := exec_lastCluster hv walkFuel l _ d hl (by omega)
  have hlastD : l.getLastD 0 = l.getLast hl.ne_nil := by
    obtain ⟨t, rfl⟩ := hl.head
    exact getLastD_eq _ t
  constructor
  · intro hnone
    rw [growDirectory, exec_bind, hlast]
    dsimp only
    rw [exec_bind, exec_allocCluster_none hv hnone]
    rfl
  · intro c hc
    obtain ⟨hvalid, hz, _⟩ := firstFree_some hv hc
    have hc0 : c ≠ 0 := by
      have := (valid_bounds hvalid).1
      omega
    have hmem := List.getLast_mem hl.ne_nil
    have hne : l.getLast hl.ne_nil ≠ c := fun heq => chain_not_free hl hz (heq ▸ hmem)
    obtain ⟨d₁, halloc, himg₁⟩ := exec_allocCluster_some hv hc
    obtain ⟨d₂, hset, himg₂⟩ := hv.exec_fatSet d₁ (hl.good_of_mem hmem) c
    rw [cluster_fits hv hvalid, himg₁, ← hlastD] at himg₂
    refine ⟨d₂, ?_, himg₂, ?_⟩
    · rw [growDirectory, exec_bind, hlast]
      dsimp only
      rw [exec_bind, halloc]
      dsimp only
      rw [if_neg hc0]
      exact hset
    · rw [himg₂, hlastD]
      refine .tail (.single (.alloc hvalid hz)) (.link (hl.good_of_mem hmem) ?_ hc0)
      rw [Image.val, Image.tab_allocated, if_neg fun hh => hne hh.2]
      exact chain_val_ne_zero hl hmem

end Grow

end FatScan
