import AoOs.NetReceive
import AoOs.StepSystem

/-! # The ARP cache — a map in eight entries

    `arp_cache_put` looks in one scan for the entry of an address and for a free entry;
    `arp_lookup` first drops what is too old, in place, so free entries may stand in front
    of valid ones.  Whatever is put and looked up, at whatever times, no address has two
    valid entries, and the one it has carries the MAC of the latest put. -/

namespace ArpCache

open CheckedArea NetReceive StepSystem

/-! ## Looking up -/

/-- `ARP_TTL_TICKS`. -/
def arpTtlTicks : Nat := 6000

/-- The first statement of the loop of `expire_arp`. -/
def expire (now : Nat) (e : ArpEntry) : ArpEntry :=
  if e.valid ∧ arpTtlTicks < (now + (2 ^ 64 - e.updated)) % 2 ^ 64 then
    { e with valid := false }
  else e

/-- The loop of `expire_arp`. -/
def expireFrom (now : Nat) :
    Nat → Nat → Nat → Area ArpEntry 8 → Except Fault (Area ArpEntry 8 × Nat)
  | 0, _, count, cache => pure (cache, count)
  | left + 1, i, count, cache => do
      let e ← cache.get i
      let cache ← cache.put i (expire now e)
      expireFrom now left (i + 1) (if (expire now e).valid then count + 1 else count) cache

def expireArp (s : NetState) : Except Fault NetState := do
  let (cache, count) ← expireFrom s.ticks 8 0 0 s.arpCache
  pure { s with arpCache := cache, arpEntries := count }

/-- The loop of `arp_lookup`. -/
def lookupFrom (cache : Area ArpEntry 8) (ip : Nat) : Nat → Nat → Except Fault (Option Nat)
  | 0, _ => pure none
  | left + 1, i => do
      let e ← cache.get i
      if e.valid ∧ e.ip = ip then pure (some i) else lookupFrom cache ip left (i + 1)

/-- `arp_lookup`; the result is the index of the entry. -/
def arpLookup (s : NetState) (ip : Nat) : Except Fault (NetState × Option Nat) := do
  let s ← expireArp s
  let found ← lookupFrom s.arpCache ip 8 0
  pure (s, found)

/-! ## What the loops do -/

/-- Entry `i` is valid. -/
def Valid (cache : Area ArpEntry 8) (i : Nat) : Prop := i < 8 ∧ (cache.cell i).valid

/-- Entry `i` is the valid entry of an address. -/
def Holds (cache : Area ArpEntry 8) (ip i : Nat) : Prop := Valid cache i ∧ (cache.cell i).ip = ip

/-- The number of valid entries. -/
def validCount (cache : Area ArpEntry 8) : Nat :=
  (List.range 8).countP fun i => (cache.cell i).valid

section Loops

variable (cache : Area ArpEntry 8)

theorem arpCount_eq (left i count : Nat) (h : i + left ≤ 8) : arpCount cache left i count =
    .ok (count + (List.range' i left).countP fun k => (cache.cell k).valid) := by
  induction left generalizing i count with
  | zero => rfl
  | succ left ih =>
    rw [arpCount, cache.get_ok (by omega), ok_bind, ih (i + 1) _ (by omega), List.range'_succ,
      List.countP_cons]
    refine congrArg Except.ok ?_
    split
    · omega
    · omega

/-- The scan finds the entry of the address, or else the first free one. -/
theorem arpScan_cases (ip left i : Nat) (slot : Option Nat) (h : i + left ≤ 8) :
    ∃ r, arpScan cache ip left i slot = .ok r ∧
      ((∃ k, r = some k ∧ Holds cache ip k) ∨ (∀ j, i ≤ j → j < i + left → ¬ Holds cache ip j) ∧
        ((∃ k, r = some k ∧ (slot = some k ∨ k < 8 ∧ (cache.cell k).valid = false)) ∨
          r = none ∧ slot = none ∧ ∀ j, i ≤ j → j < i + left → Valid cache j)) := by
  induction left generalizing i slot with
  | zero =>
    refine ⟨slot, rfl, .inr ⟨fun j h1 h2 => by omega, ?_⟩⟩
    cases slot with
    | none => exact .inr ⟨rfl, rfl, fun j h1 h2 => by omega⟩
    | some k => exact .inl ⟨k, rfl, .inl rfl⟩
  | succ left ih =>
    rw [arpScan, cache.get_ok (by omega), ok_bind]
    by_cases hit : (cache.cell i).valid ∧ (cache.cell i).ip = ip
    · rw [if_pos hit]
      exact ⟨some i, rfl, .inl ⟨i, rfl, ⟨by omega, hit.1⟩, hit.2⟩⟩
    rw [if_neg hit]
    obtain ⟨r, hr, hcases⟩ := ih (i + 1)
      (if (cache.cell i).valid = false ∧ slot = none then some i else slot) (by omega)
    refine ⟨r, hr, hcases.imp id fun ⟨hno, hrest⟩ => ⟨fun j h1 h2 => ?_, ?_⟩⟩
    · rcases Nat.lt_or_eq_of_le h1 with hlt | rfl
      · exact hno j hlt (by omega)
      · exact fun hh => hit ⟨hh.1.2, hh.2⟩
    · rcases hrest with ⟨k, hk, hslot⟩ | ⟨hnone, hslot, hall⟩
      · refine .inl ⟨k, hk, ?_⟩
        rcases hslot with hslot | hfree
        · by_cases hfree : (cache.cell i).valid = false ∧ slot = none
          · cases (if_pos hfree).symm.trans hslot
            exact .inr ⟨by omega, hfree.1⟩
          · rw [if_neg hfree] at hslot
            exact .inl hslot
        · exact .inr hfree
      · -- the scan has no slot, so this entry is not free
        by_cases hfree : (cache.cell i).valid = false ∧ slot = none
        · cases (if_pos hfree).symm.trans hslot
        · rw [if_neg hfree] at hslot
          refine .inr ⟨hnone, hslot, fun j h1 h2 => ?_⟩
          rcases Nat.lt_or_eq_of_le h1 with hlt | rfl
          · exact hall j hlt (by omega)
          · exact ⟨by omega, by simpa using fun hf => hfree ⟨hf, hslot⟩⟩

/-- `expire_arp` drops the old entries and counts the others. -/
theorem expireFrom_eq (now left i count : Nat) (h : i + left ≤ 8) :
    ∃ cache', expireFrom now left i count cache = .ok (cache', count +
        (List.range' i left).countP fun k => (cache'.cell k).valid) ∧
      ∀ k, cache'.cell k = if i ≤ k ∧ k < i + left then expire now (cache.cell k)
        else cache.cell k := by
  induction left generalizing i count cache with
  | zero => exact ⟨cache, rfl, fun k => (if_neg (by omega)).symm⟩
  | succ left ih =>
    rw [expireFrom, cache.get_ok (by omega), ok_bind, cache.put_ok _ (by omega), ok_bind]
    obtain ⟨cache', hrun, hcell⟩ := ih ⟨fun k => if k = i then expire now (cache.cell i)
      else cache.cell k⟩ (i + 1) (if (expire now (cache.cell i)).valid then count + 1
        else count) (by omega)
    have hi : cache'.cell i = expire now (cache.cell i) := by
      rw [hcell, if_neg (by omega)]
      exact if_pos rfl
    refine ⟨cache', hrun.trans (congrArg Except.ok (Prod.ext rfl ?_)), fun k => ?_⟩
    · rw [List.range'_succ, List.countP_cons, hi]
      split
      · omega
      · omega
    · rw [hcell]
      by_cases hk : k = i
      · rw [hk, if_neg (by omega), if_pos ⟨by omega, by omega⟩]
        exact if_pos rfl
      · by_cases hin : i + 1 ≤ k ∧ k < i + 1 + left
        · rw [if_pos hin, if_pos ⟨by omega, by omega⟩]
          exact congrArg _ (if_neg hk)
        · rw [if_neg hin, if_neg (by omega)]
          exact if_neg hk

theorem lookupFrom_eq (ip left i : Nat) (h : i + left ≤ 8) :
    ∃ r, lookupFrom cache ip left i = .ok r ∧
    ∀ k, r = some k → Holds cache ip k := by
  induction left generalizing i with
  | zero => exact ⟨none, rfl, nofun⟩
  | succ left ih =>
    rw [lookupFrom, cache.get_ok (by omega), ok_bind]
    by_cases hit : (cache.cell i).valid ∧ (cache.cell i).ip = ip
    · rw [if_pos hit]
      refine ⟨some i, rfl, fun k hk => ?_⟩
      cases hk
      exact ⟨⟨by omega, hit.1⟩, hit.2⟩
    · rw [if_neg hit]
      exact ih (i + 1) (by omega)

end Loops

/-! ## Runs -/

inductive Op where
  | put (now ip : Nat) (mac : Area UInt8 6)
  | lookup (now ip : Nat)

/-- One call, at the time `now`; no call faults (`step_total`). -/
def step (s : NetState) : Op → Option NetState
  | .put now ip mac => (arpCachePut { s with ticks := now } ip mac 0).toOption
  | .lookup now ip => (arpLookup { s with ticks := now } ip).toOption.map Prod.fst

/-- The six bytes of an address. -/
def macBytes (mac : Area UInt8 6) : List UInt8 := (List.range 6).map mac.cell

/-- The MAC of the latest put, address by address. -/
def record (latest : Nat → Option (List UInt8)) : Op → Nat → Option (List UInt8)
  | .put _ ip mac => Function.update latest ip (some (macBytes mac))
  | .lookup _ _ => latest

/-- The MAC that was put last for an address. -/
def latestPut (ops : List Op) (ip : Nat) : Option (List UInt8) :=
  ops.foldl record (fun _ => none) ip

/-- The cache against the latest puts. -/
structure Inv (s : NetState) (latest : Nat → Option (List UInt8)) : Prop where
  unique : ∀ {i j}, Valid s.arpCache i → Valid s.arpCache j →
    (s.arpCache.cell i).ip = (s.arpCache.cell j).ip → i = j
  count : s.arpEntries = validCount s.arpCache
  mac : ∀ {i}, Valid s.arpCache i →
    latest (s.arpCache.cell i).ip = some (macBytes (s.arpCache.cell i).mac)

variable (s : NetState)

/-- What `arp_cache_put` does: one entry is written, the one of the address, or a free one
    if there is none, or the first if all are taken. -/
theorem arpCachePut_cases (ip : Nat) (mac : Area UInt8 6) :
    ∃ k s', arpCachePut s ip mac 0 = .ok s' ∧ k < 8 ∧ s'.arpEntries = validCount s'.arpCache ∧
      (s'.arpCache.cell k).ip = ip ∧ (s'.arpCache.cell k).valid ∧
      macBytes (s'.arpCache.cell k).mac = macBytes mac ∧
      (∀ j, j ≠ k → s'.arpCache.cell j = s.arpCache.cell j) ∧
      (Holds s.arpCache ip k ∨ (∀ j, ¬ Holds s.arpCache ip j) ∧
        ((s.arpCache.cell k).valid = false ∨ ∀ j < 8, Valid s.arpCache j)) := by
  obtain ⟨r, hscan, hcases⟩ := arpScan_cases s.arpCache ip 8 0 none (by omega)
  have hk : r.getD 0 < 8 := by
    rcases hcases with ⟨k, rfl, hh⟩ | ⟨_, ⟨k, rfl, hslot | hfree⟩ | ⟨rfl, _⟩⟩
    · exact hh.1.1
    · cases hslot
    · exact hfree.1
    · decide
  rw [arpCachePut, hscan, ok_bind]
  dsimp only
  rw [Area.get_ok _ hk, ok_bind, Area.copy_ok _ _ (by omega) (by omega), ok_bind,
    Area.put_ok _ _ hk, ok_bind, arpCount_eq _ 8 0 0 (by omega), ok_bind]
  refine ⟨r.getD 0, _, rfl, hk, ?_, congrArg ArpEntry.ip (if_pos rfl),
    congrArg ArpEntry.valid (if_pos rfl), ?_, fun j hj => if_neg hj, ?_⟩
  · rw [Nat.zero_add, validCount, List.range_eq_range']
  · dsimp only
    rw [if_pos rfl]
    refine List.map_congr_left fun b hb => ?_
    have hb := List.mem_range.mp hb
    dsimp only
    rw [if_pos ⟨by omega, by omega⟩, Nat.zero_add, Nat.sub_zero]
  · rcases hcases with ⟨k, rfl, hh⟩ | ⟨hno, hrest⟩
    · exact .inl hh
    · refine .inr ⟨fun j hh => hno j (Nat.zero_le j) (by have := hh.1.1; omega) hh, ?_⟩
      rcases hrest with ⟨k, rfl, hslot | hfree⟩ | ⟨_, _, hall⟩
      · cases hslot
      · exact .inl hfree.2
      · exact .inr fun j hj => hall j (Nat.zero_le j) (by omega)

/-- What `arp_lookup` does: old entries are dropped, the others stay as they are. -/
theorem arpLookup_cases (ip : Nat) :
    ∃ s' r, arpLookup s ip = .ok (s', r) ∧ s'.arpEntries = validCount s'.arpCache ∧
      (∀ i, Valid s'.arpCache i → Valid s.arpCache i ∧ s'.arpCache.cell i = s.arpCache.cell i) ∧
      ∀ k, r = some k → Holds s'.arpCache ip k := by
  obtain ⟨cache', hrun, hcell⟩ := expireFrom_eq s.arpCache s.ticks 8 0 0 (by omega)
  obtain ⟨r, hlook, hr⟩ := lookupFrom_eq cache' ip 8 0 (by omega)
  rw [arpLookup, expireArp, hrun, ok_bind]
  dsimp only
  rw [show (pure _ : Except Fault NetState) = .ok _ from rfl, ok_bind, hlook, ok_bind]
  refine ⟨_, r, rfl, ?_, fun i hi => ?_, hr⟩
  · rw [Nat.zero_add, validCount, List.range_eq_range']
  · obtain ⟨h8, hv⟩ := hi
    rw [hcell, if_pos ⟨by omega, by omega⟩, expire] at hv ⊢
    split at hv
    · cases hv
    · rename_i hkeep
      rw [if_neg hkeep]
      exact ⟨⟨h8, hv⟩, rfl⟩

theorem step_total (op : Op) : (step s op).isSome := by
  cases op with
  | put now ip mac =>
    obtain ⟨_, _, hput, _⟩ := arpCachePut_cases { s with ticks := now } ip mac
    rw [step, hput]
    rfl
  | lookup now ip =>
    obtain ⟨_, _, hlook, _⟩ := arpLookup_cases { s with ticks := now } ip
    rw [step, hlook]
    rfl

/-- One call keeps the cache a map of the latest puts. -/
theorem Inv.step {s s' : NetState} {latest : Nat → Option (List UInt8)} {op : Op}
    (h : Inv s latest) (hs : ArpCache.step s op = some s') : Inv s' (record latest op) := by
  cases op with
  | put now ip mac =>
    obtain ⟨k, s₁, hput, hk, hcount, hip, hvalid, hmac, hother, hcase⟩ :=
      arpCachePut_cases { s with ticks := now } ip mac
    rw [ArpCache.step, hput] at hs
    obtain rfl := Option.some.inj hs
    -- another valid entry was there before, and is for another address
    have hold : ∀ {i}, Valid s₁.arpCache i → i ≠ k →
        Valid s.arpCache i ∧ s₁.arpCache.cell i = s.arpCache.cell i ∧
        (s.arpCache.cell i).ip ≠ ip := by
      intro i hi hik
      have hcell := hother i hik
      have hv : Valid s.arpCache i := ⟨hi.1, by rw [← hcell]; exact hi.2⟩
      refine ⟨hv, hcell, fun heq => ?_⟩
      rcases hcase with hh | ⟨hno, _⟩
      · exact hik (h.unique hv hh.1 (heq.trans hh.2.symm))
      · exact hno i ⟨hv, heq⟩
    refine ⟨fun {i j} hi hj heq => ?_, hcount, fun {i} hi => ?_⟩
    · by_cases hik : i = k
      · by_cases hjk : j = k
        · rw [hik, hjk]
        · obtain ⟨_, hcell, hne⟩ := hold hj hjk
          rw [hik, hip, hcell] at heq
          exact absurd heq.symm hne
      · obtain ⟨hvi, hci, hnei⟩ := hold hi hik
        by_cases hjk : j = k
        · rw [hjk, hip, hci] at heq
          exact absurd heq hnei
        · obtain ⟨hvj, hcj, _⟩ := hold hj hjk
          rw [hci, hcj] at heq
          exact h.unique hvi hvj heq
    · rw [record]
      by_cases hik : i = k
      · rw [hik, hip, Function.update_self, hmac]
      · obtain ⟨hv, hcell, hne⟩ := hold hi hik
        rw [hcell, Function.update_of_ne hne]
        exact h.mac hv
  | lookup now ip =>
    obtain ⟨s₁, r, hlook, hcount, hkept, _⟩ := arpLookup_cases { s with ticks := now } ip
    rw [ArpCache.step, hlook] at hs
    cases hs
    refine ⟨fun {i j} hi hj heq => ?_, hcount, fun {i} hi => ?_⟩
    · obtain ⟨hvi, hci⟩ := hkept i hi
      obtain ⟨hvj, hcj⟩ := hkept j hj
      rw [hci, hcj] at heq
      exact h.unique hvi hvj heq
    · obtain ⟨hv, hcell⟩ := hkept i hi
      rw [hcell]
      exact h.mac hv

/-- `net_init` clears the cache. -/
def Cleared (s : NetState) : Prop := s.arpEntries = 0 ∧ ∀ i < 8, (s.arpCache.cell i).valid = false

theorem Cleared.inv {s : NetState} (h : Cleared s) : Inv s (fun _ => none) := by
  have hno : ∀ i, ¬ Valid s.arpCache i := fun i hi => nomatch (h.2 i hi.1).symm.trans hi.2
  refine ⟨fun hi => absurd hi (hno _), ?_, fun hi => absurd hi (hno _)⟩
  rw [h.1, validCount, eq_comm, List.countP_eq_zero]
  intro i hi
  simpa using h.2 i (List.mem_range.mp hi)

/-- **The cache is a map in which the last writer wins.**  After any calls at any times no
    address has two valid entries and the counter counts them; the next call returns; what
    it looks up is the MAC put last, and what it puts displaces the entry of another
    address only when all eight are valid and none is for the address put. -/
theorem last_writer_wins {s₀ s : NetState} (h0 : Cleared s₀) {ops : List Op}
    (hrun : Steps step Any s₀ ops s) :
    (∀ ip i j, Holds s.arpCache ip i → Holds s.arpCache ip j → i = j) ∧
    s.arpEntries = validCount s.arpCache ∧
    (∀ op, (step s op).isSome) ∧
    (∀ now ip s' k, arpLookup { s with ticks := now } ip = .ok (s', some k) →
      latestPut ops ip = some (macBytes (s'.arpCache.cell k).mac)) ∧
    ∀ now ip mac s', step s (.put now ip mac) = some s' → ∀ i, Valid s.arpCache i →
      (s.arpCache.cell i).ip ≠ ip → s'.arpCache.cell i ≠ s.arpCache.cell i →
      (∀ j < 8, Valid s.arpCache j) ∧ ∀ j, ¬ Holds s.arpCache ip j := by
  have h : Inv s (ops.foldl record fun _ => none) :=
    hrun.simulates (fun _ _ _ _ h _ hs => h.step hs) h0.inv
  refine ⟨fun ip i j hi hj => h.unique hi.1 hj.1 (hi.2.trans hj.2.symm), h.count, step_total s,
    fun now ip s' k hlook => ?_, fun now ip mac s' hs i hi hne hchanged => ?_⟩
  · obtain ⟨s₁, r, heq, _, hkept, hr⟩ := arpLookup_cases { s with ticks := now } ip
    cases hlook.symm.trans heq
    obtain ⟨hv, hip⟩ := hr k rfl
    obtain ⟨hv', hcell⟩ := hkept k hv
    rw [hcell] at hip ⊢
    rw [latestPut, ← hip]
    exact h.mac hv'
  · obtain ⟨k, s₁, hput, _, _, _, _, _, hother, hcase⟩ :=
      arpCachePut_cases { s with ticks := now } ip mac
    rw [step, hput] at hs
    cases hs
    obtain rfl : i = k := by
      by_contra hik
      exact hchanged (hother i hik)
    rcases hcase with hh | ⟨hno, hfree | hall⟩
    · exact absurd hh.2 hne
    · cases hi.2.symm.trans hfree
    · exact ⟨hall, hno⟩

/-- The variables as `net_init` leaves them. -/
def initial : NetState where
  driver := .ne2000
  ioBase := 0xC000
  mac := ⟨fun i => [0x52, 0x54, 0x00, 0x12, 0x34, 0x56].getD i 0⟩
  packetsTx := 0
  dropped := 0
  checksumErrors := 0
  arpEntries := 0
  lastPingOk := false
  pendingPingIp := 0
  pendingPingSeq := 0
  arpCache := ⟨fun _ => ⟨0, ⟨fun _ => 0⟩, 0, false⟩⟩
  lastUdp := ⟨0, 0, 0, 0, ⟨fun _ => 0⟩, false⟩
  ticks := 0
  passed := []
  wire := []

/-- Two puts for one address. -/
def twoPuts : List Op :=
  [.put 5 0x0A000202 ⟨fun _ => 7⟩, .put 6 0x0A000202 ⟨fun _ => 9⟩]

/-- The lookup after them finds the second. -/
theorem last_writer_wins_twoPuts : ∃ s s' k, Steps step Any initial twoPuts s ∧
    arpLookup { s with ticks := 10 } 0x0A000202 = .ok (s', some k) ∧
    macBytes (s'.arpCache.cell k).mac = List.replicate 6 9 := by
  have hfound : (runWhile step Any initial twoPuts).bind (fun s =>
      (arpLookup { s with ticks := 10 } 0x0A000202).toOption.map Prod.snd) = some (some 0) := by
    decide
  obtain ⟨s, hs, hlook⟩ := Option.bind_eq_some_iff.mp hfound
  have hrun := steps_of_runWhile hs
  obtain ⟨s₁, r, heq, -⟩ := arpLookup_cases { s with ticks := 10 } 0x0A000202
  rw [heq] at hlook
  cases hlook
  have hmac := (last_writer_wins ⟨rfl, fun _ _ => rfl⟩ hrun).2.2.2.1 10 0x0A000202 s₁ 0 heq
  exact ⟨s, s₁, 0, hrun, heq, (Option.some.inj hmac).symm⟩

end ArpCache
