import AoOs.BlockIO
import AoOs.StepSystem

/-! # The block cache — `block_cache.c` over `ata.c`

    32 write-through entries keyed by a 32-bit LBA, replaced by age, in front of
    one ATA controller with two drives.  The controller is programmed with 28
    address bits only, so two LBAs that differ above bit 27 are one sector of the
    drive and two keys of the cache.

    What the cache is FOR is stated next to it: a reference store that remembers,
    per LBA, the last bytes written with success.  `Transparent` compares the two
    in every state of a run, and a run that stays below `2 ^ 28` keeps it. -/

namespace BlockCache

open BlockIO StepSystem

variable {lba : UInt32} {idx : Nat}

/-- `BLOCK_CACHE_SIZE`. -/
def cacheSize : Nat := 32

/-- `cache_entry_t`. -/
structure CacheEntry where
  valid : Bool
  lba : UInt32
  age : UInt32
  data : Sector

/-- The controller with its two drives (`true` is the slave), and the statics of
    `block_cache.c`. -/
structure Storage where
  drive : Bool → Disk
  selected : Bool
  cache : Nat → CacheEntry
  clock : UInt32

variable {st : Storage}

/-- The sector of the drive that the controller is programmed with: the top four
    bits of the LBA are masked off. -/
def ataSector (lba : UInt32) : Nat := lba.toNat % 2 ^ 28

namespace Storage

/-- What the selected drive holds at an LBA. -/
def contents (st : Storage) (lba : UInt32) : Sector :=
  (st.drive st.selected).sector (ataSector lba)

/-- A successful `ata_write_sector`. -/
def ataStore (st : Storage) (lba : UInt32) (buf : Sector) : Storage :=
  { st with drive := fun s =>
      if s = st.selected then (st.drive s).store (ataSector lba) buf else st.drive s }

/-- `ata_select_drive`. -/
def ataSelectDrive (st : Storage) (slave : Bool) : Storage := { st with selected := slave }

/-- `cache[idx].age = clock_tick++`. -/
def touch (st : Storage) (idx : Nat) : Storage :=
  { st with
    cache := fun i => if i = idx then { st.cache i with age := st.clock } else st.cache i
    clock := st.clock + 1 }

/-- The stores that make `idx` a valid entry for `lba`. -/
def fill (st : Storage) (idx : Nat) (lba : UInt32) (data : Sector) : Storage :=
  { st with
    cache := fun i => if i = idx then ⟨true, lba, st.clock, data⟩ else st.cache i
    clock := st.clock + 1 }

end Storage

/-- `block_cache_invalidate`; `block_cache_init` is the same function. -/
def blockCacheInvalidate (st : Storage) : Storage :=
  { st with cache := fun _ => ⟨false, 0, 0, fun _ => 0⟩, clock := 1 }

/-- The loop of `find_entry`, `n` entries left, at entry `i`. -/
def findFrom (st : Storage) (lba : UInt32) : Nat → Nat → Option Nat
  | 0, _ => none
  | n + 1, i =>
    if (st.cache i).valid ∧ (st.cache i).lba = lba then some i else findFrom st lba n (i + 1)

/-- `find_entry`. -/
def findEntry (st : Storage) (lba : UInt32) : Option Nat := findFrom st lba cacheSize 0

/-- The loop of `choose_victim`. -/
def victimFrom (st : Storage) : Nat → Nat → Nat → Nat
  | 0, _, victim => victim
  | n + 1, i, victim =>
    if (st.cache i).valid = false then i
    else victimFrom st n (i + 1)
      (if (st.cache i).age < (st.cache victim).age then i else victim)

/-- `choose_victim`. -/
def chooseVictim (st : Storage) : Nat := victimFrom st cacheSize 0 0

/-- `block_cache_read_sector`; `ok` says whether the controller would serve the
    request, should the cache have to make it. -/
def blockCacheReadSector (st : Storage) (lba : UInt32) (ok : Bool) : Option Sector × Storage :=
  match findEntry st lba with
  | some idx => (some (st.cache idx).data, st.touch idx)
  | none =>
    if ok then
      (some (st.contents lba), st.fill (chooseVictim st) lba (st.contents lba))
    else (none, st)

/-- `block_cache_write_sector`: the drive first, the cache only after a success. -/
def blockCacheWriteSector (st : Storage) (lba : UInt32) (buf : Sector) (ok : Bool) :
    Bool × Storage :=
  if ok then
    (true, (st.ataStore lba buf).fill ((findEntry st lba).getD (chooseVictim st)) lba buf)
  else (false, st)

/-! ## What the loops compute -/

theorem findFrom_some {n i k} (h : findFrom st lba n i = some k) :
    k < i + n ∧ (st.cache k).valid ∧ (st.cache k).lba = lba := by
  induction n generalizing i k with
  | zero => cases h
  | succ n ih =>
    rw [findFrom] at h
    by_cases hi : (st.cache i).valid ∧ (st.cache i).lba = lba
    · cases (if_pos hi).symm.trans h
      exact ⟨by omega, hi⟩
    · rw [if_neg hi] at h
      obtain ⟨hk, hrest⟩ := ih h
      exact ⟨by omega, hrest⟩

theorem findFrom_none {n i} (h : findFrom st lba n i = none) :
    ∀ k, i ≤ k → k < i + n → (st.cache k).valid → (st.cache k).lba ≠ lba := by
  induction n generalizing i with
  | zero => intro k h1 h2; omega
  | succ n ih =>
    intro k h1 h2 hv
    rw [findFrom] at h
    by_cases hi : (st.cache i).valid ∧ (st.cache i).lba = lba
    · cases (if_pos hi).symm.trans h
    · rw [if_neg hi] at h
      by_cases hki : k = i
      · rw [hki] at hv ⊢
        exact fun heq => hi ⟨hv, heq⟩
      · exact ih h k (by omega) (by omega) hv

theorem victimFrom_lt (st : Storage) (n i victim) (h : victim < i + n) :
    victimFrom st n i victim < i + n := by
  induction n generalizing i victim with
  | zero => exact h
  | succ n ih =>
    rw [victimFrom]
    by_cases hv : (st.cache i).valid = false
    · rw [if_pos hv]
      omega
    · rw [if_neg hv]
      have hlt := ih (i + 1) (if (st.cache i).age < (st.cache victim).age then i else victim)
        (by split <;> omega)
      omega

theorem findEntry_some {k : Nat} (h : findEntry st lba = some k) :
    k < cacheSize ∧ (st.cache k).valid ∧ (st.cache k).lba = lba := by
  obtain ⟨hk, hrest⟩ := findFrom_some h
  exact ⟨by omega, hrest⟩

theorem findEntry_none (h : findEntry st lba = none) {k : Nat} (hk : k < cacheSize)
    (hv : (st.cache k).valid) : (st.cache k).lba ≠ lba :=
  findFrom_none h k (Nat.zero_le k) (by omega) hv

theorem chooseVictim_lt (st : Storage) : chooseVictim st < cacheSize := by
  have h := victimFrom_lt st cacheSize 0 0 (by decide)
  rwa [Nat.zero_add] at h

/-- The entry a write goes to is in the table, and no other entry has the key. -/
theorem slotFor_spec (st : Storage) (lba : UInt32)
    (hd : ∀ i j, i < cacheSize → j < cacheSize → (st.cache i).valid → (st.cache j).valid →
      (st.cache i).lba = (st.cache j).lba → i = j) :
    (findEntry st lba).getD (chooseVictim st) < cacheSize ∧
    ∀ k, k < cacheSize → k ≠ (findEntry st lba).getD (chooseVictim st) →
      (st.cache k).valid → (st.cache k).lba ≠ lba := by
  cases hf : findEntry st lba with
  | none => exact ⟨chooseVictim_lt st, fun k hk _ hv => findEntry_none hf hk hv⟩
  | some idx =>
    obtain ⟨hlt, hvalid, hlba⟩ := findEntry_some hf
    refine ⟨hlt, fun k hk hne hv heq => hne ?_⟩
    exact hd k idx hk hlt hv hvalid (heq.trans hlba.symm)

/-! ## Coherence -/

/-- Every valid entry holds what the selected drive holds at its LBA. -/
def Coherent (st : Storage) : Prop :=
  ∀ i, i < cacheSize → (st.cache i).valid →
    SameBytes (st.cache i).data (st.contents (st.cache i).lba)

/-- No two valid entries have one LBA. -/
def Distinct (st : Storage) : Prop :=
  ∀ i j, i < cacheSize → j < cacheSize → (st.cache i).valid → (st.cache j).valid →
    (st.cache i).lba = (st.cache j).lba → i = j

/-- Every key is an LBA the controller can tell from every other. -/
def Addressable (st : Storage) : Prop :=
  ∀ i, i < cacheSize → (st.cache i).valid → (st.cache i).lba.toNat < 2 ^ 28

@[simp] theorem contents_touch (st : Storage) (idx : Nat) (lba : UInt32) :
    (st.touch idx).contents lba = st.contents lba := rfl

theorem cache_fill_same (st : Storage) (idx : Nat) (lba : UInt32) (data : Sector) :
    (st.fill idx lba data).cache idx = ⟨true, lba, st.clock, data⟩ := if_pos rfl

theorem cache_fill_other (st : Storage) {i : Nat} (lba : UInt32) (data : Sector) (h : i ≠ idx) :
    (st.fill idx lba data).cache i = st.cache i := if_neg h

/-- A touch changes no key, no data and no valid bit. -/
theorem cache_touch (st : Storage) (idx i : Nat) :
    ((st.touch idx).cache i).valid = (st.cache i).valid ∧
    ((st.touch idx).cache i).lba = (st.cache i).lba ∧
    ((st.touch idx).cache i).data = (st.cache i).data := by
  by_cases h : i = idx
  · have he : (st.touch idx).cache i = { st.cache i with age := st.clock } := if_pos h
    rw [he]
    exact ⟨rfl, rfl, rfl⟩
  · have he : (st.touch idx).cache i = st.cache i := if_neg h
    rw [he]
    exact ⟨rfl, rfl, rfl⟩

theorem coherent_touch (h : Coherent st) (idx : Nat) : Coherent (st.touch idx) := by
  intro i hi hv
  obtain ⟨hvalid, hlba, hdata⟩ := cache_touch st idx i
  rw [hdata, hlba, contents_touch]
  exact h i hi (hvalid ▸ hv)

theorem distinct_touch (h : Distinct st) (idx : Nat) : Distinct (st.touch idx) := by
  intro i j hi hj hvi hvj heq
  obtain ⟨hi1, hi2, _⟩ := cache_touch st idx i
  obtain ⟨hj1, hj2, _⟩ := cache_touch st idx j
  exact h i j hi hj (hi1 ▸ hvi) (hj1 ▸ hvj) (by rw [← hi2, ← hj2]; exact heq)

theorem addressable_touch (h : Addressable st) (idx : Nat) : Addressable (st.touch idx) := by
  intro i hi hv
  obtain ⟨hvalid, hlba, _⟩ := cache_touch st idx i
  rw [hlba]
  exact h i hi (hvalid ▸ hv)

/-- A fill with the drive's own bytes keeps the entries coherent, whatever it
    evicts. -/
theorem coherent_fill {data : Sector} (h : ∀ i, i < cacheSize → i ≠ idx → (st.cache i).valid →
      SameBytes (st.cache i).data (st.contents (st.cache i).lba))
    (hdata : SameBytes data (st.contents lba)) : Coherent (st.fill idx lba data) := by
  intro i hi hv
  by_cases he : i = idx
  · rw [he, cache_fill_same]
    exact hdata
  · rw [cache_fill_other st lba data he] at hv ⊢
    exact h i hi he hv

/-- The new key is in one entry only when no other entry had it. -/
theorem distinct_fill (h : Distinct st) (data : Sector)
    (hfresh : ∀ k, k < cacheSize → k ≠ idx → (st.cache k).valid → (st.cache k).lba ≠ lba) :
    Distinct (st.fill idx lba data) := by
  intro i j hi hj hvi hvj heq
  by_cases hii : i = idx <;> by_cases hjj : j = idx
  · rw [hii, hjj]
  · rw [hii, cache_fill_same, cache_fill_other st lba data hjj] at heq
    rw [cache_fill_other st lba data hjj] at hvj
    exact absurd heq.symm (hfresh j hj hjj hvj)
  · rw [hjj, cache_fill_same, cache_fill_other st lba data hii] at heq
    rw [cache_fill_other st lba data hii] at hvi
    exact absurd heq (hfresh i hi hii hvi)
  · rw [cache_fill_other st lba data hii] at hvi heq
    rw [cache_fill_other st lba data hjj] at hvj heq
    exact h i j hi hj hvi hvj heq

theorem addressable_fill (h : Addressable st) (data : Sector) (hlba : lba.toNat < 2 ^ 28) :
    Addressable (st.fill idx lba data) := by
  intro i hi hv
  by_cases he : i = idx
  · rw [he, cache_fill_same]
    exact hlba
  · rw [cache_fill_other st lba data he] at hv ⊢
    exact h i hi hv

theorem ataSector_inj {a b : UInt32} (ha : a.toNat < 2 ^ 28) (hb : b.toNat < 2 ^ 28)
    (h : ataSector a = ataSector b) : a = b := by
  rw [ataSector, ataSector, Nat.mod_eq_of_lt ha, Nat.mod_eq_of_lt hb] at h
  exact UInt32.toNat_inj.mp h

/-- The drive after a write, where the write went. -/
theorem contents_ataStore_same (st : Storage) {key : UInt32} (buf : Sector)
    (h : ataSector key = ataSector lba) : SameBytes ((st.ataStore lba buf).contents key) buf := by
  intro b hb
  show (if st.selected = st.selected then _ else _ : Disk) (sectorSize * ataSector key + b) = buf b
  rw [if_pos rfl, h, store_same _ _ _ hb]

/-- The drive after a write, everywhere else. -/
theorem contents_ataStore_other (st : Storage) {key : UInt32} (buf : Sector)
    (h : ataSector key ≠ ataSector lba) :
    SameBytes ((st.ataStore lba buf).contents key) (st.contents key) := by
  intro b hb
  show (if st.selected = st.selected then _ else _ : Disk) (sectorSize * ataSector key + b) = _
  rw [if_pos rfl, store_other _ _ (by unfold sectorSize at hb ⊢; omega)]
  rfl

/-! ## Reads -/

/-- A successful read of a coherent cache returns the drive's bytes. -/
theorem read_contents {st' : Storage} (h : Coherent st) {ok : Bool} {s : Sector}
    (hr : blockCacheReadSector st lba ok = (some s, st')) : SameBytes s (st.contents lba) := by
  rw [blockCacheReadSector] at hr
  cases hf : findEntry st lba with
  | some idx =>
    obtain ⟨hlt, hvalid, hlba⟩ := findEntry_some hf
    rw [hf] at hr
    cases congrArg Prod.fst hr
    rw [← hlba]
    exact h idx hlt hvalid
  | none =>
    rw [hf] at hr
    cases ok with
    | true =>
      cases congrArg Prod.fst hr
      exact fun _ _ => rfl
    | false => cases congrArg Prod.fst hr

/-- What a read does to the storage: nothing to the drives, and one entry is
    touched, filled with the drive's bytes, or (on a failure) left alone. -/
theorem read_cases (st : Storage) (lba : UInt32) (ok : Bool) :
    (∃ idx, (blockCacheReadSector st lba ok).2 = st.touch idx) ∨
    (findEntry st lba = none ∧ (blockCacheReadSector st lba ok).2 =
      st.fill (chooseVictim st) lba (st.contents lba)) ∨
    (blockCacheReadSector st lba ok).2 = st := by
  rw [blockCacheReadSector]
  cases hf : findEntry st lba with
  | some idx => exact .inl ⟨idx, rfl⟩
  | none =>
    cases ok with
    | true => exact .inr (.inl ⟨rfl, rfl⟩)
    | false => exact .inr (.inr rfl)

theorem contents_read (st : Storage) (lba key : UInt32) (ok : Bool) :
    (blockCacheReadSector st lba ok).2.contents key = st.contents key := by
  rcases read_cases st lba ok with ⟨idx, h⟩ | ⟨_, h⟩ | h <;> rw [h]
  · rfl
  · rfl

theorem coherent_read (h : Coherent st) (lba : UInt32) (ok : Bool) :
    Coherent (blockCacheReadSector st lba ok).2 := by
  rcases read_cases st lba ok with ⟨idx, hr⟩ | ⟨_, hr⟩ | hr <;> rw [hr]
  · exact coherent_touch h idx
  · exact coherent_fill (fun i hi _ hv => h i hi hv) (fun _ _ => rfl)
  · exact h

theorem distinct_read (h : Distinct st) (lba : UInt32) (ok : Bool) :
    Distinct (blockCacheReadSector st lba ok).2 := by
  rcases read_cases st lba ok with ⟨idx, hr⟩ | ⟨hf, hr⟩ | hr <;> rw [hr]
  · exact distinct_touch h idx
  · exact distinct_fill h _ (fun k hk _ hv => findEntry_none hf hk hv)
  · exact h

theorem addressable_read (h : Addressable st) (ok : Bool) (hlba : lba.toNat < 2 ^ 28) :
    Addressable (blockCacheReadSector st lba ok).2 := by
  rcases read_cases st lba ok with ⟨idx, hr⟩ | ⟨_, hr⟩ | hr <;> rw [hr]
  · exact addressable_touch h idx
  · exact addressable_fill h _ hlba
  · exact h

/-! ## Writes -/

/-- A successful write of an addressable LBA reaches its own entry and no other
    entry's sector. -/
theorem coherent_write (h : Coherent st) (hd : Distinct st) (ha : Addressable st) (buf : Sector)
    (hlba : lba.toNat < 2 ^ 28) : Coherent (blockCacheWriteSector st lba buf true).2 := by
  obtain ⟨_, hfresh⟩ := slotFor_spec st lba hd
  refine coherent_fill (fun i hi hne hv b hb => ?_) (fun b hb => ?_)
  · have hkey : ataSector (st.cache i).lba ≠ ataSector lba :=
      fun heq => hfresh i hi hne hv (ataSector_inj (ha i hi hv) hlba heq)
    exact (h i hi hv b hb).trans (contents_ataStore_other st buf hkey b hb).symm
  · exact (contents_ataStore_same st buf rfl b hb).symm

theorem distinct_write (hd : Distinct st) (lba : UInt32) (buf : Sector) :
    Distinct (blockCacheWriteSector st lba buf true).2 := by
  have hstore : Distinct (st.ataStore lba buf) := hd
  exact distinct_fill hstore buf (slotFor_spec st lba hd).2

theorem addressable_write (ha : Addressable st) (buf : Sector) (hlba : lba.toNat < 2 ^ 28) :
    Addressable (blockCacheWriteSector st lba buf true).2 := by
  have hstore : Addressable (st.ataStore lba buf) := ha
  exact addressable_fill hstore buf hlba

/-! ## Runs against the reference store -/

/-- The accesses of a run; `ok` is the controller's answer to a request. -/
inductive Op where
  | read (lba : UInt32) (ok : Bool)
  | write (lba : UInt32) (buf : Sector) (ok : Bool)
  | invalidate

/-- The storage, what a user of it may expect at every LBA (the bytes last
    written there with success, the original contents before), and the
    successful reads so far, each with what was expected of it. -/
structure Traced where
  st : Storage
  expected : UInt32 → Sector
  reads : List (Sector × Sector)

variable {t : Traced}

/-- One access, carried out on the cache and recorded in the reference store. -/
def access (t : Traced) : Op → Traced
  | .read lba ok =>
    match blockCacheReadSector t.st lba ok with
    | (some s, st') => { t with st := st', reads := (s, t.expected lba) :: t.reads }
    | (none, st') => { t with st := st' }
  | .write lba buf ok =>
    match blockCacheWriteSector t.st lba buf ok with
    | (true, st') =>
      { t with st := st', expected := fun k => if k = lba then buf else t.expected k }
    | (false, st') => { t with st := st' }
  | .invalidate => { t with st := blockCacheInvalidate t.st }

def step (t : Traced) (op : Op) : Option Traced := some (access t op)

/-- A storage whose cache was just initialised. -/
def boot (st : Storage) : Traced := ⟨blockCacheInvalidate st, st.contents, []⟩

/-- **Transparency.** -/
structure Transparent (t : Traced) : Prop where
  coherent : Coherent t.st
  distinct : Distinct t.st
  reads_expected : ∀ r ∈ t.reads, SameBytes r.1 r.2

/-- The accesses whose LBA fits the 28 bits the controller is programmed with. -/
def InRange (_ : Traced) : Op → Prop
  | .read lba _ => lba.toNat < 2 ^ 28
  | .write lba _ _ => lba.toNat < 2 ^ 28
  | .invalidate => True

/-- What a run keeps below `2 ^ 28`: transparency, because the drive itself is
    the reference store there. -/
structure Inv (t : Traced) : Prop extends Transparent t where
  addressable : Addressable t.st
  current : ∀ lba, lba.toNat < 2 ^ 28 → SameBytes (t.st.contents lba) (t.expected lba)

theorem inv_invalidate (hr : ∀ r ∈ t.reads, SameBytes r.1 r.2)
    (hc : ∀ lba, lba.toNat < 2 ^ 28 → SameBytes (t.st.contents lba) (t.expected lba)) :
    Inv { t with st := blockCacheInvalidate t.st } where
  coherent := fun _ _ hv => nomatch hv
  distinct := fun _ _ _ _ hv => nomatch hv
  reads_expected := hr
  addressable := fun _ _ hv => nomatch hv
  current := hc

theorem inv_boot (st : Storage) : Inv (boot st) :=
  inv_invalidate (t := ⟨st, st.contents, []⟩) (fun _ hr => nomatch hr) (fun _ _ _ _ => rfl)

theorem Inv.read (h : Inv t) (ok : Bool) (hlba : lba.toNat < 2 ^ 28) :
    Inv (access t (.read lba ok)) := by
  have hco := coherent_read h.coherent lba ok
  have hdi := distinct_read h.distinct lba ok
  have had := addressable_read h.addressable ok hlba
  have hcu : ∀ key, key.toNat < 2 ^ 28 →
      SameBytes ((blockCacheReadSector t.st lba ok).2.contents key) (t.expected key) := by
    intro key hkey
    rw [contents_read]
    exact h.current key hkey
  rw [access]
  rcases hr : blockCacheReadSector t.st lba ok with ⟨_ | s, st'⟩ <;> rw [hr] at hco hdi had hcu
  · exact ⟨⟨hco, hdi, h.reads_expected⟩, had, hcu⟩
  · refine ⟨⟨hco, hdi, fun r hmem => ?_⟩, had, hcu⟩
    rcases List.mem_cons.mp hmem with rfl | hmem
    · exact fun b hb => (read_contents h.coherent hr b hb).trans (h.current lba hlba b hb)
    · exact h.reads_expected r hmem

theorem Inv.write (h : Inv t) (buf : Sector) (ok : Bool) (hlba : lba.toNat < 2 ^ 28) :
    Inv (access t (.write lba buf ok)) := by
  cases ok with
  | false => exact h
  | true =>
    refine ⟨⟨coherent_write h.coherent h.distinct h.addressable buf hlba,
      distinct_write h.distinct lba buf, h.reads_expected⟩,
      addressable_write h.addressable buf hlba, fun key hkey b hb => ?_⟩
    show (t.st.ataStore lba buf).contents key b = (if key = lba then buf else t.expected key) b
    by_cases hk : key = lba
    · rw [if_pos hk, hk]
      exact contents_ataStore_same t.st buf rfl b hb
    · have hsec : ataSector key ≠ ataSector lba :=
        fun heq => hk (ataSector_inj hkey hlba heq)
      rw [if_neg hk, contents_ataStore_other t.st buf hsec b hb]
      exact h.current key hkey b hb

theorem Inv.step {t' : Traced} {op : Op} (h : Inv t) (hop : InRange t op)
    (hs : step t op = some t') :
    Inv t' := by
  cases hs
  cases op with
  | read lba ok => exact h.read ok hop
  | write lba buf ok => exact h.write buf ok hop
  | invalidate => exact inv_invalidate h.reads_expected h.current

/-- Whatever is read, written and invalidated below `2 ^ 28`, in whatever order
    and with whatever failures, the cache is transparent throughout. -/
theorem cache_transparent (st : Storage) (ops : List Op) (t : Traced)
    (hrun : Steps step InRange (boot st) ops t) : Transparent t :=
  (hrun.invariant (fun _ _ _ h hop hs => h.step hop hs) (inv_boot st)).toTransparent

/-- Two blank drives, the master selected. -/
def blank : Storage := ⟨fun _ _ => 0, false, fun _ => ⟨false, 0, 0, fun _ => 0⟩, 0⟩

theorem cache_transparent_writeRead :
    Steps step InRange (boot blank) [.write 7 (fun _ => 1) true, .read 7 true, .invalidate]
      ([.write 7 (fun _ => 1) true, .read 7 true, .invalidate].foldl access (boot blank)) ∧
    Transparent
      ([.write 7 (fun _ => 1) true, .read 7 true, .invalidate].foldl access (boot blank)) := by
  have hrun : Steps step InRange (boot blank)
      [.write 7 (fun _ => 1) true, .read 7 true, .invalidate]
      ([.write 7 (fun _ => 1) true, .read 7 true, .invalidate].foldl access (boot blank)) :=
    .cons rfl (by decide : (7 : UInt32).toNat < 2 ^ 28)
      (.cons rfl (by decide : (7 : UInt32).toNat < 2 ^ 28) (.cons rfl trivial (.nil _)))
  exact ⟨hrun, cache_transparent _ _ _ hrun⟩

/-- LBA `0` and LBA `2 ^ 28` are one sector of the drive: after a write to each,
    the entry of LBA `0` is stale, and a read of it behind an invalidation returns
    bytes that were written to the other. -/
theorem cache_aliases_lba28 : (∃ t, Steps step Any (boot blank)
        [.write 0 (fun _ => 1) true, .write 0x10000000 (fun _ => 2) true] t ∧
      ¬ Coherent t.st) ∧
    (∃ t, Steps step Any (boot blank)
        [.write 0 (fun _ => 1) true, .write 0x10000000 (fun _ => 2) true, .invalidate,
          .read 0 true] t ∧
      ¬ ∀ r ∈ t.reads, SameBytes r.1 r.2) := by
  refine ⟨⟨_, .cons rfl trivial (.cons rfl trivial (.nil _)), fun h => ?_⟩,
    ⟨_, .cons rfl trivial (.cons rfl trivial (.cons rfl trivial (.cons rfl trivial (.nil _)))),
      fun h => ?_⟩⟩
  · exact absurd (h 0 (by decide) (by decide) 0 (by decide)) (by decide)
  · exact absurd (h _ (.head _) 0 (by decide)) (by decide)

end BlockCache
