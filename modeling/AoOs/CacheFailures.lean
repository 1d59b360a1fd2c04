import AoOs.BlockCache

/-! # Failing accesses — the block cache when `ata_write_sector` fails late

    `ata_write_sector` transfers the sector, then flushes and waits; if that wait
    times out it reports a failure although the sector has reached the drive.
    `block_cache_write_sector` leaves the cache alone after any failure.  An entry
    for a sector whose write failed late is therefore stale, and the next read of
    it succeeds with the old bytes. -/

namespace CacheFailures

open BlockIO StepSystem BlockCache

variable {st : Storage}

/-! ## Accesses -/

/-- What becomes of a sector handed to `ata_write_sector`: it is written; or the
    controller gives up before, or after the sector has reached the drive. -/
inductive WriteOutcome where
  | done
  | lost
  | reached

/-- `ata_write_sector`; `false` is the result -1. -/
def ataWriteSector (st : Storage) (lba : UInt32) (buf : Sector) : WriteOutcome → Bool × Storage
  | .done => (true, st.ataStore lba buf)
  | .lost => (false, st)
  | .reached => (false, st.ataStore lba buf)

/-- `block_cache_write_sector`; `none` is a null buffer. -/
def blockCacheWriteSector (st : Storage) (lba : UInt32) (buffer : Option Sector)
    (out : WriteOutcome) : Bool × Storage :=
  match buffer with
  | none => (false, st)
  | some buf =>
    match ataWriteSector st lba buf out with
    | (false, st) => (false, st)
    | (true, st) => (true, st.fill ((findEntry st lba).getD (chooseVictim st)) lba buf)

/-- `block_cache_read_sector`; `buffer` says whether there is one. -/
def blockCacheReadSector (st : Storage) (lba : UInt32) (buffer ok : Bool) :
    Option Sector × Storage :=
  if buffer then BlockCache.blockCacheReadSector st lba ok else (none, st)

/-- The accesses of a run, with the answer of the controller should it be asked. -/
inductive Access where
  | read (lba : UInt32) (buffer ok : Bool)
  | write (lba : UInt32) (buffer : Option Sector) (out : WriteOutcome)

/-- The storage after an access. -/
def after (st : Storage) : Access → Storage
  | .read lba buffer ok => (blockCacheReadSector st lba buffer ok).2
  | .write lba buffer out => (blockCacheWriteSector st lba buffer out).2

def step (st : Storage) (x : Access) : Option Storage := some (after st x)

theorem findFrom_congr {st' : Storage} (h : st'.cache = st.cache) (lba : UInt32) (n i : Nat) :
    findFrom st' lba n i = findFrom st lba n i := by
  induction n generalizing i with
  | zero => rfl
  | succ n ih => rw [findFrom, findFrom, h, ih]

theorem victimFrom_congr {st' : Storage} (h : st'.cache = st.cache) (n i victim : Nat) :
    victimFrom st' n i victim = victimFrom st n i victim := by
  induction n generalizing i victim with
  | zero => rfl
  | succ n ih => rw [victimFrom, victimFrom, h, ih]

/-- A store to the drive does not change which entry is used. -/
theorem slotFor_ataStore (st : Storage) (lba : UInt32) (buf : Sector) :
    (findEntry (st.ataStore lba buf) lba).getD (chooseVictim (st.ataStore lba buf)) =
      (findEntry st lba).getD (chooseVictim st) := by
  have hcache : (st.ataStore lba buf).cache = st.cache := rfl
  rw [findEntry, chooseVictim, findFrom_congr hcache, victimFrom_congr hcache, ← findEntry,
    ← chooseVictim]

/-- A write is what it is without late failures, or it is lost on the drive only. -/
theorem after_write_cases (st : Storage) (lba : UInt32) (buffer : Option Sector)
    (out : WriteOutcome) : after st (.write lba buffer out) = st ∨
    ∃ buf, buffer = some buf ∧
      ((out = .reached ∧ after st (.write lba buffer out) = st.ataStore lba buf) ∨
        (out = .done ∧ after st (.write lba buffer out) =
          (BlockCache.blockCacheWriteSector st lba buf true).2)) := by
  cases buffer with
  | none => exact .inl rfl
  | some buf =>
    cases out with
    | done =>
      refine .inr ⟨buf, rfl, .inr ⟨rfl, ?_⟩⟩
      show (st.ataStore lba buf).fill _ lba buf = (st.ataStore lba buf).fill _ lba buf
      rw [slotFor_ataStore]
    | lost => exact .inl rfl
    | reached => exact .inr ⟨buf, rfl, .inl ⟨rfl, rfl⟩⟩

theorem after_read_cases (st : Storage) (lba : UInt32) (buffer ok : Bool) :
    after st (.read lba buffer ok) = st ∨
      after st (.read lba buffer ok) = (BlockCache.blockCacheReadSector st lba ok).2 := by
  cases buffer with
  | false => exact .inl rfl
  | true => exact .inr rfl

/-! ## Stale entries -/

/-- The writes after which no entry is stale: no other entry is for the sector
    that is written; and if the write fails late, no entry at all is. -/
def Unshared (st : Storage) : Access → Prop
  | .read _ _ _ => True
  | .write _ none _ => True
  | .write _ (some _) .lost => True
  | .write lba (some _) .done => ∀ i < cacheSize, (st.cache i).valid →
      ataSector (st.cache i).lba = ataSector lba → (st.cache i).lba = lba
  | .write lba (some _) .reached => ∀ i < cacheSize, (st.cache i).valid →
      ataSector (st.cache i).lba ≠ ataSector lba

/-- A store to the drive alone, with no entry for its sector. -/
theorem coherent_ataStore (h : Coherent st) {lba : UInt32} (buf : Sector)
    (hfree : ∀ i < cacheSize, (st.cache i).valid → ataSector (st.cache i).lba ≠ ataSector lba) :
    Coherent (st.ataStore lba buf) := fun i hi hv b hb =>
  (h i hi hv b hb).trans (contents_ataStore_other st buf (hfree i hi hv) b hb).symm

/-- A write that succeeds, with no entry of another key for its sector. -/
theorem coherent_written (h : Coherent st) (hd : Distinct st) {lba : UInt32} (buf : Sector)
    (hown : ∀ i < cacheSize, (st.cache i).valid →
      ataSector (st.cache i).lba = ataSector lba → (st.cache i).lba = lba) :
    Coherent (BlockCache.blockCacheWriteSector st lba buf true).2 := by
  obtain ⟨-, hfresh⟩ := slotFor_spec st lba hd
  refine coherent_fill (fun i hi hne hv b hb => ?_) fun b hb =>
    (contents_ataStore_same st buf rfl b hb).symm
  have hkey : ataSector (st.cache i).lba ≠ ataSector lba := fun heq =>
    hfresh i hi hne hv (hown i hi hv heq)
  exact (h i hi hv b hb).trans (contents_ataStore_other st buf hkey b hb).symm

/-- One access. -/
theorem coherent_after {x : Access} (h : Coherent st ∧ Distinct st) (hx : Unshared st x) :
    Coherent (after st x) ∧ Distinct (after st x) := by
  obtain ⟨hco, hdi⟩ := h
  cases x with
  | read lba buffer ok =>
    rcases after_read_cases st lba buffer ok with he | he <;> rw [he]
    · exact ⟨hco, hdi⟩
    · exact ⟨coherent_read hco lba ok, distinct_read hdi lba ok⟩
  | write lba buffer out =>
    rcases after_write_cases st lba buffer out with he | ⟨buf, rfl, ⟨rfl, he⟩ | ⟨rfl, he⟩⟩ <;>
      rw [he]
    · exact ⟨hco, hdi⟩
    · exact ⟨coherent_ataStore hco buf hx, hdi⟩
    · exact ⟨coherent_written hco hdi buf hx, distinct_write hdi lba buf⟩

/-- **Reads after failures.**  From an initialised cache, after any accesses that
    leave no entry stale, every read that succeeds returns what the drive holds. -/
theorem read_current (st : Storage) (xs : List Access) (st' : Storage)
    (hrun : Steps step Unshared (blockCacheInvalidate st) xs st') (lba : UInt32) (ok : Bool)
    (s : Sector) (st'' : Storage) (hread : blockCacheReadSector st' lba true ok = (some s, st'')) :
    SameBytes s (st''.contents lba) := by
  have hinit : Coherent (blockCacheInvalidate st) ∧ Distinct (blockCacheInvalidate st) :=
    ⟨fun _ _ hv => (nomatch hv), fun _ _ _ _ hv => (nomatch hv)⟩
  have hinv : Coherent st' ∧ Distinct st' := hrun.invariant (fun _ _ _ h hx hs =>
    Option.some.inj hs ▸ coherent_after h hx) hinit
  have hsame : st''.contents lba = st'.contents lba := by
    rw [← contents_read st' lba lba ok]
    exact congrArg (Storage.contents · lba) (congrArg Prod.snd hread).symm
  rw [hsame]
  exact read_contents hinv.1 hread

/-- Sector 7 is written, a write to sector 8 fails late, and sector 7 is read. -/
theorem read_current_blank : ∃ st' s st'', Steps step Unshared (blockCacheInvalidate blank)
        [.write 7 (some fun _ => 1) .done, .write 8 (some fun _ => 2) .reached] st' ∧
      blockCacheReadSector st' 7 true true = (some s, st'') ∧
        SameBytes s (st''.contents 7) := by
  have hrun : Steps step Unshared (blockCacheInvalidate blank)
      [.write 7 (some fun _ => 1) .done, .write 8 (some fun _ => 2) .reached]
      (after (after (blockCacheInvalidate blank) (.write 7 (some fun _ => 1) .done))
        (.write 8 (some fun _ => 2) .reached)) :=
    .cons rfl (by unfold Unshared; decide) (.cons rfl (by unfold Unshared; decide) (.nil _))
  exact ⟨_, _, _, hrun, rfl, read_current blank _ _ hrun 7 true _ _ rfl⟩

/-- **A stale read**: sector 7 is in the cache, a write to it fails after it has
    reached the drive, and the next read returns the bytes from before. -/
theorem failed_write_leaves_stale : ∃ st' s st'', Steps step Any (blockCacheInvalidate blank)
        [.write 7 (some fun _ => 1) .done, .write 7 (some fun _ => 2) .reached] st' ∧
      blockCacheReadSector st' 7 true true = (some s, st'') ∧ ¬ SameBytes s (st''.contents 7) :=
  ⟨_, _, _, .cons rfl trivial (.cons rfl trivial (.nil _)), rfl,
    fun h => absurd (h 0 (by decide)) (by decide)⟩

end CacheFailures
