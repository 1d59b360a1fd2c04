import AoOs.FatImage

/-! # Allocating, freeing, filling clusters

    The loops of the driver that work on the table, on a disk that does not fail and
    in the terms of `FatImage`: `alloc_cluster` takes the first free cluster, marks
    and clears it; `free_chain` frees exactly the clusters of a chain; the cluster
    loop of `fat_create` builds one chain out of free clusters, with the data in it,
    or puts everything back.

    All of them change an image by the same few steps.  `Update` lists these steps
    with what the driver knows when it takes them; what every step keeps, every
    operation keeps. -/

namespace FatAlloc

open BlockIO FatTypes FatDriver FatRead FatGeometry FatTable FatImage
open BlockIO.BlockM (run exec)
open Relation (ReflTransGen)

variable {c : Nat} {d : Disk} {I : Image} {l : List Nat}

/-- The steps by which the driver changes an image, with what it knows of the table
    when it takes them. -/
inductive Update (v : Vol) : Image → Image → Prop
  | alloc {I : Image} {c : Nat} (hc : validDataCluster v c) (hz : I.val c = 0) :
      Update v I (I.allocated v c)
  | release {I : Image} {c : Nat} (hc : validDataCluster v c) (hnz : I.val c ≠ 0) :
      Update v I (I.released v c)
  | link {I : Image} {c x : Nat} (hc : validDataCluster v c) (hnz : I.val c ≠ 0)
      (hx : x ≠ 0) : Update v I (I.set v c x)
  | data {I : Image} (c s : Nat) (sec : Sector) : Update v I (I.putData c s sec)
  | root {I : Image} (t : Nat) (sec : Sector) : Update v I (I.putRoot t sec)

/-- Any number of such steps. -/
abbrev Updates (v : Vol) : Image → Image → Prop := ReflTransGen (Update v)

section Numbered

variable {v : Vol}

/-! ## FSInfo and zeroed clusters -/

theorem sector_resv (d : Disk) {s : Nat} (hs : s < v.reservedSectors) :
    SameBytes (d.sector s) (Disk.sector (image v d).resv s) := by
  intro i hi
  have hi' : i < 512 := hi
  exact (if_pos (show (sectorSize * s + i) / 512 < v.reservedSectors by
    rw [sectorSize]; omega)).symm

theorem data_beyond (d : Disk) {o : Nat} (h : ¬ o < clusterBytes v) :
    (image v d).data c o = 0 := if_neg fun hco => h hco.2

theorem eocValue_fits (v : Vol) : eocValue v % 16 ^ width v.type = eocValue v := by
  rw [eocValue]
  cases v.type <;> rfl

variable (hv : Numbered v)

include hv

theorem exec_fsinfoAdjustSector (s delta nextFree : Nat) (d : Disk) :
    ∃ d', exec (fsinfoAdjustSector v s delta nextFree) d = ((), d') ∧
      image v d' = (image v d).adjustSector v s delta nextFree := by
  rw [fsinfoAdjustSector, Image.adjustSector]
  by_cases hno : v.type ≠ .fat32 ∨ v.reservedSectors ≤ s
  · rw [if_pos hno, if_pos hno]
    exact ⟨d, rfl, rfl⟩
  · rw [if_neg hno, if_neg hno]
    rw [not_or, Nat.not_le] at hno
    have hsame := sector_resv d hno.2
    refine ⟨d.store s (adjustedSector v delta nextFree (d.sector s)), ?_, ?_⟩
    · rw [exec_bind, exec_readSector]
      dsimp only
      rw [adjustedSector]
      by_cases hsig : get32 (d.sector s) 0 ≠ 0x41615252 ∨ get32 (d.sector s) 484 ≠ 0x61417272 ∨
          get32 (d.sector s) 508 ≠ 0xAA550000
      · rw [if_pos hsig, if_pos hsig, store_same_bytes fun _ _ => rfl]
        rfl
      · rw [if_neg hsig, if_neg hsig]
        rfl
    · rw [hv.image_store_resv d hno.2, Image.putResv, Image.putResv,
        store_congr (SameBytes.adjusted hsame v delta nextFree)]

theorem exec_fsinfoAdjust (delta nextFree : Nat) (d : Disk) :
    ∃ d', exec (fsinfoAdjust v delta nextFree) d = ((), d') ∧
      image v d' = (image v d).adjust v delta nextFree := by
  rw [fsinfoAdjust, Image.adjust]
  by_cases hno : v.type ≠ .fat32 ∨ v.fsinfoSector = 0 ∨ v.fsinfoSector = 0xFFFF
  · rw [if_pos hno, if_pos hno]
    exact ⟨d, rfl, rfl⟩
  · rw [if_neg hno, if_neg hno]
    obtain ⟨d₁, hrun, himg⟩ := exec_fsinfoAdjustSector hv v.fsinfoSector delta nextFree d
    rw [exec_bind, hrun]
    by_cases hback : v.backupBootSector ≠ 0 ∧ v.backupBootSector ≠ 0xFFFF
    · obtain ⟨d₂, hrun₂, himg₂⟩ :=
        exec_fsinfoAdjustSector hv (v.backupBootSector + 1) delta nextFree d₁
      rw [if_pos hback, if_pos hback]
      exact ⟨d₂, hrun₂, by rw [himg₂, himg]⟩
    · rw [if_neg hback, if_neg hback]
      exact ⟨d₁, rfl, himg⟩

theorem exec_zeroFrom (hc : validDataCluster v c) (n s d) (hs : s + n ≤ v.sectorsPerCluster) :
    ∃ d', exec (zeroFrom v c n s) d = (true, d') ∧ image v d' = (image v d).clear c s n := by
  induction n generalizing s d with
  | zero =>
    refine ⟨d, rfl, Image.ext rfl rfl rfl rfl ?_⟩
    funext k o
    exact (if_neg (by omega)).symm
  | succ n ih =>
    obtain ⟨d', hrun, himg⟩ := ih (s + 1) (d.store (clusterSector v c + s) fun _ => 0) (by omega)
    refine ⟨d', ?_, ?_⟩
    · rw [zeroFrom, (hv.cluster_sectors hc (show s < _ by omega)).1, exec_bind, exec_writeSector]
      exact hrun
    · rw [himg, hv.image_store_data d hc (by omega)]
      refine Image.ext rfl rfl rfl rfl ?_
      funext k o
      simp only [Image.putData, Image.clear]
      split_ifs <;> first | rfl | omega

/-- The zeroing loop of `alloc_cluster`. -/
theorem exec_zero (hc : validDataCluster v c) (d : Disk) :
    ∃ d', exec (zeroFrom v c v.sectorsPerCluster 0) d = (true, d') ∧
      image v d' = (image v d).wipe c := by
  obtain ⟨d', hrun, himg⟩ := exec_zeroFrom hv hc v.sectorsPerCluster 0 d (by omega)
  refine ⟨d', hrun, ?_⟩
  rw [himg]
  refine Image.ext rfl rfl rfl rfl ?_
  funext k o
  show (if _ then _ else _) = if _ then _ else _
  have hcb : clusterBytes v = 512 * v.sectorsPerCluster := rfl
  by_cases hk : k = c
  · rw [if_pos hk]
    by_cases ho : o < clusterBytes v
    · exact if_pos ⟨hk, Nat.zero_le _, by omega⟩
    · exact (if_neg (by omega)).trans (data_beyond d ho)
  · rw [if_neg hk]
    exact if_neg fun h => hk h.1

/-! ## Allocation -/

theorem valid_of_range (h2 : 2 ≤ c) (hlt : c < clusterLimit v) : validDataCluster v c := by
  rw [hv.clusterLimit_eq] at hlt
  exact (hv.valid_iff c).mpr ⟨h2, hlt⟩

/-- The scan of `alloc_cluster`. -/
theorem exec_allocFrom (n c d) (h2 : 2 ≤ c) (hlt : c + n ≤ clusterLimit v) :
    ((image v d).freeFrom n c = none → exec (allocFrom v n c) d = (0, d)) ∧
    ∀ x, (image v d).freeFrom n c = some x →
      ∃ d', exec (allocFrom v n c) d = (x, d') ∧ image v d' = (image v d).allocated v x := by
  induction n generalizing c d with
  | zero =>
    exact ⟨fun _ => rfl, fun x hx => by cases hx⟩
  | succ n ih =>
    have hc := valid_of_range hv h2 (show c < clusterLimit v by omega)
    rw [allocFrom, exec_bind, hv.exec_fatGet d hc, Image.freeFrom]
    by_cases hz : (image v d).val c = 0
    · rw [if_pos hz]
      refine ⟨fun h => (by cases h), fun x hx => ?_⟩
      cases hx
      obtain ⟨d₁, hset, himg₁⟩ := hv.exec_fatSet d hc (eocValue v)
      obtain ⟨d₂, hzero, himg₂⟩ := exec_zero hv hc d₁
      obtain ⟨d₃, hinfo, himg₃⟩ := exec_fsinfoAdjust hv (2 ^ 32 - 1) (c + 1) d₂
      refine ⟨d₃, ?_, ?_⟩
      · dsimp only
        rw [if_pos hz, exec_bind, hset]
        dsimp only
        rw [if_pos rfl, exec_bind, hzero]
        dsimp only
        rw [if_pos rfl, exec_bind, hinfo]
        rfl
      · rw [himg₃, himg₂, himg₁, eocValue_fits, Image.allocated]
    · rw [if_neg hz]
      dsimp only
      rw [if_neg hz]
      exact ih (c + 1) d (by omega) (by omega)

/-- **`alloc_cluster` with nothing free.** -/
theorem exec_allocCluster_none (h : (image v d).firstFree v = none) :
    exec (allocCluster v) d = (0, d) := by
  have := hv.clusterLimit_eq
  exact (exec_allocFrom hv (clusterLimit v - 2) 2 d (Nat.le_refl 2) (by omega)).1 h

/-- **`alloc_cluster` takes the first free cluster.** -/
theorem exec_allocCluster_some (h : (image v d).firstFree v = some c) :
    ∃ d', exec (allocCluster v) d = (c, d') ∧ image v d' = (image v d).allocated v c := by
  have := hv.clusterLimit_eq
  exact (exec_allocFrom hv (clusterLimit v - 2) 2 d (Nat.le_refl 2) (by omega)).2 c h

theorem firstFree_some (h : I.firstFree v = some c) : validDataCluster v c ∧ I.val c = 0 ∧
      ∀ k, validDataCluster v k → k < c → I.val k ≠ 0 := by
  have hlim := hv.clusterLimit_eq
  obtain ⟨h1, h2, h3, h4⟩ := Image.freeFrom_some h
  refine ⟨valid_of_range hv h1 (by omega), h3, fun k hk hlt => ?_⟩
  exact h4 k ((hv.valid_iff k).mp hk).1 hlt

theorem firstFree_none (h : I.firstFree v = none) {k : Nat} (hk : validDataCluster v k) :
    I.val k ≠ 0 := by
  have hlim := hv.clusterLimit_eq
  obtain ⟨h2, hlt⟩ := (hv.valid_iff k).mp hk
  exact Image.freeFrom_none h h2 (by omega)

/-! ## Chains -/

omit hv in
/-- A cluster on a chain is not free. -/
theorem chain_val_ne_zero {x : Nat} (h : I.Chain v c l) (hx : x ∈ l) : I.val x ≠ 0 := by
  rcases h.next_of_mem hx with hstop | hmem
  · intro hz
    rw [hz, isEoc, decide_eq_true_eq, eocMin] at hstop
    cases ht : v.type <;> simp [ht] at hstop
  · have := (valid_bounds (h.good_of_mem hmem)).1
    omega

omit hv in
theorem chain_not_free {x : Nat} (h : I.Chain v c l) (hz : I.val x = 0) :
    x ∉ l := fun hx => chain_val_ne_zero h hx hz

/-- A chain is no longer than the volume has clusters. -/
theorem chain_length_le (h : I.Chain v c l) : l.length ≤ v.clusterCount := by
  have hsub : l.toFinset ⊆ Finset.Ico 2 (v.clusterCount + 2) := by
    intro x hx
    rw [Finset.mem_Ico]
    exact (hv.valid_iff x).mp (h.good_of_mem (List.mem_toFinset.mp hx))
  have hcard := Finset.card_le_card hsub
  rw [List.toFinset_card_of_nodup h.nodup, Nat.card_Ico] at hcard
  omega

/-- The loop of `free_chain` frees the clusters of the chain, in order. -/
theorem exec_freeChainFrom (n l c d) (h : (image v d).Chain v c l) (hlen : l.length ≤ n) :
    ∃ d', exec (freeChainFrom v n c) d = ((), d') ∧
      image v d' = Image.releasedAll v l (image v d) := by
  induction n generalizing l c d with
  | zero =>
    obtain ⟨t, rfl⟩ := h.head
    exact absurd hlen (Nat.not_succ_le_zero _)
  | succ n ih =>
    have hc := h.good_of_mem h.mem_head
    obtain ⟨d₁, hset, himg₁⟩ := hv.exec_fatSet d hc 0
    obtain ⟨d₂, hinfo, himg₂⟩ := exec_fsinfoAdjust hv 1 c d₁
    rw [himg₁, Nat.zero_mod] at himg₂
    -- one round: the successor is read before the entry is cleared
    have hround : exec (freeChainFrom v (n + 1) c) d =
        exec (if isEoc v ((image v d).val c) ∨ (image v d).val c < 2 then pure ()
          else freeChainFrom v n ((image v d).val c)) d₂ := by
      rw [freeChainFrom, if_pos hc, exec_bind, hv.exec_fatGet d hc]
      dsimp only
      rw [exec_bind, hset]
      dsimp only
      rw [exec_bind, hinfo]
    rw [hround]
    have hnodup := h.nodup
    cases h with
    | last _ hs =>
      rw [if_pos (.inl hs)]
      exact ⟨d₂, rfl, himg₂⟩
    | @link _ l _ hs h =>
      have hnext := (valid_bounds (h.good_of_mem h.mem_head)).1
      rw [if_neg (by rintro (he | hlt); exacts [hs he, by omega])]
      have hmem : c ∉ l := (List.nodup_cons.mp hnodup).1
      refine (ih l _ d₂ ?_ (Nat.le_of_succ_le_succ hlen)).imp fun d' hd' => ⟨hd'.1, ?_⟩
      · refine SuccessorChain.Chain.congr h fun x hx => ?_
        have hne : x ≠ c := fun heq => hmem (heq ▸ hx)
        rw [himg₂, Image.adjust_val]
        exact Image.val_set_other hne 0
      · rw [hd'.2, himg₂]
        rfl

/-- **`free_chain` on a chain.** -/
theorem exec_freeChain (h : (image v d).Chain v c l) : ∃ d', exec (freeChain v c) d = ((), d') ∧
      image v d' = Image.releasedAll v l (image v d) :=
  exec_freeChainFrom hv _ l c d h (Nat.le_succ_of_le (chain_length_le hv h))

omit hv in
/-- `free_chain` on what is no cluster. -/
theorem exec_freeChain_invalid (h : ¬ validDataCluster v c) : exec (freeChain v c) d = ((), d) := by
  rw [freeChain, freeChainFrom, if_neg h]
  rfl

omit hv in
theorem updates_releasedAll : ∀ (l : List Nat) (I : Image), l.Nodup →
    (∀ c ∈ l, validDataCluster v c ∧ I.val c ≠ 0) →
    Updates v I (Image.releasedAll v l I) := by
  intro l
  induction l with
  | nil => intro I _ _; exact .refl
  | cons c l ih =>
    intro I hnd h
    obtain ⟨hmem, hnd⟩ := List.nodup_cons.mp hnd
    obtain ⟨hc, hnz⟩ := h c List.mem_cons_self
    refine .head (.release hc hnz) (ih _ hnd fun k hk => ?_)
    obtain ⟨hk1, hk2⟩ := h k (List.mem_cons_of_mem _ hk)
    have hne : k ≠ c := fun heq => hmem (heq ▸ hk)
    rw [Image.released, Image.adjust_val, Image.val_set_other hne]
    exact ⟨hk1, hk2⟩

/-! ## Filling a cluster -/

/-- The sector loop of `fat_create`, from the sector behind the first `s` on: the
    share of the file that starts at byte `base` goes into the cluster. -/
theorem exec_writeCluster (hc : validDataCluster v c) (data : List UInt8) (base : Nat) :
    ∀ n s d, s + n = v.sectorsPerCluster →
    ∃ d', exec (writeCluster v c data n s (min data.length (base + 512 * s))) d =
        (some (min data.length (base + clusterBytes v)), d') ∧
      Updates v (image v d) (image v d') ∧ (image v d').tab = (image v d).tab ∧
      (image v d').slack = (image v d).slack ∧ (image v d').root = (image v d).root ∧
      (∀ k, k ≠ c → (image v d').data k = (image v d).data k) ∧
      (∀ o, o / 512 < s → (image v d').data c o = (image v d).data c o) ∧
      ∀ o, s ≤ o / 512 → o < clusterBytes v → base + o < data.length →
        (image v d').data c o = data.getD (base + o) 0 := by
  have hcb : clusterBytes v = 512 * v.sectorsPerCluster := rfl
  intro n
  induction n with
  | zero =>
    intro s d hs
    refine ⟨d, ?_, .refl, rfl, rfl, rfl, fun _ _ => rfl, fun _ _ => rfl, fun o h1 h2 => ?_⟩
    · rw [writeCluster, show base + 512 * s = base + clusterBytes v by omega]
      rfl
    · omega
  | succ n ih =>
    intro s d hs
    have hsec := hv.cluster_sectors hc (show s < v.sectorsPerCluster by omega)
    rw [writeCluster]
    by_cases hlt : base + 512 * s < data.length
    · -- one more sector
      have hmin : min data.length (base + 512 * s) = base + 512 * s := by omega
      have hnext : base + 512 * s + min (data.length - (base + 512 * s)) 512 =
          min data.length (base + 512 * (s + 1)) := by omega
      obtain ⟨d', hrun, hup, htab, hslack, hroot, hother, hkept, hdata⟩ :=
        ih (s + 1) (d.store (clusterSector v c + s) (dataSector data (base + 512 * s))) (by omega)
      have himg := hv.image_store_data d hc (show s < v.sectorsPerCluster by omega)
        (dataSector data (base + 512 * s))
      rw [himg] at hup htab hslack hroot hother hkept
      refine ⟨d', ?_, .head (.data c s _) hup, htab, hslack, hroot, fun k hk => ?_,
        fun o ho => ?_, fun o ho1 ho2 ho3 => ?_⟩
      · rw [hmin, if_pos hlt, hsec.1, exec_bind, exec_writeSector]
        dsimp only
        rw [if_pos rfl, hnext]
        exact hrun
      · rw [hother k hk]
        funext o
        exact if_neg fun h => hk h.1
      · rw [hkept o (by omega)]
        exact if_neg fun h => by omega
      · rcases Nat.lt_or_eq_of_le ho1 with hgt | heq
        · exact hdata o hgt ho2 ho3
        · rw [hkept o (by omega)]
          refine (if_pos ⟨rfl, heq.symm⟩).trans ?_
          rw [dataSector, show base + 512 * s + o % 512 = base + o by omega]
    · -- the file ends before this sector
      have hmin : min data.length (base + 512 * s) = data.length := by omega
      refine ⟨d, ?_, .refl, rfl, rfl, rfl, fun _ _ => rfl, fun _ _ => rfl, fun o h1 h2 h3 => ?_⟩
      · rw [hmin, if_neg (Nat.lt_irrefl _), show min data.length (base + clusterBytes v) =
          data.length by omega]
        rfl
      · omega

end Numbered

end FatAlloc
