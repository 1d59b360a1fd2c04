import Mathlib.Data.List.GetD
import AoOs.FatAlloc

/-! # Building the chain of a file

    The cluster loop of `fat_create` against the list of clusters it has taken so far.
    `Filling` is its invariant: the clusters are the lowest that were free, they form one
    chain, they hold the file up to the current byte, and nothing else has moved.  Out of
    clusters the loop gives all of them back; otherwise it ends with as many as the size
    needs. -/

namespace FatFill

open BlockIO FatTypes FatDriver FatRead FatGeometry FatTable FatImage FatAlloc
open BlockIO.BlockM (run exec)

variable {L : List Nat} {I : Image} {c : Nat}

/-- Clusters that a file of `size` bytes is given; an empty file gets one. -/
def needed (v : Vol) (size : Nat) : Nat := max 1 (clustersFor v size)

/-- Some of the clusters that were free before have been worked on, and nothing else. -/
structure Touched (v : Vol) (I₀ : Image) (L : List Nat) (I : Image) : Prop where
  nodup : L.Nodup
  free : ∀ c ∈ L, validDataCluster v c ∧ I₀.val c = 0
  tab : ∀ i c, c ∉ L → I.tab i c = I₀.tab i c
  bytes : ∀ c, c ∉ L → I.data c = I₀.data c
  slack : I.slack = I₀.slack
  root : I.root = I₀.root
  updates : Updates v I₀ I

/-- The clusters hold the file, in order. -/
def Holds (v : Vol) (I : Image) (L : List Nat) (data : List UInt8) : Prop :=
  ∀ k, k < data.length → k < L.length * clusterBytes v →
    I.data (L.getD (k / clusterBytes v) 0) (k % clusterBytes v) = data.getD k 0

/-- The first numbers with the property, in order. -/
structure Lowest (P : Nat → Prop) (L : List Nat) : Prop where
  order : L.Pairwise (· < ·)
  mem : ∀ c ∈ L, P c
  below : ∀ x ∈ L, ∀ c < x, P c → c ∈ L

/-- There is one list of them for each length. -/
theorem Lowest.unique {P : Nat → Prop} {M : List Nat} (hL : Lowest P L) (hM : Lowest P M)
    (hlen : L.length = M.length) : L = M := by
  have hnd : ∀ {N : List Nat}, Lowest P N → N.Nodup := fun hN => hN.order.imp fun h => h.ne
  have hsub : L ⊆ M ∨ M ⊆ L := by
    by_contra hno
    obtain ⟨⟨x, hx, hxM⟩, y, hy, hyL⟩ :
        (∃ x ∈ L, x ∉ M) ∧ ∃ y ∈ M, y ∉ L := by simpa [List.subset_def] using hno
    rcases Nat.lt_trichotomy x y with hlt | rfl | hlt
    · exact hxM (hM.below y hy x hlt (hL.mem x hx))
    · exact hxM hy
    · exact hyL (hL.below x hx y hlt (hM.mem y hy))
  have hperm : L.Perm M := by
    rcases hsub with h | h
    · exact ((hnd hL).subperm h).perm_of_length_le hlen.ge
    · exact (((hnd hM).subperm h).perm_of_length_le hlen.le).symm
  exact hperm.eq_of_pairwise (fun _ _ _ _ h h' => absurd h' h.asymm) hL.order hM.order

/-- A data cluster that is free. -/
def Unused (v : Vol) (I : Image) (c : Nat) : Prop := validDataCluster v c ∧ I.val c = 0

/-- The state of the cluster loop after it has linked `L`. -/
structure Filling (v : Vol) (data : List UInt8) (I₀ : Image) (L : List Nat) (I : Image) : Prop
    extends Touched v I₀ L I where
  lowest : Lowest (Unused v I₀) L
  chain : ∀ c t, L = c :: t → I.Chain v c L
  holds : Holds v I L data

theorem Filling.start (v : Vol) (data : List UInt8) (I : Image) : Filling v data I [] I where
  nodup := List.nodup_nil
  free := fun c h => nomatch h
  tab := fun _ _ _ => rfl
  bytes := fun _ _ => rfl
  slack := rfl
  root := rfl
  updates := .refl
  lowest := ⟨.nil, fun _ h => (nomatch h), fun _ h => nomatch h⟩
  chain := fun c t h => nomatch h
  holds := fun k _ h => by simp at h

/-- The clusters have been given back. -/
structure Undone (v : Vol) (I₀ : Image) (L : List Nat) (I : Image) : Prop
    extends Touched v I₀ L I where
  freed : ∀ i c, i < v.fatCount → c ∈ L → I.tab i c = 0
  all : ∀ c, validDataCluster v c → I₀.val c = 0 → c ∈ L

theorem getLastD_eq (y : Nat) (t : List Nat) :
    (y :: t).getLastD 0 = (y :: t).getLast (List.cons_ne_nil y t) := by
  rw [List.getLastD_cons, List.getLast_eq_getLastD]

theorem getLastD_mem (y : Nat) (t : List Nat) : (y :: t).getLastD 0 ∈ y :: t :=
  getLastD_eq y t ▸ List.getLast_mem _

section Loop

variable {v : Vol} (hv : Numbered v) {data : List UInt8} {I₀ : Image}

/-- The loop goes on while clusters are missing. -/
theorem more_iff (hspc : 0 < v.sectorsPerCluster) (hL : ∀ c ∈ L, c ≠ 0) :
    (min data.length (L.length * clusterBytes v) < data.length ∨
      (data.length = 0 ∧ L.headD 0 = 0)) ↔ L.length < needed v data.length := by
  have hmore := lt_clustersFor hspc L.length data.length
  have hfirst : L.headD 0 = 0 ↔ L.length = 0 := by
    cases L with
    | nil => exact ⟨fun _ => rfl, fun _ => rfl⟩
    | cons c t => exact ⟨fun h => absurd h (hL c List.mem_cons_self), fun h => nomatch h⟩
  rw [hfirst, needed]
  by_cases hz : data.length = 0
  · have hno : ¬ 0 < clustersFor v data.length := fun h => by
      have := (lt_clustersFor hspc 0 data.length).mp h
      omega
    omega
  · have hpos : 0 < clustersFor v data.length :=
      (lt_clustersFor hspc 0 data.length).mpr (by omega)
    omega

theorem Filling.ne_zero (h : Filling v data I₀ L I) : ∀ c ∈ L, c ≠ 0 := by
  intro c hc
  have := (valid_bounds (h.free c hc).1).1
  omega

theorem Filling.fresh (h : Filling v data I₀ L I) (hz : I.val c = 0) : c ∉ L := by
  cases L with
  | nil => exact List.not_mem_nil
  | cons x t => exact chain_not_free (h.chain x t rfl) hz

include hv

/-- A cluster number fits into an entry. -/
theorem cluster_fits (hc : validDataCluster v c) : c % 16 ^ width v.type = c := by
  have hlt := ((hv.valid_iff c).mp hc).2
  have hsmall := hv.small
  refine Nat.mod_eq_of_lt (Nat.lt_trans (Nat.lt_trans hlt hsmall) ?_)
  rw [eocMin]
  cases v.type <;> decide

/-- Out of clusters: everything is given back. -/
theorem Filling.undo {d : Disk} (h : Filling v data I₀ L (image v d))
    (hnone : (image v d).firstFree v = none) :
    ∃ d', exec (freeChain v (L.headD 0)) d = ((), d') ∧ Undone v I₀ L (image v d') := by
  have hall : ∀ c, validDataCluster v c → I₀.val c = 0 → c ∈ L := by
    intro c hc hz
    by_contra hmem
    exact firstFree_none hv hnone hc ((h.tab 0 c hmem).trans hz)
  cases L with
  | nil =>
    exact ⟨d, exec_freeChain_invalid (by simp [validDataCluster]), h.toTouched, fun _ _ _ hc =>
      (nomatch hc), hall⟩
  | cons x t =>
    have hchain := h.chain x t rfl
    obtain ⟨d', hrun, himg⟩ := exec_freeChain hv hchain
    obtain ⟨hslack, hroot, hdata⟩ := Image.releasedAll_parts (v := v) (x :: t) (image v d)
    rw [← himg] at hslack hroot hdata
    refine ⟨d', hrun, ⟨h.nodup, h.free, fun i c hc => ?_, fun c hc => ?_, hslack.trans h.slack,
      hroot.trans h.root, ?_⟩, fun i c hi hc => ?_, hall⟩
    · rw [himg, Image.tab_releasedAll, if_neg fun hh => hc hh.2]
      exact h.tab i c hc
    · rw [hdata]
      exact h.bytes c hc
    · rw [himg]
      exact h.updates.trans (updates_releasedAll _ _ hchain.nodup fun c hc =>
        ⟨hchain.good_of_mem hc, chain_val_ne_zero hchain hc⟩)
    · rw [himg, Image.tab_releasedAll]
      exact if_pos ⟨hi, hc⟩

/-- The first free cluster is above those taken before. -/
theorem Filling.lowest_append (h : Filling v data I₀ L I) (hfree : I.firstFree v = some c) :
    Lowest (Unused v I₀) (L ++ [c]) := by
  obtain ⟨hc, hz, hmin⟩ := firstFree_some hv hfree
  have hfresh := h.fresh hz
  have hc₀ : Unused v I₀ c := ⟨hc, (h.tab 0 c hfresh).symm.trans hz⟩
  refine ⟨List.pairwise_append.mpr ⟨h.lowest.order, List.pairwise_singleton _ c,
    fun x hx y hy => ?_⟩, fun x hx => ?_, fun x hx k hk hu => ?_⟩
  · obtain rfl := List.mem_singleton.mp hy
    by_contra hle
    rcases Nat.eq_or_lt_of_le (Nat.not_lt.mp hle) with rfl | hlt
    · exact hfresh hx
    · exact hfresh (h.lowest.below x hx y hlt hc₀)
  · rcases List.mem_append.mp hx with hx | hx
    · exact h.lowest.mem x hx
    · exact List.mem_singleton.mp hx ▸ hc₀
  · rw [List.mem_append]
    rcases List.mem_append.mp hx with hx | hx
    · exact .inl (h.lowest.below x hx k hk hu)
    · by_contra hno
      rw [not_or] at hno
      exact hmin k hu.1 (List.mem_singleton.mp hx ▸ hk) ((h.tab 0 k hno.1).trans hu.2)

/-- One more cluster taken and linked to the last one. -/
theorem Filling.linked (h : Filling v data I₀ L I) (hc : validDataCluster v c)
    (hz : I.val c = 0) {I₂ : Image}
    (hI₂ : I₂ = if L = [] then I.allocated v c else (I.allocated v c).set v (L.getLastD 0) c) :
    Touched v I₀ (L ++ [c]) I₂ ∧ (∀ x t, L ++ [c] = x :: t → I₂.Chain v x (L ++ [c])) ∧
      ∀ k, k ≠ c → I₂.data k = I.data k := by
  have hfresh : c ∉ L := h.fresh hz
  have hcount := hv.geometry.fatCount_pos
  have hc0 : c ≠ 0 := by
    have := (valid_bounds hc).1
    omega
  have hnodup : (L ++ [c]).Nodup := by
    refine List.nodup_append.mpr ⟨h.nodup, List.nodup_singleton c, ?_⟩
    rintro a ha b hb rfl
    exact hfresh (List.mem_singleton.mp hb ▸ ha)
  have hfree : ∀ k ∈ L ++ [c], validDataCluster v k ∧ I₀.val k = 0 := by
    intro k hk
    rcases List.mem_append.mp hk with hk | hk
    · exact h.free k hk
    · rw [List.mem_singleton.mp hk]
      exact ⟨hc, (h.tab 0 c hfresh).symm.trans hz⟩
  -- away from the old clusters the allocation alone matters
  have hdata : ∀ k, k ≠ c → (I.allocated v c).data k = I.data k := by
    intro k hk
    funext o
    rw [Image.data_allocated, if_neg hk]
  have htab : ∀ i k, k ∉ L ++ [c] → (I.allocated v c).tab i k = I₀.tab i k := by
    intro i k hk
    rw [List.mem_append, List.mem_singleton, not_or] at hk
    rw [Image.tab_allocated, if_neg fun hh => hk.2 hh.2]
    exact h.tab i k hk.1
  have hself : (I.allocated v c).val c = eocValue v := by
    rw [Image.val, Image.tab_allocated, if_pos ⟨hcount, rfl⟩]
  have hother : ∀ k, k ≠ c → (I.allocated v c).val k = I.val k := by
    intro k hk
    rw [Image.val, Image.tab_allocated, if_neg fun hh => hk hh.2]
    rfl
  have hparts : (I.allocated v c).slack = I.slack ∧ (I.allocated v c).root = I.root :=
    ⟨Image.adjust_slack _ _, Image.adjust_root _ _⟩
  cases L with
  | nil =>
    rw [if_pos rfl] at hI₂
    subst hI₂
    refine ⟨⟨hnodup, hfree, htab, fun k hk => ?_, hparts.1.trans h.slack,
      hparts.2.trans h.root, h.updates.tail (.alloc hc hz)⟩, fun x t hxt => ?_, hdata⟩
    · rw [hdata k fun hkc => hk (hkc ▸ List.mem_cons_self)]
      exact h.bytes k List.not_mem_nil
    · obtain ⟨rfl, _⟩ := List.cons.inj hxt
      refine .last hc ?_
      rw [hself]
      exact isEoc_eocValue v
  | cons y t =>
    have hchain := h.chain y t rfl
    have hlast := getLastD_eq y t
    have hmem := getLastD_mem y t
    have hne : (y :: t).getLastD 0 ≠ c := fun heq => hfresh (heq ▸ hmem)
    rw [if_neg (List.cons_ne_nil y t)] at hI₂
    subst hI₂
    refine ⟨⟨hnodup, hfree, fun i k hk => ?_, fun k hk => ?_, hparts.1.trans h.slack,
      hparts.2.trans h.root, ?_⟩, fun x s hxs => ?_, hdata⟩
    · rw [← htab i k hk]
      exact if_neg fun (hh : i < v.fatCount ∧ k = (y :: t).getLastD 0) =>
        hk (List.mem_append_left _ (hh.2 ▸ hmem))
    · rw [List.mem_append, List.mem_singleton, not_or] at hk
      exact (hdata k hk.2).trans (h.bytes k hk.1)
    · refine (h.updates.tail (.alloc hc hz)).tail
        (.link (hchain.good_of_mem hmem) ?_ hc0)
      rw [hother _ hne]
      exact chain_val_ne_zero hchain hmem
    · obtain ⟨rfl, _⟩ := List.cons.inj hxs
      have hval : ∀ k, k ≠ (y :: t).getLastD 0 →
          ((I.allocated v c).set v ((y :: t).getLastD 0) c).val k = (I.allocated v c).val k :=
        fun k hk => Image.val_set_other hk c
      refine SuccessorChain.Chain.extend hchain hc ?_ ?_ (fun k hk hns => ?_) fun k hk hs => ?_
      · have hlt := ((hv.valid_iff c).mp hc).2
        have hsmall := hv.small
        simp only [isEoc, decide_eq_true_eq]
        omega
      · rw [hval c fun heq => hne heq.symm, hself]
        exact isEoc_eocValue v
      · have hkl : k ≠ (y :: t).getLastD 0 := fun heq =>
          hns ((hchain.stop_iff_last hk).mpr (heq.trans hlast))
        rw [hval k hkl, hother k fun heq => hfresh (heq ▸ hk)]
      · rw [(hchain.stop_iff_last hk).mp hs, ← hlast]
        exact Image.val_set_self hcount _ _

/-- One round of the loop that finds a cluster. -/
theorem Filling.round {d : Disk} (h : Filling v data I₀ L (image v d))
    (hfree : (image v d).firstFree v = some c) (n : Nat) (hmore : L.length < needed v data.length) :
    ∃ d', exec (createLoop v data (n + 1) (L.headD 0) (L.getLastD 0)
          (min data.length (L.length * clusterBytes v))) d =
        exec (createLoop v data n ((L ++ [c]).headD 0) ((L ++ [c]).getLastD 0)
          (min data.length ((L ++ [c]).length * clusterBytes v))) d' ∧
      Filling v data I₀ (L ++ [c]) (image v d') := by
  have hspc := hv.geometry.perCluster_pos
  have hcb : clusterBytes v = 512 * v.sectorsPerCluster := rfl
  obtain ⟨hc, hz, _⟩ := firstFree_some hv hfree
  have hc0 : c ≠ 0 := by
    have := (valid_bounds hc).1
    omega
  obtain ⟨d₁, halloc, himg₁⟩ := exec_allocCluster_some hv hfree
  -- the link from the last cluster, if there is one
  obtain ⟨d₂, hlink, himg₂⟩ : ∃ d₂,
      exec (if L.getLastD 0 ≠ 0 then fatSet v (L.getLastD 0) c else pure true) d₁ = (true, d₂) ∧
      image v d₂ = if L = [] then (image v d).allocated v c
        else ((image v d).allocated v c).set v (L.getLastD 0) c := by
    cases L with
    | nil => exact ⟨d₁, rfl, himg₁⟩
    | cons y t =>
      have hmem := getLastD_mem y t
      obtain ⟨d₂, hset, himg⟩ := hv.exec_fatSet d₁ (h.free _ hmem).1 c
      rw [cluster_fits hv hc, himg₁] at himg
      rw [if_pos (h.ne_zero _ hmem), if_neg (List.cons_ne_nil y t)]
      exact ⟨d₂, hset, himg⟩
  obtain ⟨htouched, hchain, hdata₂⟩ := h.linked hv hc hz himg₂
  obtain ⟨d₃, hwrite, hup, htab, hslack, hroot, hother, -, hfill⟩ :=
    exec_writeCluster hv hc data (L.length * clusterBytes v) v.sectorsPerCluster 0 d₂ (by omega)
  refine ⟨d₃, ?_, ⟨⟨htouched.nodup, htouched.free, fun i k hk => ?_, fun k hk => ?_,
    hslack.trans htouched.slack, hroot.trans htouched.root, htouched.updates.trans hup⟩,
    h.lowest_append hv hfree, fun x t hxt => ?_, fun k hk1 hk2 => ?_⟩⟩
  · -- the program
    have hfirst : (if L.headD 0 = 0 then c else L.headD 0) = (L ++ [c]).headD 0 := by
      cases L with
      | nil => rfl
      | cons y t => exact if_neg (h.ne_zero y List.mem_cons_self)
    have hlast : (L ++ [c]).getLastD 0 = c := by
      rw [List.getLastD_concat]
    have hlen :
        (L ++ [c]).length * clusterBytes v = L.length * clusterBytes v + clusterBytes v := by
      rw [List.length_append, List.length_singleton, Nat.succ_mul]
    rw [Nat.mul_zero, Nat.add_zero] at hwrite
    rw [createLoop, if_pos ((more_iff hspc h.ne_zero).mpr hmore), exec_bind, halloc]
    dsimp only
    rw [if_neg hc0]
    by_cases hprev : L.getLastD 0 ≠ 0
    · rw [if_pos hprev] at hlink ⊢
      rw [exec_bind, hlink]
      dsimp only
      rw [if_neg (by decide), exec_bind, hwrite, hfirst, hlast, hlen]
    · rw [if_neg hprev] at hlink ⊢
      rw [exec_bind, hlink]
      dsimp only
      rw [if_neg (by decide), exec_bind, hwrite, hfirst, hlast, hlen]
  · rw [htab]
    exact htouched.tab i k hk
  · rw [hother k fun hkc => hk (hkc ▸ List.mem_append_right _ List.mem_cons_self)]
    exact htouched.bytes k hk
  · refine SuccessorChain.Chain.congr (hchain x t hxt) fun k _ => ?_
    rw [Image.val, htab]
    rfl
  · -- the bytes: of the earlier clusters as before, of the new one as just written
    rw [List.length_append, List.length_singleton, Nat.succ_mul] at hk2
    have hcbpos : 0 < clusterBytes v := by omega
    by_cases hold : k < L.length * clusterBytes v
    · have hidx : k / clusterBytes v < L.length := Nat.div_lt_of_lt_mul (by rwa [Nat.mul_comm])
      have hget : (L ++ [c]).getD (k / clusterBytes v) 0 = L.getD (k / clusterBytes v) 0 :=
        List.getD_append _ _ _ _ hidx
      have hmem : L.getD (k / clusterBytes v) 0 ∈ L := by
        rw [List.getD_eq_getElem?_getD, List.getElem?_eq_getElem hidx]
        exact List.getElem_mem hidx
      have hne : L.getD (k / clusterBytes v) 0 ≠ c := fun heq => h.fresh hz (heq ▸ hmem)
      rw [hget, hother _ hne, hdata₂ _ hne]
      exact h.holds k hk1 hold
    · have hidx : k / clusterBytes v = L.length :=
        Nat.div_eq_of_lt_le (by omega) (by rw [Nat.succ_mul]; omega)
      have hmod : k = L.length * clusterBytes v + k % clusterBytes v := by
        have := Nat.div_add_mod k (clusterBytes v)
        rw [hidx, Nat.mul_comm] at this
        omega
      have hget : (L ++ [c]).getD (k / clusterBytes v) 0 = c := by
        rw [hidx, List.getD_append_right _ _ _ _ (Nat.le_refl _), Nat.sub_self]
        rfl
      rw [hget, hfill _ (Nat.zero_le _) (Nat.mod_lt _ hcbpos) (by omega), ← hmod]

/-- **The cluster loop of `fat_create`**, from any state it can be in: it ends with the
    chain complete, or with every free cluster tried and given back. -/
theorem exec_createLoop : ∀ n L d, Filling v data I₀ L (image v d) →
    L.length ≤ needed v data.length → needed v data.length < n + L.length →
    (∃ M c d', exec (createLoop v data n (L.headD 0) (L.getLastD 0)
          (min data.length (L.length * clusterBytes v))) d = (some c, d') ∧
        Filling v data I₀ M (image v d') ∧ M.length = needed v data.length ∧
        (image v d').Chain v c M) ∨
    ∃ M d', exec (createLoop v data n (L.headD 0) (L.getLastD 0)
          (min data.length (L.length * clusterBytes v))) d = (none, d') ∧
        Undone v I₀ M (image v d') ∧ M.length < needed v data.length := by
  have hspc := hv.geometry.perCluster_pos
  intro n
  induction n with
  | zero => intro L d _ h1 h2; omega
  | succ n ih =>
    intro L d h hle hlt
    by_cases hmore : L.length < needed v data.length
    · cases hfree : (image v d).firstFree v with
      | none =>
        obtain ⟨d', hrun, hundone⟩ := h.undo hv hfree
        refine .inr ⟨L, d', ?_, hundone, hmore⟩
        rw [createLoop, if_pos ((more_iff hspc h.ne_zero).mpr hmore), exec_bind,
          exec_allocCluster_none hv hfree]
        dsimp only
        rw [if_pos rfl, exec_bind, hrun]
        rfl
      | some c =>
        obtain ⟨d', hrun, hnext⟩ := h.round hv hfree n hmore
        rw [hrun]
        have hlen : (L ++ [c]).length = L.length + 1 := by
          rw [List.length_append, List.length_singleton]
        exact ih (L ++ [c]) d' hnext (by omega) (by omega)
    · -- all clusters are there
      have hlen : L.length = needed v data.length := by omega
      have hpos : 1 ≤ needed v data.length := Nat.le_max_left _ _
      obtain ⟨y, t, rfl⟩ := List.exists_cons_of_length_pos (show 0 < L.length by omega)
      refine .inl ⟨y :: t, y, d, ?_, h, hlen, h.chain y t rfl⟩
      rw [createLoop, if_neg fun hh => hmore ((more_iff hspc h.ne_zero).mp hh)]
      rfl

end Loop

end FatFill
