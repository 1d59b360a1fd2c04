import AoOs.FatTree

/-! # Changing one slot of a directory

    Creating, overwriting and removing a file or a directory come down to one change of
    the tree: a slot of a directory gets another entry, and besides the slot only
    clusters change that are free or belong to it (`Reslot`).  What the new entry needs
    is `Placed` (its chain, and for a directory its dot entries) and `Fits` (its name and
    place).  Then the volume is as sound after the change as before, every other entry
    is where it was, and the directories are the old ones, less those inside a removed
    one, and the new one. -/

namespace FatReslot

open FatTypes FatDriver FatGeometry FatImage FatAlloc FatDirs FatScan FatTree Relation

variable {o : Option (Nat × Nat)} {l : List Nat} {c h j : Nat} {B : Area} {x : Entry}

section Defs

variable (v : Vol) (I : Image) (D i : Nat)

/-- A cluster that may change with slot `i` of `D`: free, or on the chain of the slot. -/
def Loose (c : Nat) : Prop := I.val c = 0 ∨ ∃ l, Owns v I (some (D, i)) l ∧ c ∈ l

/-- Slot `i` of directory `D` gets the entry `e`; besides it only loose clusters change. -/
structure Reslot (A : Area) (e : Entry) (I' : Image) : Prop where
  dir : IsDir v I D
  loc : Locates v I D A
  old : ∃ e₀, A.slot v I i = some e₀ ∧ ¬ IsDot e₀
  val : ∀ c, ¬ Loose v I D i c → I'.val c = I.val c
  data : ∀ c, ¬ Loose v I D i c → I'.data c = (A.put v I e i).data c
  root : I'.root = (A.put v I e i).root

/-- The new entry has a chain out of loose clusters; a new directory has its dot entries
    and nothing behind them. -/
structure Placed (e : Entry) (I' : Image) : Prop where
  dirChain : e.isDirectory → ∃ l, I'.Chain v (entryCluster v e) l
  fileChain : e.isDirectory = false → FileChain v I' e
  loose : ∀ {l}, I'.Chain v (entryCluster v e) l → ∀ c ∈ l, Loose v I D i c
  dots : e.isDirectory → ∀ {B}, Locates v I' (entryCluster v e) B → Dots v I' D B
  blank : e.isDirectory → ∀ {B j x}, Locates v I' (entryCluster v e) B → 2 ≤ j →
    B.slot v I' j = some x → x 0 = 0

/-- The new entry can stand in its slot: nothing in front of it ends the directory, and
    no other entry in sight has its name. -/
structure Fits (A : Area) (e : Entry) : Prop where
  first : e 0 ≠ 0
  undotted : ¬ IsDot e
  packed : Live e → ∀ {j x}, j < i → A.slot v I j = some x → x 0 ≠ 0
  fresh : Live e → ∀ {j x}, j ≠ i → j < maxDirEntries → A.slot v I j = some x → Live x →
    x.sfn ≠ e.sfn

end Defs

variable {v : Vol} {I I' : Image} {D i : Nat} {A : Area} {e : Entry}

/-- Chains of other owners have no loose cluster. -/
theorem not_loose (hs : Chained v I) (ho : Owns v I o l) (hne : o ≠ some (D, i)) (hc : c ∈ l) :
    ¬ Loose v I D i c := by
  rintro (hz | ⟨l', ho', hc'⟩)
  · obtain ⟨_, hl⟩ := owns_chain ho
    exact chain_val_ne_zero hl hc hz
  · exact hne (hs.owner_unique ho ho' hc hc')

/-- A directory that is not the one of the slot has no loose cluster. -/
theorem dir_firm (hs : Chained v I) (hg : Geometry v) (hh : IsDir v I h)
    (hoff : ¬ ChildAt v I D i h) (hl : Locates v I h (.chain l)) (hc : c ∈ l) :
    ¬ Loose v I D i c := by
  obtain ⟨o, ho⟩ := hh.owner
  refine not_loose hs (hs.dir_owns hg ho hl) ?_ hc
  rintro rfl
  exact hoff ho.2

theorem dots_sfn (hd : Dots v I h B) (hx : B.slot v I j = some x) (hj : j < 2) :
    (j = 0 ∧ x.sfn = dotName) ∨ (j = 1 ∧ x.sfn = dotDotName) := by
  obtain ⟨e₀, e₁, h0, hn0, h1, hn1, _⟩ := hd
  rcases Nat.lt_or_eq_of_le (Nat.le_of_lt_succ hj) with hlt | rfl
  · obtain rfl : j = 0 := by omega
    exact .inl ⟨rfl, Option.mem_unique hx h0 ▸ hn0⟩
  · exact .inr ⟨rfl, Option.mem_unique hx h1 ▸ hn1⟩

theorem dots_isDot (hd : Dots v I h B) (hx : B.slot v I j = some x) (hj : j < 2) : IsDot x :=
  (dots_sfn hd hx hj).imp And.right And.right

theorem dot_first (h : IsDot x) : x 0 = 46 := by
  rcases h with h | h
  · exact (List.cons.inj h).1
  · exact (List.cons.inj h).1

namespace Reslot

variable (hr : Reslot v I D i A e I') (hs : Chained v I)

include hr hs

/-- The chains of other owners stay. -/
theorem chain_kept (ho : Owns v I o l) (hne : o ≠ some (D, i)) (hc : I.Chain v c l) :
    I'.Chain v c l :=
  SuccessorChain.Chain.congr hc fun _ hx => hr.val _ (not_loose hs ho hne hx)

theorem fileChain_kept (hh : IsDir v I h) (hx : HasEntry v I h j x) (hne : (h, j) ≠ (D, i))
    (hf : FileChain v I x) : FileChain v I' x := by
  refine hf.imp id fun ⟨l, hl, hlen⟩ => ⟨l, ?_, hlen⟩
  exact hr.chain_kept hs (o := some (h, j)) ⟨hh, x, hx, hl⟩
    (fun heq => hne (Option.some.inj heq)) hl

variable (hg : Geometry v)

include hg

/-- A directory that is not the one of the slot stays where it is, and so do its slots,
    the changed one apart. -/
theorem kept (hh : IsDir v I h) (hoff : ¬ ChildAt v I D i h) (hB : Locates v I h B) :
    Locates v I' h B ∧ ∀ j, B.slot v I' j = if h = D ∧ j = i then some e else B.slot v I j := by
  have hfirm : ∀ l, B = .chain l → ∀ c ∈ l, ¬ Loose v I D i c := by
    rintro l rfl c hc
    exact dir_firm hs hg hh hoff hB hc
  constructor
  · cases B with
    | fixed => exact hB
    | chain l =>
      exact ⟨hB.1, SuccessorChain.Chain.congr hB.2 fun c hc => hr.val c (hfirm l rfl c hc)⟩
  · intro j
    rw [slot_congr (fun _ => hr.root) (fun l hl c hc => hr.data c (hfirm l hl c hc))]
    by_cases hD : h = D
    · subst hD
      obtain rfl := hr.loc.unique hB
      obtain ⟨e₀, he₀, _⟩ := hr.old
      by_cases hj : j = i
      · rw [if_pos ⟨rfl, hj⟩, hj]
        exact slot_put_same he₀ e
      · rw [if_neg fun hh => hj hh.2]
        refine slot_put_other hj ?_ e
        rintro l rfl
        exact hB.2.nodup
    · rw [if_neg fun hh => hD hh.1]
      refine slot_put_apart ?_ e i j
      have hloc := hr.loc
      cases A with
      | fixed =>
        cases B with
        | fixed => exact hD (hB.1.trans hloc.1.symm)
        | chain l => trivial
      | chain l =>
        cases B with
        | fixed => trivial
        | chain l' => exact hs.dirs_disjoint hg hr.dir hh (Ne.symm hD) hloc hB

omit hr in
/-- No directory is the child of itself. -/
theorem not_self (hD : IsDir v I D) : ¬ ChildAt v I D i D :=
  fun h => hs.no_cycle hg hD (.single ⟨i, h⟩)

omit hr in
theorem root_off (hD : IsDir v I D) : ¬ ChildAt v I D i (rootDir v) := fun h =>
  nomatch hs.dirOwner_unique hg (o := none) (q := some (D, i)) rfl ⟨hD, h⟩

/-- The entries of a directory that stays. -/
theorem entry_iff (hh : IsDir v I h) (hoff : ¬ ChildAt v I D i h) : HasEntry v I' h j x ↔
      if h = D ∧ j = i then x = e ∧ Named e else HasEntry v I h j x := by
  obtain ⟨B, hB⟩ := hs.located hg hh
  obtain ⟨hB', hslot⟩ := hr.kept hs hg hh hoff hB
  by_cases hji : h = D ∧ j = i
  · rw [if_pos hji]
    constructor
    · intro hx
      have hxs := hx.slot hB'
      rw [hslot, if_pos hji] at hxs
      cases hxs
      exact ⟨rfl, hx.named⟩
    · rintro ⟨rfl, hn⟩
      exact ⟨B, hB', by rw [hslot, if_pos hji], hn⟩
  · rw [if_neg hji]
    constructor
    · intro hx
      have hxs := hx.slot hB'
      rw [hslot, if_neg hji] at hxs
      exact ⟨B, hB, hxs, hx.named⟩
    · intro hx
      exact ⟨B, hB', by rw [hslot, if_neg hji]; exact hx.slot hB, hx.named⟩

/-- **Directories stay**, those inside a removed one apart. -/
theorem isDir_kept (hh : IsDir v I h)
    (hout : ∀ g, ChildAt v I D i g → ¬ ReflTransGen (Child v I) g h) : IsDir v I' h := by
  induction hh with
  | refl => exact .root
  | @tail p h hp hc ih =>
    have houtp : ∀ g, ChildAt v I D i g → ¬ ReflTransGen (Child v I) g p :=
      fun g hg' hgp => hout g hg' (hgp.tail hc)
    obtain ⟨j, x, hx, hd, rfl⟩ := hc
    have hne : ¬ (p = D ∧ j = i) := by
      rintro ⟨rfl, rfl⟩
      exact hout _ ⟨x, hx, hd, rfl⟩ .refl
    have hx' : HasEntry v I' p j x := by
      rw [hr.entry_iff hs hg hp fun hc => houtp p hc .refl, if_neg hne]
      exact hx
    exact (ih houtp).child ⟨x, hx', hd, rfl⟩

/-- The directory of the slot stays. -/
theorem isDir_self : IsDir v I' D := by
  refine hr.isDir_kept hs hg hr.dir fun g hg' hgD => ?_
  exact hs.no_cycle hg hr.dir (TransGen.head' ⟨i, hg'⟩ hgD)

theorem entry_self (hn : Named e) : HasEntry v I' D i e := by
  rw [hr.entry_iff hs hg hr.dir (not_self hs hg hr.dir), if_pos ⟨rfl, rfl⟩]
  exact ⟨rfl, hn⟩

variable (hp : Named e → Placed v I D i e I')

include hp

omit hr hs hg in
/-- A new directory has no entries. -/
theorem new_blank (hn : Named e) (hd : e.isDirectory) : ¬ HasEntry v I' (entryCluster v e) j x := by
  rintro ⟨B, hB, hx, hnx⟩
  by_cases hj : j < 2
  · exact hnx.2 (dots_isDot ((hp hn).dots hd hB) hx hj)
  · exact hnx.1.1 ((hp hn).blank hd hB (by omega) hx)

/-- **The directories afterwards** are old ones, or the new one. -/
theorem isDir_cases (hh : IsDir v I' h) : (IsDir v I h ∧ ¬ ChildAt v I D i h) ∨
    (Named e ∧ e.isDirectory ∧ entryCluster v e = h) := by
  induction hh with
  | refl => exact .inl ⟨.root, root_off hs hg hr.dir⟩
  | @tail p h _ hc ih =>
    obtain ⟨j, x, hx, hd, rfl⟩ := hc
    rcases ih with ⟨hp', hoff⟩ | ⟨hn, hde, rfl⟩
    · rw [hr.entry_iff hs hg hp' hoff] at hx
      by_cases hji : p = D ∧ j = i
      · rw [if_pos hji] at hx
        obtain ⟨rfl, hn⟩ := hx
        exact .inr ⟨hn, hd, rfl⟩
      · rw [if_neg hji] at hx
        have hc : ChildAt v I p j (entryCluster v x) := ⟨x, hx, hd, rfl⟩
        refine .inl ⟨hp'.child hc, fun hc' => hji ?_⟩
        have := hs.dirOwner_unique hg (o := some (p, j)) (q := some (D, i)) ⟨hp', hc⟩
          ⟨hr.dir, hc'⟩
        exact Prod.mk.inj (Option.some.inj this)
    · exact absurd hx (new_blank hp hn hde)

/-- **The entries afterwards** are old ones, or the new one. -/
theorem entry_cases (hh : IsDir v I' h) (hx : HasEntry v I' h j x) :
    (IsDir v I h ∧ ¬ ChildAt v I D i h ∧ (h, j) ≠ (D, i) ∧ HasEntry v I h j x) ∨
    (h = D ∧ j = i ∧ x = e ∧ Named e) := by
  rcases hr.isDir_cases hs hg hp hh with ⟨hh', hoff⟩ | ⟨hn, hd, rfl⟩
  · rw [hr.entry_iff hs hg hh' hoff] at hx
    by_cases hji : h = D ∧ j = i
    · rw [if_pos hji] at hx
      exact .inr ⟨hji.1, hji.2, hx⟩
    · rw [if_neg hji] at hx
      exact .inl ⟨hh', hoff, fun heq => hji (Prod.mk.inj heq), hx⟩
  · exact absurd hx (new_blank hp hn hd)

/-- **The owners afterwards** own what they owned, or are the slot. -/
theorem owns_cases (ho : Owns v I' o l) : (o ≠ some (D, i) ∧ Owns v I o l) ∨
    (o = some (D, i) ∧ Named e ∧ I'.Chain v (entryCluster v e) l) := by
  cases o with
  | none =>
    obtain ⟨ht, hl⟩ := ho
    obtain ⟨l', hl'⟩ := hs.rootChain ht
    have hown : Owns v I none l' := ⟨ht, hl'⟩
    obtain rfl := hl.unique (hr.chain_kept hs hown (by simp) hl')
    exact .inl ⟨by simp, hown⟩
  | some p =>
    obtain ⟨h, j⟩ := p
    obtain ⟨hh, x, hx, hl⟩ := ho
    rcases hr.entry_cases hs hg hp hh hx with ⟨hh', _, hne, hx'⟩ | ⟨rfl, rfl, rfl, hn⟩
    · -- the chain is the one the entry had
      obtain ⟨l', hl'⟩ := hs.chain_of_ne_zero hh' hx' (chain_head_ne_zero hl)
      have hown : Owns v I (some (h, j)) l' := ⟨hh', x, hx', hl'⟩
      have hne' : some (h, j) ≠ some (D, i) := fun heq => hne (Option.some.inj heq)
      obtain rfl := hl.unique (hr.chain_kept hs hown hne' hl')
      exact .inl ⟨hne', hown⟩
    · exact .inr ⟨rfl, hn, hl⟩

/-- **Chains stay chains.** -/
theorem chained : Chained v I' where
  rootChain := fun ht => by
    obtain ⟨l, hl⟩ := hs.rootChain ht
    exact ⟨l, hr.chain_kept hs (o := none) ⟨ht, hl⟩ (by simp) hl⟩
  dirChain := fun {h j x} hh hx hd => by
    rcases hr.entry_cases hs hg hp hh hx with ⟨hh', _, hne, hx'⟩ | ⟨rfl, rfl, rfl, hn⟩
    · obtain ⟨l, hl⟩ := hs.dirChain hh' hx' hd
      exact ⟨l, hr.chain_kept hs (o := some (h, j)) ⟨hh', x, hx', hl⟩
        (fun heq => hne (Option.some.inj heq)) hl⟩
    · exact (hp hn).dirChain hd
  fileChain := fun {h j x} hh hx hd => by
    rcases hr.entry_cases hs hg hp hh hx with ⟨hh', _, hne, hx'⟩ | ⟨rfl, rfl, rfl, hn⟩
    · exact hr.fileChain_kept hs hh' hx' hne (hs.fileChain hh' hx' hd)
    · exact (hp hn).fileChain hd
  disjoint := fun {o o' l l'} ho ho' hne => by
    -- a new chain is loose, an old one is not
    have key : ∀ {o o' l l'}, o ≠ some (D, i) ∧ Owns v I o l →
        o' = some (D, i) ∧ Named e ∧ I'.Chain v (entryCluster v e) l' → List.Disjoint l l' := by
      intro o o' l l' h h' c hc hc'
      exact not_loose hs h.2 h.1 hc ((hp h'.2.1).loose h'.2.2 c hc')
    rcases hr.owns_cases hs hg hp ho with h | h
    · rcases hr.owns_cases hs hg hp ho' with h' | h'
      · exact hs.disjoint h.2 h'.2 hne
      · exact key h h'
    · rcases hr.owns_cases hs hg hp ho' with h' | h'
      · exact (key h' h).symm
      · exact absurd (h.1.trans h'.1.symm) hne

/-- The slots of a directory afterwards: the old ones with the change, or the dot entries
    of the new one and empty slots. -/
theorem slots_cases (hh : IsDir v I' h) (hB : Locates v I' h B) :
    (IsDir v I h ∧ ¬ ChildAt v I D i h ∧ Locates v I h B ∧
      ∀ j, B.slot v I' j = if h = D ∧ j = i then some e else B.slot v I j) ∨
    (Dots v I' D B ∧ ∀ j x, 2 ≤ j → B.slot v I' j = some x → x 0 = 0) := by
  rcases hr.isDir_cases hs hg hp hh with ⟨hh', hoff⟩ | ⟨hn, hd, rfl⟩
  · obtain ⟨B', hB'⟩ := hs.located hg hh'
    obtain ⟨hloc, hslot⟩ := hr.kept hs hg hh' hoff hB'
    obtain rfl := hloc.unique hB
    exact .inl ⟨hh', hoff, hB', hslot⟩
  · exact .inr ⟨(hp hn).dots hd hB, fun j x => (hp hn).blank hd hB⟩

end Reslot

namespace Reslot

variable (hr : Reslot v I D i A e I') (hs : Sound v I) (hg : Geometry v)
  (hp : Named e → Placed v I D i e I') (hf : Fits v I i A e)

include hr hs hg hp hf

theorem ends {k : Nat} {y : Entry} (hh : IsDir v I' h) (hB : Locates v I' h B)
    (hx : B.slot v I' j = some x) (hx0 : x 0 = 0) (hjk : j ≤ k) (hy : B.slot v I' k = some y) :
    ¬ Live y := by
  intro hly
  rcases hr.slots_cases hs.toChained hg hp hh hB with ⟨hh', hoff, hB', hslot⟩ | ⟨hdots, hblank⟩
  · rw [hslot] at hx hy
    by_cases hj : h = D ∧ j = i
    · rw [if_pos hj] at hx
      exact hf.first (Option.some.inj hx ▸ hx0)
    · rw [if_neg hj] at hx
      by_cases hk : h = D ∧ k = i
      · rw [if_pos hk] at hy
        obtain ⟨rfl, rfl⟩ := hk
        cases hy
        obtain rfl := hr.loc.unique hB'
        have hne : j ≠ k := fun heq => hj ⟨rfl, heq⟩
        exact hf.packed hly (show j < k by omega) hx hx0
      · rw [if_neg hk] at hy
        exact hs.ends hh' hB' hx hx0 hjk hy hly
  · by_cases hj : j < 2
    · have := dot_first (dots_isDot hdots hx hj)
      rw [hx0] at this
      exact absurd this (by decide)
    · exact hly.1 (hblank k y (by omega) hy)

theorem names {k : Nat} {y : Entry} (hh : IsDir v I' h) (hB : Locates v I' h B)
    (hj : j < maxDirEntries) (hk : k < maxDirEntries) (hx : B.slot v I' j = some x)
    (hy : B.slot v I' k = some y) (hlx : Live x) (hly : Live y) (hxy : x.sfn = y.sfn) : j = k := by
  rcases hr.slots_cases hs.toChained hg hp hh hB with ⟨hh', hoff, hB', hslot⟩ | ⟨hdots, hblank⟩
  · rw [hslot] at hx hy
    by_cases hji : h = D ∧ j = i
    · by_cases hki : h = D ∧ k = i
      · exact hji.2.trans hki.2.symm
      · rw [if_pos hji] at hx
        rw [if_neg hki] at hy
        obtain ⟨rfl, rfl⟩ := hji
        cases hx
        obtain rfl := hr.loc.unique hB'
        exact absurd hxy.symm (hf.fresh hlx (fun heq => hki ⟨rfl, heq⟩) hk hy hly)
    · rw [if_neg hji] at hx
      by_cases hki : h = D ∧ k = i
      · rw [if_pos hki] at hy
        obtain ⟨rfl, rfl⟩ := hki
        cases hy
        obtain rfl := hr.loc.unique hB'
        exact absurd hxy (hf.fresh hly (fun heq => hji ⟨rfl, heq⟩) hj hx hlx)
      · rw [if_neg hki] at hy
        exact hs.names hh' hB' hj hk hx hy hlx hly hxy
  · have hj2 : j < 2 := by_contra fun hge => hlx.1 (hblank j x (by omega) hx)
    have hk2 : k < 2 := by_contra fun hge => hly.1 (hblank k y (by omega) hy)
    have hne : dotName ≠ dotDotName := by decide
    rcases dots_sfn hdots hx hj2 with ⟨rfl, hxn⟩ | ⟨rfl, hxn⟩
    · rcases dots_sfn hdots hy hk2 with ⟨rfl, hyn⟩ | ⟨rfl, hyn⟩
      · rfl
      · exact absurd (hxn.symm.trans (hxy.trans hyn)) hne
    · rcases dots_sfn hdots hy hk2 with ⟨rfl, hyn⟩ | ⟨rfl, hyn⟩
      · exact absurd (hyn.symm.trans (hxy.symm.trans hxn)) hne
      · rfl

omit hf in
theorem dots (hh : IsDir v I' h) (hc : ChildAt v I' h j c) (hB : Locates v I' c B) :
    Dots v I' h B := by
  obtain ⟨x, hx, hd, rfl⟩ := hc
  rcases hr.entry_cases hs.toChained hg hp hh hx with ⟨hh', _, hne, hx'⟩ | ⟨rfl, rfl, rfl, hn⟩
  · have hc : ChildAt v I h j (entryCluster v x) := ⟨x, hx', hd, rfl⟩
    have hoff : ¬ ChildAt v I D i (entryCluster v x) := by
      intro hc'
      have := hs.dirOwner_unique hg (o := some (h, j)) (q := some (D, i)) ⟨hh', hc⟩ ⟨hr.dir, hc'⟩
      exact hne (Option.some.inj this)
    obtain ⟨B', hB'⟩ := hs.located hg (hh'.child hc)
    obtain ⟨hloc, hslot⟩ := hr.kept hs.toChained hg (hh'.child hc) hoff hB'
    obtain rfl := hloc.unique hB
    have hdots := hs.dots hh' hc hB'
    -- the changed slot held no dot entry
    have hsame : ∀ k, k < 2 → B'.slot v I' k = B'.slot v I k := by
      intro k hk
      rw [hslot, if_neg]
      rintro ⟨hD, rfl⟩
      obtain ⟨e₀, he₀, hdot⟩ := hr.old
      rw [hD] at hB'
      obtain rfl := hr.loc.unique hB'
      exact hdot (dots_isDot hdots he₀ hk)
    obtain ⟨e₀, e₁, h0, hn0, h1, hn1, hp1⟩ := hdots
    exact ⟨e₀, e₁, (hsame 0 (by decide)).trans h0, hn0, (hsame 1 (by decide)).trans h1, hn1, hp1⟩
  · exact (hp hn).dots hd hB

/-- **A slot changed in a sound volume leaves a sound volume.** -/
theorem sound : Sound v I' where
  toChained := hr.chained hs.toChained hg hp
  ends := fun hh hB hx hx0 hjk hy => hr.ends hs hg hp hf hh hB hx hx0 hjk hy
  names := fun hh hB hj hk hx hy hlx hly hxy => hr.names hs hg hp hf hh hB hj hk hx hy hlx hly hxy
  dots := fun hh hc hB => hr.dots hs hg hp hh hc hB

omit hf in
/-- Nothing gets out of sight. -/
theorem short (hshort : Short v I) (hi : Live e → i < maxDirEntries) : Short v I' := by
  intro h B j x hh hB hx hlx
  rcases hr.slots_cases hs.toChained hg hp hh hB with ⟨hh', hoff, hB', hslot⟩ | ⟨hdots, hblank⟩
  · rw [hslot] at hx
    by_cases hji : h = D ∧ j = i
    · cases (if_pos hji).symm.trans hx
      exact hji.2 ▸ hi hlx
    · rw [if_neg hji] at hx
      exact hshort hh' hB' hx hlx
  · have hj : j < 2 := by_contra fun hge => hlx.1 (hblank j x (by omega) hx)
    exact Nat.lt_trans hj (by decide)

omit hp hf in
/-- An owner outside a removed directory keeps what it owns. -/
theorem owns_kept (ho : Owns v I o l) (hne : o ≠ some (D, i))
    (hout : ∀ h j, o = some (h, j) → ∀ g, ChildAt v I D i g → ¬ ReflTransGen (Child v I) g h) :
    Owns v I' o l := by
  cases o with
  | none => exact ⟨ho.1, hr.chain_kept hs.toChained ho hne ho.2⟩
  | some p =>
    obtain ⟨h, j⟩ := p
    have hkept := fun c => hr.chain_kept hs.toChained ho hne (c := c)
    obtain ⟨hh, x, hx, hl⟩ := ho
    have hout' := hout h j rfl
    refine ⟨hr.isDir_kept hs.toChained hg hh hout', x, ?_, hkept _ hl⟩
    rw [hr.entry_iff hs.toChained hg hh fun hc => hout' h hc .refl, if_neg]
    · exact hx
    · rintro ⟨rfl, rfl⟩
      exact hne rfl

omit hp hf in
/-- **Nothing gets lost** if the loose clusters in use are on the new chain and a removed
    directory is empty. -/
theorem accounted (hacc : Accounted v I) (hcover : ∀ c, Loose v I D i c → I'.val c ≠ 0 →
      Named e ∧ ∃ l, I'.Chain v (entryCluster v e) l ∧ c ∈ l)
    (hempty : ∀ g j x, ChildAt v I D i g → ¬ HasEntry v I g j x) : Accounted v I' := by
  intro c hc hnz hbad
  by_cases hl : Loose v I D i c
  · obtain ⟨hn, l, hchain, hmem⟩ := hcover c hl hnz
    exact ⟨some (D, i), l, ⟨hr.isDir_self hs.toChained hg, e, hr.entry_self hs.toChained hg hn,
      hchain⟩, hmem⟩
  · rw [hr.val c hl] at hnz hbad
    obtain ⟨o, l, ho, hmem⟩ := hacc c hc hnz hbad
    refine ⟨o, l, hr.owns_kept hs hg ho (fun heq => hl (.inr ⟨l, heq ▸ ho, hmem⟩)) ?_, hmem⟩
    rintro h j rfl g hg' hgh
    obtain ⟨_, x, hx, _⟩ := ho
    -- nothing is inside an empty directory but itself
    rcases ReflTransGen.cases_head hgh with rfl | ⟨y, ⟨k, z, hz, _⟩, _⟩
    · exact hempty _ j x hg' hx
    · exact hempty g k z hg' hz

end Reslot

/-! ## Working aside

    Before the slot is written, the driver works on loose clusters alone. -/

/-- Only loose clusters differ. -/
structure Aside (v : Vol) (I : Image) (D i : Nat) (J : Image) : Prop where
  val : ∀ c, ¬ Loose v I D i c → J.val c = I.val c
  data : ∀ c, ¬ Loose v I D i c → J.data c = I.data c
  root : J.root = I.root

theorem Aside.refl (v : Vol) (I : Image) (D i : Nat) : Aside v I D i I :=
  ⟨fun _ _ => rfl, fun _ _ => rfl, rfl⟩

theorem put_val (J : Image) (e : Entry) (i c : Nat) : (A.put v J e i).val c = J.val c := by
  cases A with
  | fixed => rfl
  | chain l => rfl

section Aside

variable {J : Image} (ha : Aside v I D i J) (hs : Chained v I) (hg : Geometry v)
  (hD : IsDir v I D) (hA : Locates v I D A)

include ha hs hg hD hA

/-- The directory is where it was, with the slots it had. -/
theorem Aside.kept : Locates v J D A ∧ ∀ j, A.slot v J j = A.slot v I j := by
  have hfirm : ∀ l, A = .chain l → ∀ c ∈ l, ¬ Loose v I D i c := by
    rintro l rfl c hc
    exact dir_firm hs hg hD (Reslot.not_self hs hg hD) hA hc
  constructor
  · cases A with
    | fixed => exact hA
    | chain l =>
      exact ⟨hA.1, SuccessorChain.Chain.congr hA.2 fun c hc => ha.val c (hfirm l rfl c hc)⟩
  · exact slot_congr (fun _ => ha.root) fun l hl c hc => ha.data c (hfirm l hl c hc)

omit hs hg in
/-- Then the slot is written. -/
theorem Aside.reslot {e₀ : Entry} (hold : A.slot v I i = some e₀) (hdot : ¬ IsDot e₀) (e : Entry) :
    Reslot v I D i A e (A.put v J e i) where
  dir := hD
  loc := hA
  old := ⟨e₀, hold, hdot⟩
  val := fun c hc => (put_val J e i c).trans (ha.val c hc)
  data := fun c hc => by
    cases A with
    | fixed => exact ha.data c hc
    | chain l => simp only [Area.put, ha.data c hc]
  root := by
    cases A with
    | fixed => simp only [Area.put, ha.root]
    | chain l => exact ha.root

end Aside

end FatReslot
