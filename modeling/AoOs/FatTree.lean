import AoOs.EdgeReach
import AoOs.FatScan

/-! # The tree of files on a volume

    What a volume has to be so that its files are its files.  Directories are what is
    reachable from the root by named directory entries; every entry owns the chain that
    starts at its cluster, and no cluster has two owners (`Chained`).  `Sound` adds what
    the scans of the driver rely on: no live entry behind the end of a directory,
    different names, and the dot entries in front.  `Accounted` says that every cluster
    in use has an owner.

    Owners are unique, so the directories form a tree: none is inside itself. -/

namespace FatTree

open FatTypes FatDriver FatRead FatGeometry FatImage FatDirs FatScan Relation

variable {i c : Nat} {o : Option (Nat × Nat)} {l l' : List Nat}

/-- An entry that the scans of the driver look at. -/
def Live (e : Entry) : Prop := e 0 ≠ 0 ∧ skipped e = false

/-- One of the two entries by which a subdirectory names itself and its parent. -/
def IsDot (e : Entry) : Prop := e.sfn = dotName ∨ e.sfn = dotDotName

/-- The entry of a file or a directory. -/
def Named (e : Entry) : Prop := Live e ∧ ¬ IsDot e

section Defs

variable (v : Vol) (I : Image)

/-- Slot `i` of directory `h` holds the entry `e` of a file or a directory. -/
def HasEntry (h i : Nat) (e : Entry) : Prop :=
  ∃ A, Locates v I h A ∧ A.slot v I i = some e ∧ Named e

/-- Slot `i` of directory `h` holds the entry of the directory at cluster `c`. -/
def ChildAt (h i c : Nat) : Prop :=
  ∃ e, HasEntry v I h i e ∧ e.isDirectory ∧ entryCluster v e = c

/-- Directory `h` has an entry for the directory at cluster `c`. -/
def Child (h c : Nat) : Prop := ∃ i, ChildAt v I h i c

/-- A directory that can be reached from the root. -/
def IsDir (h : Nat) : Prop := ReflTransGen (Child v I) (rootDir v) h

/-- The chain of an owner: of the root directory, or of the entry in a slot. -/
def Owns : Option (Nat × Nat) → List Nat → Prop
  | none, l => v.type = .fat32 ∧ I.Chain v v.rootCluster l
  | some (h, i), l => IsDir v I h ∧ ∃ e, HasEntry v I h i e ∧ I.Chain v (entryCluster v e) l

/-- The owner of a directory: the root by itself, another one by its entry. -/
def DirOwner (h : Nat) : Option (Nat × Nat) → Prop
  | none => h = rootDir v
  | some (p, i) => IsDir v I p ∧ ChildAt v I p i h

/-- The cluster by which a subdirectory of `h` names its parent. -/
def parentCluster (h : Nat) : Nat := if h = rootDir v then 0 else h

/-- The first two slots are the dot entries of a subdirectory of `h`. -/
def Dots (h : Nat) (A : Area) : Prop :=
  ∃ e₀ e₁, A.slot v I 0 = some e₀ ∧ e₀.sfn = dotName ∧ A.slot v I 1 = some e₁ ∧
    e₁.sfn = dotDotName ∧ entryCluster v e₁ = parentCluster v h

/-- A file entry has no cluster and no bytes, or a chain long enough for its size. -/
def FileChain (e : Entry) : Prop :=
  (entryCluster v e = 0 ∧ e.size = 0) ∨
    ∃ l, I.Chain v (entryCluster v e) l ∧ clustersFor v e.size ≤ l.length

/-- Every file and directory has a chain, and no cluster is on two. -/
structure Chained : Prop where
  rootChain : v.type = .fat32 → ∃ l, I.Chain v v.rootCluster l
  dirChain : ∀ {h i e}, IsDir v I h → HasEntry v I h i e → e.isDirectory →
    ∃ l, I.Chain v (entryCluster v e) l
  fileChain : ∀ {h i e}, IsDir v I h → HasEntry v I h i e → e.isDirectory = false →
    FileChain v I e
  disjoint : ∀ {o o' l l'}, Owns v I o l → Owns v I o' l' → o ≠ o' → List.Disjoint l l'

/-- The directories are as the scans of the driver take them to be. -/
structure Sound : Prop extends Chained v I where
  ends : ∀ {h A i j e e'}, IsDir v I h → Locates v I h A → A.slot v I i = some e → e 0 = 0 →
    i ≤ j → A.slot v I j = some e' → ¬ Live e'
  names : ∀ {h A i j e e'}, IsDir v I h → Locates v I h A → i < maxDirEntries →
    j < maxDirEntries → A.slot v I i = some e → A.slot v I j = some e' → Live e → Live e' →
    e.sfn = e'.sfn → i = j
  dots : ∀ {h i c A}, IsDir v I h → ChildAt v I h i c → Locates v I c A → Dots v I h A

/-- No live entry is out of sight of the driver. -/
def Short : Prop :=
  ∀ {h A j e}, IsDir v I h → Locates v I h A → A.slot v I j = some e → Live e → j < maxDirEntries

/-- Every cluster in use, bad ones apart, belongs to an owner. -/
def Accounted : Prop :=
  ∀ c, validDataCluster v c → I.val c ≠ 0 → I.val c + 1 ≠ eocMin v →
    ∃ o l, Owns v I o l ∧ c ∈ l

end Defs

/-! ## Names -/

section Names

variable (name : CString)

theorem length_padTo {n : Nat} {l : List UInt8} (h : l.length ≤ n) : (padTo n l).length = n := by
  rw [padTo, List.length_append, List.length_replicate]
  omega

theorem length_makeSfn : (makeSfn name).length = 11 := by
  rw [makeSfn, List.length_append, length_padTo, length_padTo]
  · rw [List.length_map]
    exact List.length_take_le _ _
  · rw [List.length_map]
    exact List.length_take_le _ _

theorem upcase_ne {c d : UInt8} (hc : c ≠ d) (hlow : d < 65) : upcase c ≠ d := by
  rw [upcase]
  split
  · rename_i h
    have h1 : 97 ≤ c.toNat := h.1
    have h2 : d.toNat < 65 := hlow
    intro heq
    have := congrArg UInt8.toNat heq
    rw [UInt8.toNat_sub_of_le _ _ (show (32 : UInt8) ≤ c from
      UInt8.le_iff_toNat_le.mpr (by rw [show (32 : UInt8).toNat = 32 from rfl]; omega)),
      show (32 : UInt8).toNat = 32 from rfl] at this
    omega
  · exact hc

/-- The first byte of a short name is a padding space or a character of the name. -/
theorem makeSfn_head : ∃ b t, makeSfn name = b :: t ∧ b ≠ 0 ∧ b ≠ 46 := by
  rw [makeSfn]
  cases hbase : name.chars.takeWhile (· != 46) with
  | nil => exact ⟨32, _, rfl, by decide, by decide⟩
  | cons c cs =>
    have hmem : c ∈ name.chars.takeWhile (· != 46) := hbase ▸ List.mem_cons_self
    have hdot : c ≠ 46 := by simpa using List.all_eq_true.mp List.all_takeWhile c hmem
    have hnul : c ≠ 0 := fun h =>
      name.noNul (h ▸ (List.takeWhile_sublist _).subset hmem)
    exact ⟨upcase c, _, rfl, upcase_ne hnul (by decide), upcase_ne hdot (by decide)⟩

variable {name} {e : Entry}

/-- The dot entries have no name that can be looked up. -/
theorem not_isDot_of_match (h : e.sfn = makeSfn name) : ¬ IsDot e := by
  obtain ⟨b, t, hb, _, hdot⟩ := makeSfn_head name
  rw [hb] at h
  rintro (hd | hd)
  · exact hdot (List.cons.inj (h.symm.trans hd)).1
  · exact hdot (List.cons.inj (h.symm.trans hd)).1

theorem not_isDot_of_first (h : e 0 ≠ 46) : ¬ IsDot e := by
  rintro (hd | hd)
  · exact h (List.cons.inj hd).1
  · exact h (List.cons.inj hd).1

theorem nameMatch_iff : nameMatch e name ↔ e.sfn = makeSfn name := by
  rw [nameMatch, beq_iff_eq]

end Names

/-! ## Entries, directories, owners -/

section Basics

variable {v : Vol} {I : Image} {h : Nat}

/-- The slot determines the entry. -/
theorem HasEntry.unique {e e' : Entry} (he : HasEntry v I h i e) (he' : HasEntry v I h i e') :
    e = e' := by
  obtain ⟨A, hA, hs, _⟩ := he
  obtain ⟨A', hA', hs', _⟩ := he'
  obtain rfl := hA.unique hA'
  exact Option.mem_unique hs hs'

theorem HasEntry.slot {e : Entry} {A : Area} (he : HasEntry v I h i e) (hA : Locates v I h A) :
    A.slot v I i = some e := by
  obtain ⟨A', hA', hs, _⟩ := he
  obtain rfl := hA.unique hA'
  exact hs

theorem HasEntry.named {e : Entry} (he : HasEntry v I h i e) : Named e := by
  obtain ⟨_, _, _, hn⟩ := he
  exact hn

theorem ChildAt.unique {h c' : Nat} (hc : ChildAt v I h i c) (hc' : ChildAt v I h i c') :
    c = c' := by
  obtain ⟨e, he, _, rfl⟩ := hc
  obtain ⟨e', he', _, rfl⟩ := hc'
  rw [he.unique he']

theorem DirOwner.unique {h h' : Nat} (ho : DirOwner v I h o) (ho' : DirOwner v I h' o) :
    h = h' := by
  cases o with
  | none => exact Eq.trans ho (Eq.symm ho')
  | some p => exact ho.2.unique ho'.2

theorem IsDir.root : IsDir v I (rootDir v) := .refl

theorem IsDir.child (hh : IsDir v I h) (hc : ChildAt v I h i c) : IsDir v I c :=
  ReflTransGen.tail hh ⟨i, hc⟩

/-- A directory is the root or has an entry in another one. -/
theorem IsDir.owner (hh : IsDir v I h) : ∃ o, DirOwner v I h o := by
  cases hh with
  | refl => exact ⟨none, rfl⟩
  | tail hp hc =>
    obtain ⟨i, hc⟩ := hc
    exact ⟨some (_, i), hp, hc⟩

/-- The handle of a chained directory is the head of its chain. -/
theorem locates_chain_iff (hc : c ≠ 0) : Locates v I c (.chain l) ↔ I.Chain v c l := by
  rw [Locates, if_neg hc]
  exact ⟨And.right, fun h => ⟨fun h0 => hc h0.1, h⟩⟩

theorem chain_head_ne_zero (h : I.Chain v c l) : c ≠ 0 := by
  have := (valid_bounds (h.good_of_mem h.mem_head)).1
  omega

variable (hs : Chained v I)

include hs

theorem Chained.childChain (hh : IsDir v I h) (hc : ChildAt v I h i c) :
    ∃ l, I.Chain v c l ∧ Owns v I (some (h, i)) l := by
  obtain ⟨e, he, hd, rfl⟩ := hc
  obtain ⟨l, hl⟩ := hs.dirChain hh he hd
  exact ⟨l, hl, hh, e, he, hl⟩

/-- Two owners of a chain are one. -/
theorem Chained.owner_unique {o' : Option (Nat × Nat)} (ho : Owns v I o l) (ho' : Owns v I o' l')
    (hc : c ∈ l) (hc' : c ∈ l') : o = o' :=
  by_contra fun hne => hs.disjoint ho ho' hne hc hc'

omit hs in
theorem owns_chain (ho : Owns v I o l) : ∃ c, I.Chain v c l := by
  cases o with
  | none => exact ⟨_, ho.2⟩
  | some p =>
    obtain ⟨_, e, _, hl⟩ := ho
    exact ⟨_, hl⟩

omit hs in
/-- An owner owns one chain. -/
theorem owns_unique (ho : Owns v I o l) (ho' : Owns v I o l') : l = l' := by
  cases o with
  | none => exact ho.2.unique ho'.2
  | some p =>
    obtain ⟨_, e, he, hl⟩ := ho
    obtain ⟨_, e', he', hl'⟩ := ho'
    rw [← he.unique he'] at hl'
    exact hl.unique hl'

/-- An entry that names a cluster has a chain. -/
theorem Chained.chain_of_ne_zero {e : Entry} (hh : IsDir v I h) (he : HasEntry v I h i e)
    (h0 : entryCluster v e ≠ 0) : ∃ l, I.Chain v (entryCluster v e) l := by
  cases hd : e.isDirectory with
  | true => exact hs.dirChain hh he hd
  | false =>
    rcases hs.fileChain hh he hd with ⟨hz, _⟩ | ⟨l, hl, _⟩
    · exact absurd hz h0
    · exact ⟨l, hl⟩

variable (hg : Geometry v)

include hg

omit hs in
theorem rootCluster_ne_zero (ht : v.type = .fat32) : v.rootCluster ≠ 0 := by
  have := hg.root_ge ht
  omega

/-- The chain of a directory belongs to its owner. -/
theorem Chained.dir_owns (ho : DirOwner v I h o) (hl : Locates v I h (.chain l)) :
    Owns v I o l := by
  cases o with
  | none =>
    obtain rfl : h = rootDir v := ho
    by_cases ht : v.type = .fat32
    · rw [rootDir, if_pos ht] at hl
      exact ⟨ht, (locates_chain_iff (rootCluster_ne_zero hg ht)).mp hl⟩
    · exact absurd ⟨if_neg ht, ht⟩ hl.1
  | some p =>
    obtain ⟨l', hl', hown⟩ := hs.childChain ho.1 ho.2
    rwa [((locates_chain_iff (chain_head_ne_zero hl')).mp hl).unique hl']

/-- Every directory is somewhere. -/
theorem Chained.located (hh : IsDir v I h) : ∃ A, Locates v I h A := by
  obtain ⟨o, ho⟩ := hh.owner
  cases o with
  | none =>
    obtain rfl : h = rootDir v := ho
    by_cases ht : v.type = .fat32
    · obtain ⟨l, hl⟩ := hs.rootChain ht
      refine ⟨.chain l, ?_⟩
      rw [rootDir, if_pos ht]
      exact (locates_chain_iff (rootCluster_ne_zero hg ht)).mpr hl
    · exact ⟨.fixed, if_neg ht, ht⟩
  | some p =>
    obtain ⟨l, hl, _⟩ := hs.childChain ho.1 ho.2
    exact ⟨.chain l, (locates_chain_iff (chain_head_ne_zero hl)).mpr hl⟩

/-- Different directories have no cluster in common. -/
theorem Chained.dirs_disjoint {h h' : Nat} (hh : IsDir v I h) (hh' : IsDir v I h') (hne : h ≠ h')
    (hl : Locates v I h (.chain l)) (hl' : Locates v I h' (.chain l')) : List.Disjoint l l' := by
  obtain ⟨o, ho⟩ := hh.owner
  obtain ⟨o', ho'⟩ := hh'.owner
  refine hs.disjoint (hs.dir_owns hg ho hl) (hs.dir_owns hg ho' hl') ?_
  rintro rfl
  exact hne (ho.unique ho')

/-- A directory has one owner. -/
theorem Chained.dirOwner_unique {q : Option (Nat × Nat)} (ho : DirOwner v I h o)
    (ho' : DirOwner v I h q) : o = q := by
  -- without a chain of its own, the root is not the child of anything
  have key : ∀ p i, IsDir v I p → ChildAt v I p i h → ∀ q, DirOwner v I h q → some (p, i) = q := by
    intro p i hp hc q ho'
    obtain ⟨l, hl, hown⟩ := hs.childChain hp hc
    have hloc := (locates_chain_iff (chain_head_ne_zero hl)).mpr hl
    exact hs.owner_unique hown (hs.dir_owns hg ho' hloc) hl.mem_head hl.mem_head
  cases o with
  | some p => exact key p.1 p.2 ho.1 ho.2 q ho'
  | none =>
    cases q with
    | some p => exact (key p.1 p.2 ho'.1 ho'.2 none ho).symm
    | none => rfl

/-- **The directories form a tree**: none is inside itself. -/
theorem Chained.no_cycle (hh : IsDir v I h) : ¬ TransGen (Child v I) h h := by
  refine EdgeReach.no_cycle ?_ ?_ hh
  · rintro x y z hx hy ⟨i, hi⟩ ⟨j, hj⟩
    have h := hs.dirOwner_unique hg (o := some (x, i)) (q := some (y, j)) ⟨hx, hi⟩ ⟨hy, hj⟩
    exact congrArg Prod.fst (Option.some.inj h)
  · rintro x hx ⟨i, hi⟩
    cases hs.dirOwner_unique hg (o := none) (q := some (x, i)) rfl ⟨hx, hi⟩

end Basics

/-! ## Looking up a name -/

section Lookup

variable {v : Vol} {I : Image} {h : Nat} {A : Area}

/-- What a lookup finds. -/
theorem lookup_some (hA : Locates v I h A) {name : CString} {e : Entry}
    (hl : lookup (A.slot v I) name = some (e, i)) :
    i < maxDirEntries ∧ HasEntry v I h i e ∧ e.sfn = makeSfn name := by
  obtain ⟨_, hlt, hslot, h0, hsk, hm, _⟩ := lookupFrom_some hl
  have hsfn := nameMatch_iff.mp hm
  exact ⟨by omega, ⟨A, hA, hslot, ⟨h0, hsk⟩, not_isDot_of_match hsfn⟩, hsfn⟩

/-- **A lookup finds the entry with the name**, wherever the driver can see it. -/
theorem Sound.lookup_iff (hs : Sound v I) (hh : IsDir v I h) (hA : Locates v I h A) {name : CString}
    {e : Entry} : lookup (A.slot v I) name = some (e, i) ↔
      i < maxDirEntries ∧ HasEntry v I h i e ∧ e.sfn = makeSfn name := by
  refine ⟨lookup_some hA, fun ⟨hi, he, hsfn⟩ => ?_⟩
  have hslot := he.slot hA
  have hlive := he.named.1
  refine lookupFrom_hit (Nat.zero_le i) (by omega) (fun k _ hk => ?_) hslot hlive.1 hlive.2
    (nameMatch_iff.mpr hsfn)
  -- the slots in front exist, are in use and have other names
  obtain ⟨x, hx⟩ := slot_of_lt hslot (Nat.le_of_lt hk)
  have hx0 : x 0 ≠ 0 := fun h0 => hs.ends hh hA hx h0 (Nat.le_of_lt hk) hslot hlive
  refine ⟨x, hx, hx0, ?_⟩
  by_contra hno
  rw [not_or, Bool.not_eq_true, Bool.not_eq_false] at hno
  have := hs.names hh hA (by omega) hi hx hslot ⟨hx0, hno.1⟩ hlive
    ((nameMatch_iff.mp hno.2).trans hsfn.symm)
  omega

/-- A name that is not found has no entry in sight. -/
theorem Sound.lookup_none (hs : Sound v I) (hh : IsDir v I h) (hA : Locates v I h A)
    {name : CString} (hl : lookup (A.slot v I) name = none) {j : Nat} {x : Entry}
    (hj : j < maxDirEntries) (hx : A.slot v I j = some x) (hlive : Live x) :
    x.sfn ≠ makeSfn name := by
  intro hsfn
  refine absurd (nameMatch_iff.mpr hsfn) ?_
  rw [Bool.not_eq_true]
  refine lookupFrom_none hl (Nat.zero_le j) (by omega) (fun k _ hk => ?_) hx hlive.1 hlive.2
  obtain ⟨y, hy⟩ := slot_of_lt hx (Nat.le_of_lt hk)
  exact ⟨y, hy, fun h0 => hs.ends hh hA hy h0 (Nat.le_of_lt hk) hx hlive⟩

end Lookup

end FatTree
