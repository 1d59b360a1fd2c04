import Mathlib.Data.List.TakeWhile
import AoOs.FatChange
import AoOs.FatFresh
import AoOs.PathText

/-! # Does the path name the current directory?

    `fat_chdir` moves the cluster of the current directory along the entries on the disk
    and edits the path as text.  The two agree as long as the words of the text are the
    names that were looked up: `resolve` follows them from the root, with `find_entry`,
    to the current cluster.

    A name that contains a slash is one name to `find_entry` and several words of the
    path, and a name that does not fit is cut.  These are the only ways in which the path
    goes wrong: on a sound volume, after any calls of `fat_mkdir`, `fat_rmdir` and
    `fat_chdir` that descend with names without slashes that fit, the path names the
    current directory. -/

namespace FatPaths

open BlockIO FatTypes FatDriver FatGeometry FatImage FatAlloc FatDirs FatScan FatTree FatReslot
open FatOps FatChange FatConfined CwdBuffer PathText FatFresh StepSystem Relation
open BlockIO.BlockM (run exec)

variable {ns : List CString} {h : Nat}

/-! ## Following a path -/

/-- Bytes read as a C string. -/
def cString (l : List UInt8) : CString := ⟨l.takeWhile (· != 0), fun h => by
  simpa using List.all_eq_true.mp List.all_takeWhile _ h⟩

theorem cString_chars (name : CString) : cString name.chars = name := by
  obtain ⟨chars, hnul⟩ := name
  have : chars.takeWhile (· != 0) = chars := by
    rw [List.takeWhile_eq_self_iff]
    intro c hc
    simpa using fun h : c = 0 => hnul (h ▸ hc)
  simp only [cString, this]

/-- The directory reached from `h` by looking up the words one after the other. -/
def resolve (v : Vol) (d : Disk) : List (List UInt8) → Nat → Option Nat
  | [], h => some h
  | w :: ws, h =>
    match (exec (findEntry v h (cString w)) d).1 with
    | none => none
    | some (e, _) => if e.isDirectory then resolve v d ws (entryCluster v e) else none

/-- The words of the path lead from the root to the current directory. -/
def NamesCurrent (v : Vol) (d : Disk) : Prop :=
  resolve v d (components (fatGetcwd v)) (rootDir v) = some v.currentCluster

/-- A path through the tree. -/
inductive Path (v : Vol) (I : Image) : List CString → Nat → Prop
  | root : Path v I [] (rootDir v)
  | down {ns : List CString} {p i : Nat} {n : CString} {e : Entry} (hp : Path v I ns p)
      (he : HasEntry v I p i e) (hi : i < maxDirEntries) (hsfn : e.sfn = makeSfn n)
      (hd : e.isDirectory) : Path v I (ns ++ [n]) (entryCluster v e)

section Path

variable {v : Vol} {I I' : Image}

theorem Path.isDir (hp : Path v I ns h) : IsDir v I h := by
  induction hp with
  | root => exact .root
  | down _ he _ _ hd ih => exact ih.child ⟨_, he, hd, rfl⟩

/-- A path stays where the entries stay. -/
theorem Path.mono (hkeep : ∀ {p i e}, IsDir v I p → HasEntry v I p i e → HasEntry v I' p i e)
    (hp : Path v I ns h) : Path v I' ns h := by
  induction hp with
  | root => exact .root
  | down hp he hi hsfn hd ih => exact ih.down (hkeep hp.isDir he) hi hsfn hd

/-- **The path to the changed directory stays**: none of its entries is the changed one. -/
theorem Path.reslot {D i : Nat} {A : Area} {e : Entry} (hr : Reslot v I D i A e I')
    (hs : Chained v I) (hg : Geometry v) (hp : Path v I ns D) : Path v I' ns D := by
  have key : ∀ {ns h}, Path v I ns h → (∀ g, ChildAt v I D i g → ¬ ReflTransGen (Child v I) g h) →
      Path v I' ns h := by
    intro ns h hp
    induction hp with
    | root => intro _; exact .root
    | @down ns p j n x hp he hj hsfn hd ih =>
      intro hout
      have hchild : ChildAt v I p j (entryCluster v x) := ⟨x, he, hd, rfl⟩
      have houtp : ∀ g, ChildAt v I D i g → ¬ ReflTransGen (Child v I) g p :=
        fun g hg' hgp => hout g hg' (hgp.tail ⟨j, hchild⟩)
      have hne : ¬ (p = D ∧ j = i) := by
        rintro ⟨rfl, rfl⟩
        exact hout _ hchild .refl
      refine (ih houtp).down (i := j) ?_ hj hsfn hd
      rw [hr.entry_iff hs hg hp.isDir fun hc => houtp p hc .refl, if_neg hne]
      exact he
  exact key hp fun g hg' hgD => hs.no_cycle hg hr.dir (TransGen.head' ⟨i, hg'⟩ hgD)

theorem resolve_append (d : Disk) (ws ws' : List (List UInt8)) (h : Nat) :
    resolve v d (ws ++ ws') h = (resolve v d ws h).bind (resolve v d ws') := by
  induction ws generalizing h with
  | nil => rfl
  | cons w ws ih =>
    rw [List.cons_append, resolve, resolve]
    cases (exec (findEntry v h (cString w)) d).1 with
    | none => rfl
    | some p =>
      dsimp only
      split
      · exact ih _
      · rfl

/-- **A path through the tree is followed.** -/
theorem Path.resolve {d : Disk} (hv : Numbered v) (hs : Sound v (image v d))
    (hp : Path v (image v d) ns h) :
    FatPaths.resolve v d (ns.map CString.chars) (rootDir v) = some h := by
  induction hp with
  | root => rfl
  | @down ns p i n e hp he hi hsfn hd ih =>
    obtain ⟨A, hA⟩ := hs.located hv.geometry hp.isDir
    rw [List.map_append, resolve_append, ih]
    show FatPaths.resolve v d [n.chars] p = _
    rw [FatPaths.resolve, cString_chars, exec_findEntry hv hA,
      (hs.lookup_iff hp.isDir hA).mpr ⟨hi, he, hsfn⟩]
    dsimp only
    rw [if_pos hd, FatPaths.resolve]

end Path

/-! ## The calls -/

/-- The calls that move in the tree or change its directories. -/
inductive TreeCall where
  | mkdir (name : CString)
  | rmdir (name : CString)
  | chdir (name : CString)

def TreeCall.call : TreeCall → Call
  | .mkdir name => .mkdir name
  | .rmdir name => .rmdir name
  | .chdir name => .chdir name

/-- One call on a disk that does not fail. -/
def treeStep (s : Vol × Disk) (c : TreeCall) : Option (Vol × Disk) :=
  some (after (fun _ => true) s c.call)

/-- A name to descend with has no slash and fits into the path buffer. -/
def Spelled (s : Vol × Disk) : TreeCall → Prop
  | .chdir name => Descends (fun _ => true) s.1 s.2 name →
      (47 : UInt8) ∉ name.chars ∧ nameAt s.1.cwd + name.chars.length ≤ fsMaxFilename - 1
  | _ => True

/-- The path names the current directory, and a `fat_chdir` that fails changes nothing. -/
structure Faithful (s : Vol × Disk) : Prop where
  names : NamesCurrent s.1 s.2
  failing : ∀ name, (exec (fatChdir s.1 name) s.2).1 = none →
    after (fun _ => true) s (.chdir name) = s

/-- The invariant: a sound volume, and a path through it that the buffer spells. -/
structure Inv (s : Vol × Disk) : Prop where
  numbered : Numbered s.1
  sound : Sound s.1 (image s.1 s.2)
  path : ∃ ns, Path s.1 (image s.1 s.2) ns s.1.currentCluster ∧
    Spells s.1.cwd (ns.map CString.chars)

section Moved

variable {v : Vol} {I : Image} (c : Nat) (cwd : Nat → UInt8)

theorem numbered_moved (hv : Numbered v) : Numbered (moved v c cwd) :=
  ⟨⟨mounted_moved hv.mounted c cwd, hv.fits, hv.holds⟩, hv.small⟩

/-- The tree does not depend on where one is in it. -/
theorem chained_moved (hs : Chained v I) : Chained (moved v c cwd) I :=
  ⟨hs.rootChain, hs.dirChain, hs.fileChain, hs.disjoint⟩

theorem sound_moved (hs : Sound v I) : Sound (moved v c cwd) I :=
  ⟨chained_moved c cwd hs.toChained, hs.ends, hs.names, hs.dots⟩

theorem path_moved (hp : Path v I ns h) : Path (moved v c cwd) I ns h := by
  induction hp with
  | root => exact .root
  | down _ he hi hsfn hd ih => exact ih.down he hi hsfn hd

end Moved

section Steps

variable {v : Vol} {d : Disk} (hi : Inv (v, d))

include hi

/-- The path to the current directory ends in it: at the root, or by its entry. -/
theorem Inv.faithful : Faithful (v, d) where
  names := by
    obtain ⟨ns, hp, hsp⟩ := hi.path
    rw [NamesCurrent, hsp.getcwd]
    exact hp.resolve hi.numbered hi.sound
  failing := fun name hnone => by
    have hdisk := (fatChdir_noWrites v name).readOnly (fun _ => true) d
    refine Prod.ext ?_ hdisk
    show (exec (fatChdir v name) d).1.getD v = v
    rw [hnone]
    rfl

theorem Inv.mkdir (name : CString) : Inv (v, (exec (fatMkdir v name) d).2) := by
  have hv := hi.numbered
  have hg := hv.geometry
  have hs := hi.sound
  obtain ⟨ns, hp, hsp⟩ := hi.path
  obtain ⟨A, hA⟩ := hs.located hg hp.isDir
  obtain ⟨r, d', hrun, hout, _⟩ := exec_fatMkdir hv hs.toChained hp.isDir hA name
  rw [hrun]
  -- a slot found leaves the path as it is
  have hslotted : ∀ {A₁ i I₁}, Slotted v (image v d) v.currentCluster A₁ i I₁ →
      Path v I₁ ns v.currentCluster := by
    intro A₁ i I₁ hslot
    rcases hslot.grow with rfl | ⟨l, c, hgrow⟩
    · exact hp
    · exact hp.mono fun hh he => (hgrow.entry_iff hv hs.toChained hh).mp he
  suffices h : Sound v (image v d') ∧ Path v (image v d') ns v.currentCluster from
    ⟨hv, h.1, ns, h.2, hsp⟩
  show Sound v (image v d') ∧ _
  generalize image v d' = I' at hout
  cases hout with
  | refused | full => exact ⟨hs, hp⟩
  | leaked _ _ _ hfree =>
    have hsp := spare_allocated (v := v) (firstFree_some hv hfree).2.1
    exact ⟨hsp.sound hg hs, hp.mono fun hh he => (hsp.entry_iff hs.toChained hg hh).mp he⟩
  | slotOnly _ hslot _ => exact ⟨Slotted.sound hslot hv hs, hslotted hslot⟩
  | made hl hslot hfree =>
    have hch := change_made hv hs hp.isDir hA hl hslot hfree
    have hs₁ := Slotted.sound hslot hv hs
    exact ⟨hch.sound hg hs₁, (hslotted hslot).reslot hch.reslot hs₁.toChained hg⟩

theorem Inv.rmdir (name : CString) : Inv (v, (exec (fatRmdir v name) d).2) := by
  have hv := hi.numbered
  have hg := hv.geometry
  have hs := hi.sound
  obtain ⟨ns, hp, hsp⟩ := hi.path
  obtain ⟨A, hA⟩ := hs.located hg hp.isDir
  obtain ⟨r, d', hrun, hout, _⟩ := exec_fatRmdir hv hs.toChained hp.isDir hA name
  rw [hrun]
  suffices h : Sound v (image v d') ∧ Path v (image v d') ns v.currentCluster from
    ⟨hv, h.1, ns, h.2, hsp⟩
  show Sound v (image v d') ∧ _
  generalize image v d' = I' at hout
  cases hout with
  | refused => exact ⟨hs, hp⟩
  | removed hl _ _ _ hrem =>
    have hch := change_removed (lookup_some hA hl).1 hrem
    exact ⟨hch.sound hg hs, hp.reslot hch.reslot hs.toChained hg⟩

/-- Moving to a directory that the new text names. -/
theorem Inv.moved {c : Nat} {cwd : Nat → UInt8} (ns : List CString) (hp : Path v (image v d) ns c)
    (hsp : Spells cwd (ns.map CString.chars)) : Inv (FatGeometry.moved v c cwd, d) :=
  ⟨numbered_moved c cwd hi.numbered, sound_moved c cwd hi.sound, ns, path_moved c cwd hp, hsp⟩

/-- The entry `..` leads where the path without its last word leads. -/
theorem Inv.parent (htop : v.currentCluster ≠ rootDir v) {e : Entry}
    (he : (exec (dirRead v v.currentCluster 1) d).1 = some e) :
    Inv (FatGeometry.moved v (if entryCluster v e ≠ 0 then entryCluster v e else rootDir v)
      (cwdUp v.cwd), d) := by
  have hg := hi.numbered.geometry
  obtain ⟨ns, hp, hsp⟩ := hi.path
  generalize hcur : v.currentCluster = cur at hp he htop
  cases hp with
  | root => exact absurd rfl htop
  | @down ns p i n x hp hx hj hsfn hd =>
    have hc : ChildAt v (image v d) p i (entryCluster v x) := ⟨x, hx, hd, rfl⟩
    obtain ⟨B, hB⟩ := hi.sound.located hg (hp.isDir.child hc)
    obtain ⟨e₀, e₁, _, _, h1, _, hparent⟩ := hi.sound.dots hp.isDir hc hB
    rw [exec_dirRead hi.numbered hB, h1] at he
    cases he
    rw [List.map_append] at hsp
    refine hi.moved ns ?_ hsp.up
    -- 0 stands for the root, and for nothing else
    have hp0 : p ≠ rootDir v → p ≠ 0 := by
      intro hne
      obtain ⟨o, ho⟩ := hp.isDir.owner
      cases o with
      | none => exact absurd ho hne
      | some q =>
        obtain ⟨l, hl, _⟩ := hi.sound.childChain ho.1 ho.2
        exact chain_head_ne_zero hl
    rw [hparent, parentCluster]
    by_cases hroot : p = rootDir v
    · rw [if_pos hroot, if_neg (by simp), ← hroot]
      exact hp
    · rw [if_neg hroot, if_pos (hp0 hroot)]
      exact hp

theorem Inv.chdir {name : CString} (hspell : Spelled (v, d) (.chdir name)) :
    Inv (after (fun _ => true) (v, d) (.chdir name)) := by
  have hmoves := chdir_moves (fun _ => true) v d name
  have hdisk := (fatChdir_noWrites v name).readOnly (fun _ => true) d
  rw [after]
  dsimp only
  rw [hdisk]
  generalize (run (fun _ => true) (fatChdir v name) d).1 = r at hmoves ⊢
  generalize (run (fun _ => true) (chdirStores v name) d).1 = ws at hmoves
  cases hmoves with
  | root _ => exact hi.moved [] .root (spells_root rfl rfl)
  | top | stuck | missing => exact hi
  | up _ htop he => exact hi.parent htop he
  | @down e i hroot hup hf hdir =>
    obtain ⟨ns, hp, hsp⟩ := hi.path
    obtain ⟨A, hA⟩ := hi.sound.located hi.numbered.geometry hp.isDir
    obtain ⟨hslash, hfit⟩ := hspell ⟨hroot, hup, e, i, hf, hdir⟩
    have hl : lookup (A.slot v (image v d)) name = some (e, i) := by
      have := exec_findEntry hi.numbered hA name
      exact (congrArg Prod.fst this).symm.trans hf
    obtain ⟨hi', he, hsfn⟩ := lookup_some hA hl
    refine hi.moved _ (hp.down he hi' hsfn hdir) ?_
    rw [List.map_append]
    exact hsp.down hslash (fun h => hroot (.inl h)) hfit

end Steps

theorem Inv.step {s s' : Vol × Disk} {c : TreeCall} (hi : Inv s) (hspell : Spelled s c)
    (hstep : treeStep s c = some s') : Inv s' := by
  cases hstep
  cases c with
  | mkdir name => exact hi.mkdir name
  | rmdir name => exact hi.rmdir name
  | chdir name => exact hi.chdir hspell

/-- **The path names the current directory**: on a sound volume, from the root directory
    and after any calls that descend with names without slashes that fit. -/
theorem cwd_names_current {v : Vol} {d : Disk} (hv : Numbered v) (hs : Sound v (image v d))
    (hcur : v.currentCluster = rootDir v) (h0 : v.cwd 0 = 47) (h1 : v.cwd 1 = 0)
    {calls : List TreeCall} {s : Vol × Disk} (hrun : Steps treeStep Spelled (v, d) calls s) :
    Faithful s := by
  have hinit : Inv (v, d) :=
    ⟨hv, hs, [], hcur ▸ .root, spells_root h0 h1⟩
  exact (hrun.invariant (fun _ _ _ hi hc hstep => hi.step hc hstep) hinit).faithful

/-- `AB`. -/
def plainName : CString := ⟨[65, 66], by decide⟩

/-- `mkdir AB` and `cd AB` on a fresh disk. -/
theorem cwd_names_current_fresh :
    ∃ s, Steps treeStep Spelled (freshVol, freshDisk) [.mkdir plainName, .chdir plainName] s ∧
      Faithful s := by
  have hrun : Steps treeStep Spelled (freshVol, freshDisk) [.mkdir plainName, .chdir plainName]
      (after (fun _ => true) (after (fun _ => true) (freshVol, freshDisk) (.mkdir plainName))
        (.chdir plainName)) :=
    .cons rfl trivial (.cons rfl (fun _ => ⟨by decide, by decide⟩) (.nil _))
  exact ⟨_, hrun, cwd_names_current freshVol_numbered freshVol_flat.sound (by decide) (by decide)
    (by decide) hrun⟩

/-! ## A name with a slash -/

/-- `A/B`, a name of three characters. -/
def slashName : CString := ⟨[65, 47, 66], by decide⟩

/-- **After `mkdir A/B` and `cd A/B`** the path has the words `A` and `B`, and the root
    directory has no entry `A`. -/
theorem slash_in_path : Numbered freshVol ∧ Sound freshVol (image freshVol freshDisk) ∧
    ∃ s, Steps treeStep Any (freshVol, freshDisk) [.mkdir slashName, .chdir slashName] s ∧
      s.1.currentCluster = 2 ∧ components (fatGetcwd s.1) = [[65], [66]] ∧
      ¬ NamesCurrent s.1 s.2 := by
  refine ⟨freshVol_numbered, freshVol_flat.sound, _, .cons rfl trivial (.cons rfl trivial (.nil _)),
    ?_, ?_, ?_⟩
  · decide +kernel
  · decide +kernel
  · rw [NamesCurrent]
    decide +kernel

end FatPaths
