import AoOs.FatWellFormed
import AoOs.Vfs

/-! # The tree command — `tree_print_dir`

    The command walks down with `fs_chdir(name)` and up with `fs_chdir("..")`, and reads the
    entries of every level from the one static list that `fat_list` fills.  A nested call
    leaves its own listing there, and meets the dot entries of its directory. -/

namespace TreeCommand

open BlockIO FatTypes FatDriver FatGeometry FatImage
open FatDirs FatScan FatTree FatReslot FatConfined FatWellFormed FatPaths CwdBuffer Relation
open BlockIO.BlockM (run exec)

/-! ## The functions -/

/-- An element of `file_list`.  The directory and the slot are not part of `fs_file_info_t`:
    they tell entries apart that are listed alike. -/
structure Listed where
  info : FileInfo
  dir : Nat
  slot : Fin maxDirEntries

/-- A printed line, with the directory and the depth of the call that printed it. -/
structure Line where
  dir : Nat
  depth : Nat
  file : Listed

/-- The static variables of the driver, the elements of `file_list` that are in use, and what
    is on the screen. -/
structure Shell where
  vol : Vol
  disk : Disk
  fileList : List Listed
  lines : List Line

/-- The scan of `fat_list` over the slots that are left. -/
def listSlots (v : Vol) : List (Fin maxDirEntries) → BlockM (List Listed)
  | [] => pure []
  | i :: is => do
      match ← dirRead v v.currentCluster i with
      | none => pure []
      | some e =>
        if e 0 = 0 then pure []
        else if skipped e then listSlots v is
        else do
          let rest ← listSlots v is
          pure (⟨Entry.fileInfo e, v.currentCluster, i⟩ :: rest)

/-- `fs_list`: the list, filled from its beginning, and the count. -/
def fsList (s : Shell) : Shell × Nat :=
  let r := exec (listSlots s.vol (List.finRange maxDirEntries)) s.disk
  ({ s with disk := r.2, fileList := r.1 ++ s.fileList.drop r.1.length }, r.1.length)

/-- What `resolve` hands to the root mount. -/
def rootName (path : CString) : CString :=
  if Vfs.charAt path 0 = 47 then Vfs.dropChars path 1 else path

/-- `fs_chdir`, and whether it returned 0. -/
def fsChdir (s : Shell) (path : CString) : Shell × Bool :=
  match exec (fatChdir s.vol (rootName path)) s.disk with
  | (some v, d) => ({ s with vol := v, disk := d }, true)
  | (none, d) => ({ s with disk := d }, false)

/-- `"."`. -/
def dot : CString := ⟨[46], by decide⟩

/-- `".."`. -/
def dotDot : CString := ⟨[46, 46], by decide⟩

/-- The loop of `tree_print_dir` over the list; `recurse` is what follows the line of a
    directory. -/
def printLoop (recurse : CString → Shell → Shell) (dir depth : Nat) : Nat → Nat → Shell → Shell
  | 0, _, s => s
  | n + 1, i, s =>
    match s.fileList[i]? with
    | none => printLoop recurse dir depth n (i + 1) s
    | some f =>
      let s := { s with lines := s.lines ++ [⟨dir, depth, f⟩] }
      printLoop recurse dir depth n (i + 1)
        (if f.info.isDirectory then recurse (cString f.info.name) s else s)

/-- `tree_print_dir` in the directory it has entered. -/
def printDir (recurse : CString → Shell → Shell) (depth : Nat) (s : Shell) : Shell :=
  printLoop recurse s.vol.currentCluster depth (fsList s).2 0 (fsList s).1

/-- `tree_print_dir` up to the recursion. -/
def enterDir (recurse : CString → Shell → Shell) (path : CString) (depth : Nat) (s : Shell) :
    Shell :=
  if 0 < depth then
    if (fsChdir s path).2 then printDir recurse depth (fsChdir s path).1 else (fsChdir s path).1
  else printDir recurse depth s

/-- What `tree_print_dir` does behind the line of a directory if it may go `left` levels
    deeper: print it one level down, and go back up. -/
def below : Nat → Nat → CString → Shell → Shell
  | 0, _, _, s => s
  | left + 1, depth, name, s =>
    (fsChdir (enterDir (below left (depth + 1)) name (depth + 1) s) dotDot).1

/-- `tree_print_dir`, which recurses where `depth < 4`. -/
def treePrintDir (path : CString) (depth : Nat) (s : Shell) : Shell :=
  enterDir (below (4 - depth) depth) path depth s

/-- `cmd_tree`, without the title line. -/
def cmdTree (s : Shell) : Shell := treePrintDir dot 0 s

/-- The list is what `fat_list` reports. -/
theorem listSlots_info (v : Vol) (d : Disk) :
    (exec (listSlots v (List.finRange maxDirEntries)) d).1.map Listed.info =
      (exec (fatList v) d).1 := by
  have key : ∀ (is : List (Fin maxDirEntries)) i d, is.map Fin.val = List.range' i is.length →
      (exec (listSlots v is) d).1.map Listed.info = (exec (listFrom v is.length i) d).1 := by
    intro is
    induction is with
    | nil => exact fun _ _ _ => rfl
    | cons j is ih =>
      intro i d hmap
      rw [List.map_cons, List.length_cons, List.range'_succ] at hmap
      obtain ⟨rfl, hrest⟩ := List.cons.inj hmap
      rw [List.length_cons, listFrom, listSlots, exec_bind, exec_bind]
      cases (exec (dirRead v v.currentCluster j) d).1 with
      | none => rfl
      | some e =>
        dsimp only
        simp only [exec_ite]
        split
        · rfl
        · split
          · exact ih _ _ hrest
          · simp only [exec_bind, exec_pure, List.map_cons]
            rw [ih _ _ hrest]
  have hall := key (List.finRange maxDirEntries) 0 d (by
    rw [List.length_finRange, ← List.range_eq_range', List.map_coe_finRange_eq_range])
  rw [hall, List.length_finRange]
  rfl

/-! ## Levels -/

section Levels

variable {v : Vol} {I : Image}

/-- `h` is a directory `n` steps below `r`. -/
inductive Beneath (v : Vol) (I : Image) (r : Nat) : Nat → Nat → Prop
  | here : Beneath v I r 0 r
  | child {n h i c : Nat} (hh : Beneath v I r n h) (hc : ChildAt v I h i c) :
      Beneath v I r (n + 1) c

/-- The level of a directory. -/
def Level (v : Vol) (I : Image) : Nat → Nat → Prop := Beneath v I (rootDir v)

theorem Beneath.isDir {r n h : Nat} (hr : IsDir v I r) (hb : Beneath v I r n h) : IsDir v I h := by
  induction hb with
  | here => exact hr
  | child _ hc ih => exact ih.child hc

theorem Level.isDir {n h : Nat} (hl : Level v I n h) : IsDir v I h := Beneath.isDir .root hl

theorem exists_level {h : Nat} (hh : IsDir v I h) : ∃ n, Level v I n h := by
  induction hh with
  | refl => exact ⟨0, .here⟩
  | tail _ hc ih =>
    obtain ⟨n, hn⟩ := ih
    obtain ⟨i, hi⟩ := hc
    exact ⟨n + 1, .child hn hi⟩

/-- A directory has one level. -/
theorem Level.unique (hs : Chained v I) (hg : Geometry v) {n m h : Nat} (hn : Level v I n h)
    (hm : Level v I m h) : n = m := by
  induction hn generalizing m with
  | here =>
    cases hm with
    | here => rfl
    | child hp hc => exact absurd hc (Reslot.root_off hs hg (Level.isDir hp))
  | @child n p i c hp hc ih =>
    cases hm with
    | here => exact absurd hc (Reslot.root_off hs hg (Level.isDir hp))
    | @child m q j _ hq hc' =>
      have howner := hs.dirOwner_unique hg (o := some (p, i)) (q := some (q, j))
        ⟨Level.isDir hp, hc⟩ ⟨Level.isDir hq, hc'⟩
      cases howner
      rw [ih hq]

end Levels

/-! ## Where the shell stands -/

/-- The shell is in a directory of level `n`, with nothing else changed in the volume. -/
structure Stands (v : Vol) (d : Disk) (s : Shell) (n : Nat) : Prop where
  vol : ∃ c cwd, s.vol = moved v c cwd
  disk : s.disk = d
  level : Level v (image v d) n s.vol.currentCluster

section Chdir

variable {v : Vol} {d : Disk} (hw : WellFormed v d) {s : Shell} {n : Nat}

/-- The parent of a directory is where its `..` entry leads. -/
theorem parent_of_dots (hs : Chained v (image v d)) {p : Nat} (hp : IsDir v (image v d) p)
    {e : Entry} (he : entryCluster v e = parentCluster v p) :
    (if entryCluster v e ≠ 0 then entryCluster v e else rootDir v) = p := by
  rw [he, parentCluster]
  by_cases hroot : p = rootDir v
  · rw [if_pos hroot, if_neg (by simp), hroot]
  · have hp0 : p ≠ 0 := by
      obtain ⟨o, ho⟩ := hp.owner
      cases o with
      | none => exact absurd ho hroot
      | some q =>
        obtain ⟨l, hl, _⟩ := hs.childChain ho.1 ho.2
        exact chain_head_ne_zero hl
    rw [if_neg hroot, if_pos hp0]

theorem fsChdir_eq (hd : s.disk = d) (path : CString) :
    fsChdir s path = match (exec (fatChdir s.vol (rootName path)) d).1 with
      | some v' => ({ s with vol := v' }, true)
      | none => (s, false) := by
  subst hd
  have hdisk := (fatChdir_noWrites s.vol (rootName path)).readOnly (fun _ => true) s.disk
  rw [fsChdir]
  cases hr : exec (fatChdir s.vol (rootName path)) s.disk with
  | mk r d' =>
    have hd' : d' = s.disk := (congrArg Prod.snd hr).symm.trans hdisk
    subst hd'
    cases r with
    | none => rfl
    | some v' => rfl

include hw

omit hw in
theorem exec_fatChdir_up (v : Vol) (d : Disk) : (exec (fatChdir v dotDot) d).1 =
    if v.currentCluster = rootDir v then some v
    else (exec (dirRead v v.currentCluster 1) d).1.map fun e =>
      moved v (if entryCluster v e ≠ 0 then entryCluster v e else rootDir v) (cwdUp v.cwd) := by
  have hup : dotDot.chars = [46, 46] := rfl
  rw [fatChdir, if_neg (by decide), if_pos hup]
  split
  · rfl
  · rw [exec_bind]
    cases (exec (dirRead v v.currentCluster 1) d).1 with
    | none => rfl
    | some e => rfl

/-- `fs_chdir("..")` goes one level up, and stays in the root directory. -/
theorem chdir_up (hst : Stands v d s n) : ∃ s', fsChdir s dotDot = (s', true) ∧
    Stands v d s' (n - 1) ∧ s'.fileList = s.fileList ∧ s'.lines = s.lines ∧ (n = 0 → s' = s) := by
  obtain ⟨⟨c, cwd, hvol⟩, hd, hl⟩ := hst
  have hs := hw.sound.toChained
  have hg := hw.numbered.geometry
  rw [fsChdir_eq hd, show rootName dotDot = dotDot from rfl, exec_fatChdir_up]
  obtain ⟨vol, disk, list, lines⟩ := s
  dsimp only at hvol hl hd ⊢
  subst hvol
  by_cases htop : (moved v c cwd).currentCluster = rootDir (moved v c cwd)
  · rw [if_pos htop]
    obtain rfl : c = rootDir v := htop
    obtain rfl := hl.unique hs hg .here
    exact ⟨_, rfl, ⟨⟨_, _, rfl⟩, hd, .here⟩, rfl, rfl, fun _ => rfl⟩
  rw [if_neg htop]
  have hl' : Level v (image v d) n c := hl
  cases hl' with
  | here => exact absurd rfl htop
  | @child m p i _ hp hc =>
    obtain ⟨B, hB⟩ := hs.located hg ((Level.isDir hp).child hc)
    obtain ⟨e₀, e₁, _, _, h1, _, hparent⟩ := hw.sound.dots (Level.isDir hp) hc hB
    have hread : exec (dirRead (moved v c cwd) (moved v c cwd).currentCluster 1) d =
        (some e₁, d) :=
      (exec_dirRead (numbered_moved c cwd hw.numbered) (h := c) hB 1).trans (congrArg (·, d) h1)
    rw [hread]
    refine ⟨_, rfl, ⟨⟨_, _, rfl⟩, hd, ?_⟩, rfl, rfl, nofun⟩
    show Level v _ m (if entryCluster v e₁ ≠ 0 then entryCluster v e₁ else rootDir v)
    rw [parent_of_dots hs (Level.isDir hp) hparent]
    exact hp

/-- Every change of directory goes at most one level down. -/
theorem chdir_spec (hst : Stands v d s n) (path : CString) : ∃ s' ok m,
    fsChdir s path = (s', ok) ∧ m ≤ n + 1 ∧ Stands v d s' m ∧ s'.fileList = s.fileList ∧
      s'.lines = s.lines ∧ (ok = false → s' = s) := by
  obtain ⟨⟨c, cwd, hvol⟩, hd, hl⟩ := hst
  have hs := hw.sound.toChained
  have hg := hw.numbered.geometry
  have hmoves : Moves (fun _ => true) s.vol d (rootName path)
    (exec (fatChdir s.vol (rootName path)) d).1 _ := chdir_moves _ _ _ _
  by_cases hup : (rootName path).chars = [46, 46]
  · obtain ⟨s', hs', hst', hrest⟩ := chdir_up hw ⟨⟨c, cwd, hvol⟩, hd, hl⟩
    have hname : rootName path = rootName dotDot := by
      cases hp : rootName path with
      | mk chars noNul =>
        rw [hp] at hup
        subst hup
        rfl
    have hpath : fsChdir s path = fsChdir s dotDot := by
      rw [fsChdir_eq hd, fsChdir_eq hd, hname]
    exact ⟨s', true, n - 1, hpath.trans hs', by omega, hst', hrest.1, hrest.2.1, nofun⟩
  rw [fsChdir_eq hd]
  obtain ⟨vol, disk, list, lines⟩ := s
  dsimp only at hvol hl hmoves hd ⊢
  subst hvol hd
  generalize (exec (fatChdir (moved v c cwd) (rootName path)) disk).1 = r at hmoves ⊢
  generalize (run _ (chdirStores (moved v c cwd) (rootName path)) disk).1 = ws at hmoves
  cases hmoves with
  | root _ => exact ⟨_, _, 0, rfl, Nat.zero_le _, ⟨⟨_, _, rfl⟩, rfl, .here⟩, rfl, rfl, nofun⟩
  | top h _ => exact absurd h hup
  | stuck h _ => exact absurd h hup
  | up h _ _ => exact absurd h hup
  | missing _ _ _ =>
    exact ⟨_, _, n, rfl, Nat.le_succ n, ⟨⟨_, _, rfl⟩, rfl, hl⟩, rfl, rfl, fun _ => rfl⟩
  | @down e i _ _ hf hdir =>
    obtain ⟨A, hA⟩ := hs.located hg hl.isDir
    have hfind := exec_findEntry (numbered_moved c cwd hw.numbered) hA (rootName path)
    obtain ⟨_, he, _⟩ := lookup_some hA ((congrArg Prod.fst hfind).symm.trans hf)
    exact ⟨_, _, n + 1, rfl, Nat.le_refl _, ⟨⟨_, _, rfl⟩, rfl, .child hl ⟨e, he, hdir, rfl⟩⟩,
      rfl, rfl, nofun⟩

end Chdir

/-! ## Listings -/

/-- What the scan finds in the slots. -/
def listed (slot : Nat → Option Entry) (h : Nat) : List (Fin maxDirEntries) → List Listed
  | [] => []
  | i :: is =>
    match slot i with
    | none => []
    | some e =>
      if e 0 = 0 then []
      else if skipped e then listed slot h is
      else ⟨Entry.fileInfo e, h, i⟩ :: listed slot h is

theorem exec_listSlots {v : Vol} {d : Disk} {A : Area} (hv : Numbered v)
    (hA : Locates v (image v d) v.currentCluster A) (is : List (Fin maxDirEntries)) :
    exec (listSlots v is) d = (listed (A.slot v (image v d)) v.currentCluster is, d) := by
  induction is with
  | nil => rfl
  | cons i is ih =>
    rw [listSlots, exec_bind, exec_dirRead hv hA, listed]
    dsimp only
    cases A.slot v (image v d) i with
    | none => rfl
    | some e =>
      dsimp only
      simp only [exec_ite, exec_bind, ih, exec_pure]
      split
      · rfl
      · split <;> rfl

/-- The listing of a directory. -/
def listing (v : Vol) (I : Image) (h : Nat) (A : Area) : List Listed :=
  listed (A.slot v I) h (List.finRange maxDirEntries)

theorem fsList_eq {v : Vol} {d : Disk} (hw : WellFormed v d) {s : Shell} {n : Nat}
    (hst : Stands v d s n) {A : Area} (hA : Locates v (image v d) s.vol.currentCluster A) :
    fsList s = ({ s with
      fileList := listing v (image v d) s.vol.currentCluster A ++
        s.fileList.drop (listing v (image v d) s.vol.currentCluster A).length },
      (listing v (image v d) s.vol.currentCluster A).length) := by
  obtain ⟨⟨c, cwd, hvol⟩, hd, _⟩ := hst
  obtain ⟨vol, disk, list, lines⟩ := s
  dsimp only at hvol hA hd
  subst hvol hd
  have hlist : exec (listSlots (moved v c cwd) (List.finRange maxDirEntries)) disk =
      (listing v (image v disk) (moved v c cwd).currentCluster A, disk) :=
    exec_listSlots (numbered_moved c cwd hw.numbered) hA _
  rw [fsList]
  dsimp only
  rw [hlist]

section Listing

variable {slot : Nat → Option Entry} {h : Nat}

theorem mem_listed {is : List (Fin maxDirEntries)} {f : Listed} (hf : f ∈ listed slot h is) :
    f.slot ∈ is ∧ f.dir = h ∧ ∃ e, slot f.slot = some e ∧ Live e ∧ f.info = Entry.fileInfo e := by
  induction is with
  | nil => cases hf
  | cons i is ih =>
    have hrest : f ∈ listed slot h is → f.slot ∈ i :: is ∧ f.dir = h ∧
        ∃ e, slot f.slot = some e ∧ Live e ∧ f.info = Entry.fileInfo e := fun hf =>
      ⟨List.mem_cons_of_mem _ (ih hf).1, (ih hf).2⟩
    rw [listed] at hf
    cases hs : slot i with
    | none =>
      rw [hs] at hf
      cases hf
    | some e =>
      rw [hs] at hf
      dsimp only at hf
      split at hf
      · cases hf
      · rename_i h0
        split at hf
        · exact hrest hf
        · rename_i hsk
          rcases List.mem_cons.mp hf with rfl | hf
          · exact ⟨List.mem_cons_self .., rfl, e, hs, ⟨h0, Bool.eq_false_iff.mpr hsk⟩, rfl⟩
          · exact hrest hf

/-- A live entry is listed if the scan gets there. -/
theorem listed_mem {is : List (Fin maxDirEntries)} (hsort : is.Pairwise (· < ·))
    {j : Fin maxDirEntries} {e : Entry} (hj : j ∈ is) (hs : slot j = some e) (he : Live e)
    (hbefore : ∀ i < j.val, ∃ x, slot i = some x ∧ x 0 ≠ 0) :
    ⟨Entry.fileInfo e, h, j⟩ ∈ listed slot h is := by
  induction is with
  | nil => cases hj
  | cons i is ih =>
    obtain ⟨hfirst, hsort⟩ := List.pairwise_cons.mp hsort
    rw [listed]
    rcases List.mem_cons.mp hj with rfl | hj
    · rw [hs]
      dsimp only
      rw [if_neg he.1, if_neg (by rw [he.2]; nofun)]
      exact List.mem_cons_self
    · obtain ⟨x, hx, hx0⟩ := hbefore i (hfirst j hj)
      rw [hx]
      dsimp only
      rw [if_neg hx0]
      split
      · exact ih hsort hj
      · exact List.mem_cons_of_mem _ (ih hsort hj)

theorem slots_sublist (is : List (Fin maxDirEntries)) :
    ((listed slot h is).map Listed.slot).Sublist is := by
  induction is with
  | nil => exact .slnil
  | cons i is ih =>
    rw [listed]
    cases slot i with
    | none => exact List.nil_sublist _
    | some e =>
      dsimp only
      split
      · exact List.nil_sublist _
      · split
        · exact ih.cons i
        · exact ih.cons_cons i

end Listing

/-- The dot entries are those of a FAT volume: two directory entries at the beginning of every
    directory but the root, which has none. -/
structure DotDirs (v : Vol) (I : Image) : Prop where
  root : ∀ {A i e}, Locates v I (rootDir v) A → A.slot v I i = some e → Live e → ¬ IsDot e
  sub : ∀ {h i c A j e}, IsDir v I h → ChildAt v I h i c → Locates v I c A → j < 2 →
    A.slot v I j = some e → skipped e = false ∧ e.isDirectory

/-- The list starts with the two dot entries. -/
def DotsAhead (l : List Listed) : Prop :=
  ∃ f₀ f₁ rest, l = f₀ :: f₁ :: rest ∧ f₀.info.isDirectory ∧ f₁.info.isDirectory ∧
    f₁.info.name = [46, 46]

section Directory

variable {v : Vol} {I : Image} {h : Nat} {A : Area}

/-- A directory is listed completely. -/
theorem mem_listing_iff (hs : Sound v I) (hh : IsDir v I h) (hA : Locates v I h A) {f : Listed} :
    f ∈ listing v I h A ↔
      f.dir = h ∧ ∃ e, A.slot v I f.slot = some e ∧ Live e ∧ f.info = Entry.fileInfo e := by
  refine ⟨fun hf => (mem_listed hf).2, fun ⟨hdir, e, he, hlive, hinfo⟩ => ?_⟩
  obtain ⟨info, dir, j⟩ := f
  dsimp only at hdir he hinfo
  subst hdir hinfo
  refine listed_mem (List.pairwise_lt_finRange _) (List.mem_finRange j) he hlive fun i hi => ?_
  obtain ⟨x, hx⟩ := slot_of_lt he hi.le
  exact ⟨x, hx, fun h0 => hs.ends hh hA hx h0 hi.le he hlive⟩

theorem listing_nodup : ((listing v I h A).map Listed.slot).Nodup :=
  (slots_sublist _).nodup (List.nodup_finRange _)

/-- A directory other than the root starts with its dot entries. -/
theorem listing_dots (hs : Sound v I) (hdots : DotDirs v I) {p i : Nat} (hp : IsDir v I p)
    (hc : ChildAt v I p i h) (hA : Locates v I h A) : DotsAhead (listing v I h A) := by
  obtain ⟨e₀, e₁, h0, hn0, h1, hn1, _⟩ := hs.dots hp hc hA
  obtain ⟨hsk0, hd0⟩ := hdots.sub hp hc hA (by decide) h0
  obtain ⟨hsk1, hd1⟩ := hdots.sub hp hc hA (by decide) h1
  have hf0 : e₀ 0 ≠ 0 := by
    rw [show e₀ 0 = 46 from (List.cons.inj hn0).1]
    decide
  have hf1 : e₁ 0 ≠ 0 := by
    rw [show e₁ 0 = 46 from (List.cons.inj hn1).1]
    decide
  have hrange : ∀ n, ∃ is, List.finRange (n + 2) =
      ⟨0, Nat.zero_lt_succ _⟩ :: ⟨1, Nat.succ_lt_succ (Nat.zero_lt_succ _)⟩ :: is := fun n => by
    rw [List.finRange_succ, List.finRange_succ]
    exact ⟨_, rfl⟩
  have hname : (Entry.fileInfo e₁).name = [46, 46] := by
    rw [Entry.fileInfo, hn1, hd1]
    rfl
  obtain ⟨is, his⟩ : ∃ is, List.finRange maxDirEntries = ⟨0, by decide⟩ :: ⟨1, by decide⟩ :: is :=
    hrange 510
  refine ⟨⟨Entry.fileInfo e₀, h, ⟨0, by decide⟩⟩, ⟨Entry.fileInfo e₁, h, ⟨1, by decide⟩⟩,
    listed (A.slot v I) h is, ?_, hd0, hd1, hname⟩
  rw [listing, his, listed, h0]
  dsimp only
  rw [if_neg hf0, if_neg (by rw [hsk0]; nofun), listed, h1]
  dsimp only
  rw [if_neg hf1, if_neg (by rw [hsk1]; nofun)]

end Directory

end TreeCommand
