import AoOs.TreeCommand

/-! # Runs of the tree command

    Every line of a directory is followed by a step down, a nested run and a step up, so a run
    never ends below the level it started on.  Off the root it ends above it: the dot entries
    take the shell up.  In the root a run that enters a subdirectory comes back through `..`
    inside the nested call and prints the root once more.  Only a root whose directories
    cannot be entered, and have nothing in them, is printed as it should be. -/

namespace TreeRuns

open BlockIO FatTypes FatDriver FatImage FatAlloc FatDirs FatScan FatTree FatReslot FatOps FatChange
open FatConfined FatWellFormed FatPaths FatFresh TreeCommand
open PathText (fatGetcwd)
open BlockIO.BlockM (run exec)

variable {s : Shell} {n : Nat} {a : List Listed} {e : Entry}

/-! ## What is printed stays printed -/

/-- The screen only grows. -/
def Grows (r : CString → Shell → Shell) : Prop := ∀ path s, s.lines <+: (r path s).lines

section Grows

variable {r : CString → Shell → Shell} (hr : Grows r)

theorem lines_fsChdir (s : Shell) (path : CString) : (fsChdir s path).1.lines = s.lines := by
  rw [fsChdir_eq rfl]
  cases (exec (fatChdir s.vol (rootName path)) s.disk).1 with
  | none => rfl
  | some v => rfl

theorem lines_fsList (s : Shell) : (fsList s).1.lines = s.lines := by rw [fsList]

include hr

theorem grows_loop (dir depth : Nat) : ∀ n i s,
    s.lines <+: (printLoop r dir depth n i s).lines := by
  intro n
  induction n with
  | zero => exact fun _ s => List.prefix_refl _
  | succ n ih =>
    intro i s
    rw [printLoop]
    cases s.fileList[i]? with
    | none => exact ih _ s
    | some f =>
      refine (List.prefix_append s.lines [⟨dir, depth, f⟩]).trans ?_
      refine List.IsPrefix.trans ?_ (ih _ _)
      cases f.info.isDirectory with
      | false => exact List.prefix_refl _
      | true => exact hr _ { s with lines := s.lines ++ [⟨dir, depth, f⟩] }

theorem grows_printDir (depth : Nat) (s : Shell) : s.lines <+: (printDir r depth s).lines := by
  have hgrow := grows_loop hr s.vol.currentCluster depth (fsList s).2 0 (fsList s).1
  rw [lines_fsList] at hgrow
  exact hgrow

theorem grows_enterDir (path : CString) (depth : Nat) (s : Shell) :
    s.lines <+: (enterDir r path depth s).lines := by
  have hch := lines_fsChdir s path
  rw [enterDir]
  split
  · split
    · rw [← hch]
      exact grows_printDir hr depth _
    · rw [hch]
  · exact grows_printDir hr depth s

end Grows

theorem grows_below (left depth : Nat) : Grows (below left depth) := by
  induction left generalizing depth with
  | zero => exact fun _ s => List.prefix_refl _
  | succ left ih =>
    intro path s
    rw [below, lines_fsChdir]
    exact grows_enterDir (ih _) _ _ _

/-- The line shows the entry in slot `i` of the directory `h`, under that directory. -/
def shows (h i : Nat) (l : Line) : Bool := l.dir == h && l.file.dir == h && l.file.slot.val == i

/-- How often an entry was printed under its own directory. -/
def times (s : Shell) (h i : Nat) : Nat := s.lines.countP (shows h i)

theorem times_mono {s' : Shell} (hp : s.lines <+: s'.lines) (h i : Nat) :
    times s h i ≤ times s' h i :=
  hp.sublist.countP_le

/-! ## The invariant -/

section Runs

variable {v : Vol} {d : Disk} (hw : WellFormed v d) (hdots : DotDirs v (image v d)) {A : Area}
  (hA : Locates v (image v d) (rootDir v) A) {B : Prop} {x k : Nat}

/-- At the head of the loop the list starts with dot entries, or the shell is back in the
    root.  Then, if not `B`, it has printed the slot `x` of the root more than `k` times. -/
structure Held (v : Vol) (d : Disk) (B : Prop) (x k : Nat) (s : Shell) (n : Nat) : Prop where
  stands : Stands v d s n
  count : k ≤ times s (rootDir v) x
  ready : DotsAhead s.fileList ∨ n = 0 ∧ (B ∨ k < times s (rootDir v) x)

/-- The nested calls do not end below where they started. -/
def Settles (v : Vol) (d : Disk) (B : Prop) (x k : Nat) (r : CString → Shell → Shell) : Prop :=
  Grows r ∧ ∀ path s n, Held v d B x k s n → ∃ m ≤ n, Held v d B x k (r path s) m

theorem Stands.line (h : Stands v d s n) (l : Line) :
    Stands v d { s with lines := s.lines ++ [l] } n :=
  ⟨h.vol, h.disk, h.level⟩

/-- Printing a line changes nothing else. -/
theorem Held.line (h : Held v d B x k s n) (l : Line) :
    Held v d B x k { s with lines := s.lines ++ [l] } n := by
  have hmono : times s (rootDir v) x ≤ times { s with lines := s.lines ++ [l] } (rootDir v) x :=
    times_mono (List.prefix_append s.lines [l]) _ _
  exact ⟨Stands.line h.stands l, h.count.trans hmono,
    h.ready.imp id fun hr => ⟨hr.1, hr.2.imp id fun hlt => lt_of_lt_of_le hlt hmono⟩⟩

include hw in
theorem Held.up (h : Held v d B x k s n) : Held v d B x k (fsChdir s dotDot).1 (n - 1) := by
  obtain ⟨s', hs', hst, hlist, hlines, _⟩ := chdir_up hw h.stands
  rw [hs']
  have htimes : times s' (rootDir v) x = times s (rootDir v) x := by rw [times, hlines, times]
  refine ⟨hst, htimes ▸ h.count, ?_⟩
  rw [htimes, hlist]
  exact h.ready.imp id fun hr => ⟨by rw [hr.1], hr.2⟩

variable {r : CString → Shell → Shell}

/-- What follows a line. -/
theorem Settles.after (hr : Settles v d B x k r) (f : Listed) (h : Held v d B x k s n) :
    ∃ m ≤ n, Held v d B x k (if f.info.isDirectory then r (cString f.info.name) s else s) m := by
  cases f.info.isDirectory with
  | false => exact ⟨n, le_refl n, h⟩
  | true => exact hr.2 (cString f.info.name) s n h

/-- One round of the loop. -/
theorem Settles.round (hr : Settles v d B x k r) (dir depth i : Nat) (h : Held v d B x k s n)
    (j : Nat) : ∃ s' m, m ≤ n ∧ Held v d B x k s' m ∧
      printLoop r dir depth (j + 1) i s = printLoop r dir depth j (i + 1) s' := by
  rw [printLoop]
  cases s.fileList[i]? with
  | none => exact ⟨s, n, le_refl n, h, rfl⟩
  | some f =>
    obtain ⟨m, hm, hheld⟩ := hr.after f (h.line ⟨dir, depth, f⟩)
    exact ⟨_, m, hm, hheld, rfl⟩

theorem Settles.loop (hr : Settles v d B x k r) (dir depth : Nat) : ∀ j i {s n},
    Held v d B x k s n → ∃ m ≤ n, Held v d B x k (printLoop r dir depth j i s) m := by
  intro j
  induction j with
  | zero => exact fun _ {s n} h => ⟨n, le_refl n, h⟩
  | succ j ih =>
    intro i s n h
    obtain ⟨s', m, hm, hheld, heq⟩ := hr.round dir depth i h j
    obtain ⟨m', hm', hheld'⟩ := ih (i + 1) hheld
    rw [heq]
    exact ⟨m', hm'.trans hm, hheld'⟩

include hw in
theorem Stands.listed (hst : Stands v d s n) : Stands v d (fsList s).1 n := by
  obtain ⟨B, hB⟩ := hw.sound.located hw.numbered.geometry hst.level.isDir
  rw [fsList_eq hw hst hB]
  exact ⟨hst.vol, hst.disk, hst.level⟩

theorem times_fsList (s : Shell) (h i : Nat) : times (fsList s).1 h i = times s h i := by
  rw [times, lines_fsList, times]

include hw hdots in
/-- Off the root the new list starts with the dot entries. -/
theorem fsList_off (hst : Stands v d s (n + 1)) :
    ∃ j, (fsList s).2 = j + 2 ∧ DotsAhead (fsList s).1.fileList := by
  have hl := hst.level
  generalize hcur : s.vol.currentCluster = c at hl
  cases hl with
  | child hp hc =>
    obtain ⟨B, hB⟩ := hw.sound.located hw.numbered.geometry ((Level.isDir hp).child hc)
    obtain ⟨f₀, f₁, tail, hlist, hdirs⟩ := listing_dots hw.sound hdots (Level.isDir hp) hc hB
    rw [fsList_eq hw hst (hcur.symm ▸ hB), hcur, hlist]
    exact ⟨tail.length, rfl, f₀, f₁, _, rfl, hdirs⟩

section First

variable {f : Listed} {rest : List Listed}
  (hfirst : listing v (image v d) (rootDir v) A = f :: rest)

include hw hA hfirst in
/-- In the root it starts with the first entry. -/
theorem fsList_root (hst : Stands v d s 0) :
    s.vol.currentCluster = rootDir v ∧ (fsList s).2 = rest.length + 1 ∧
      (fsList s).1.fileList[0]? = some f := by
  have hl := hst.level
  generalize hcur : s.vol.currentCluster = c at hl
  cases hl with
  | here =>
    rw [fsList_eq hw hst (hcur.symm ▸ hA), hcur, hfirst]
    exact ⟨rfl, rfl, rfl⟩

/-- The line that shows it. -/
theorem times_line (hf : f.dir = rootDir v) (depth : Nat) (s : Shell) :
    times { s with lines := s.lines ++ [⟨rootDir v, depth, f⟩] } (rootDir v) f.slot =
      times s (rootDir v) f.slot + 1 := by
  rw [times, List.countP_append, times, List.countP_singleton, shows]
  simp [hf]

/-- The shell behind the first line of the root. -/
def firstLine (v : Vol) (f : Listed) (depth : Nat) (s : Shell) : Shell :=
  { (fsList s).1 with lines := (fsList s).1.lines ++ [⟨rootDir v, depth, f⟩] }

include hw hA hfirst in
theorem printDir_root (depth : Nat) (hst : Stands v d s 0) :
    printDir r depth s = printLoop r (rootDir v) depth rest.length 1
      (if f.info.isDirectory then r (cString f.info.name) (firstLine v f depth s)
        else firstLine v f depth s) ∧
    Stands v d (firstLine v f depth s) 0 ∧
    times (firstLine v f depth s) (rootDir v) f.slot = times s (rootDir v) f.slot + 1 := by
  obtain ⟨hcur, hcount, hhead⟩ := fsList_root hw hA hfirst hst
  have hmem : f ∈ listing v (image v d) (rootDir v) A := by
    rw [hfirst]
    exact List.mem_cons_self
  have hf := ((mem_listing_iff hw.sound .root hA).mp hmem).1
  refine ⟨?_, Stands.line (Stands.listed hw hst) _, ?_⟩
  · rw [printDir, hcur, hcount, printLoop, hhead]
    rfl
  · rw [firstLine, times_line hf, times_fsList]

include hw hA hfirst in
/-- A call in the root prints the first entry. -/
theorem root_printed (hg : Grows r) (depth : Nat) (hst : Stands v d s 0) :
    times s (rootDir v) f.slot < times (printDir r depth s) (rootDir v) f.slot := by
  obtain ⟨heq, _, htimes⟩ := printDir_root (r := r) hw hA hfirst depth hst
  have hafter : (firstLine v f depth s).lines <+: (if f.info.isDirectory then
      r (cString f.info.name) (firstLine v f depth s) else firstLine v f depth s).lines := by
    cases f.info.isDirectory with
    | false => exact List.prefix_refl _
    | true => exact hg _ _
  rw [heq]
  refine lt_of_lt_of_le ?_ (times_mono (hafter.trans (grows_loop hg _ _ _ _ _)) _ _)
  rw [htimes]
  exact Nat.lt_succ_self _

end First

variable (hroot : B ∨ ∃ f rest, listing v (image v d) (rootDir v) A = f :: rest ∧ f.slot.val = x)

include hw hdots hA hroot in
/-- A call does not end below where it started. -/
theorem Settles.printDir (hr : Settles v d B x k r) (depth : Nat) (hst : Stands v d s n)
    (hk : k ≤ times s (rootDir v) x) : ∃ m ≤ n, Held v d B x k (printDir r depth s) m := by
  have hk' : k ≤ times (fsList s).1 (rootDir v) x := by rwa [times_fsList]
  cases n with
  | zero =>
    rcases hroot with hB | ⟨f, rest, hfirst, rfl⟩
    · exact hr.loop _ depth _ 0 ⟨Stands.listed hw hst, hk', .inr ⟨rfl, .inl hB⟩⟩
    obtain ⟨heq, hst', htimes⟩ := printDir_root (r := r) hw hA hfirst depth hst
    have hheld : Held v d B f.slot k (firstLine v f depth s) 0 :=
      ⟨hst', by omega, .inr ⟨rfl, .inr (by omega)⟩⟩
    obtain ⟨m, hm, hheld'⟩ := hr.after f hheld
    obtain ⟨m', hm', hheld''⟩ := hr.loop (rootDir v) depth rest.length 1 hheld'
    rw [heq]
    exact ⟨m', hm'.trans hm, hheld''⟩
  | succ n =>
    obtain ⟨_, _, hahead⟩ := fsList_off hw hdots hst
    exact hr.loop _ depth _ 0 ⟨Stands.listed hw hst, hk', .inl hahead⟩

include hw hdots hA hroot in
theorem settles_below (left depth : Nat) : Settles v d B x k (below left depth) := by
  refine ⟨grows_below left depth, ?_⟩
  induction left generalizing depth with
  | zero => exact fun _ s n h => ⟨n, le_refl n, h⟩
  | succ left ih =>
    intro path s n h
    rw [below, enterDir, if_pos (Nat.zero_lt_succ depth)]
    obtain ⟨s', ok, m, hs', hm, hst, hlist, hlines, hfail⟩ := chdir_spec hw h.stands path
    rw [hs']
    cases ok with
    | false =>
      obtain rfl := hfail rfl
      rw [if_neg nofun]
      exact ⟨n - 1, Nat.sub_le n 1, h.up hw⟩
    | true =>
      have htimes : times s' (rootDir v) x = times s (rootDir v) x := by
        rw [times, hlines, times]
      obtain ⟨m', hm', hheld⟩ := Settles.printDir hw hdots hA hroot
        ⟨grows_below left (depth + 1), ih (depth + 1)⟩ (depth + 1) hst (htimes ▸ h.count)
      rw [if_pos rfl]
      exact ⟨m' - 1, by omega, hheld.up hw⟩

/-! ## Off the root -/

include hw hdots hA hroot in
/-- The `..` entry takes the shell two levels up. -/
theorem below_dotDot (left depth : Nat) (h : Held v d B x k s n) :
    ∃ m ≤ n - 2, Held v d B x k (below (left + 1) depth dotDot s) m := by
  obtain ⟨s', hs', hst, hlist, hlines, _⟩ := chdir_up hw h.stands
  have htimes : times s' (rootDir v) x = times s (rootDir v) x := by rw [times, hlines, times]
  obtain ⟨m, hm, hheld⟩ := Settles.printDir hw hdots hA hroot
    (settles_below hw hdots hA hroot left (depth + 1)) (depth + 1) hst (htimes ▸ h.count)
  rw [below, enterDir, if_pos (Nat.zero_lt_succ depth), hs', if_pos rfl]
  exact ⟨m - 1, by omega, hheld.up hw⟩

theorem cString_dotDot : cString [46, 46] = dotDot := rfl

include hw hdots hA hroot in
/-- Behind the `.` entry of a directory other than the root the loop meets `..`, unless a
    nested call was back in the root. -/
theorem off_root (left depth : Nat) (hst : Stands v d s (n + 1)) (hk : k ≤ times s (rootDir v) x) :
    ∃ s₁ m j i, m ≤ n + 1 ∧ Held v d B x k s₁ m ∧
      (m = 0 ∧ (B ∨ k < times s₁ (rootDir v) x) ∧ printDir (below (left + 1) depth) depth s =
          printLoop (below (left + 1) depth) s.vol.currentCluster depth j i s₁ ∨
        printDir (below (left + 1) depth) depth s =
          printLoop (below (left + 1) depth) s.vol.currentCluster depth j i
            (below (left + 1) depth dotDot s₁)) := by
  have hr : Settles v d B x k (below (left + 1) depth) :=
    settles_below hw hdots hA hroot (left + 1) depth
  obtain ⟨j, hcount, hahead⟩ := fsList_off hw hdots hst
  obtain ⟨s₁, m, hm, hheld, heq⟩ := hr.round s.vol.currentCluster depth 0
    ⟨Stands.listed hw hst, by rwa [times_fsList], .inl hahead⟩ (j + 1)
  rw [printDir, hcount, heq]
  rcases hheld.ready with ⟨f₀, f₁, tail, hlist, _, hdir, hname⟩ | ⟨hm0, hback⟩
  · have hsecond : s₁.fileList[1]? = some f₁ := by rw [hlist]; rfl
    rw [printLoop, hsecond]
    dsimp only
    rw [if_pos hdir, hname, cString_dotDot]
    exact ⟨_, m, j, 2, hm, hheld.line _, .inr rfl⟩
  · exact ⟨s₁, m, j + 1, 1, hm, hheld, .inl ⟨hm0, hback, rfl⟩⟩

omit hroot in
include hw hdots hA in
/-- **Off the root the command ends higher up.** -/
theorem level_drops (left depth : Nat) (hst : Stands v d s (n + 1)) :
    ∃ m ≤ n, Stands v d (printDir (below (left + 1) depth) depth s) m := by
  have hroot : True ∨ ∃ f rest, listing v (image v d) (rootDir v) A = f :: rest ∧ f.slot.val = 0 :=
    .inl trivial
  have hr : Settles v d True 0 0 (below (left + 1) depth) :=
    settles_below hw hdots hA hroot (left + 1) depth
  obtain ⟨s₁, m, j, i, hm, hheld, heq⟩ :=
    off_root hw hdots hA hroot left depth hst (Nat.zero_le _)
  rcases heq with ⟨hm0, _, heq⟩ | heq
  · obtain ⟨m', hm', hheld'⟩ := hr.loop s.vol.currentCluster depth j i hheld
    exact ⟨m', by omega, heq ▸ hheld'.stands⟩
  · obtain ⟨m₁, hm₁, hheld₁⟩ := below_dotDot hw hdots hA hroot left depth hheld
    obtain ⟨m', hm', hheld'⟩ := hr.loop s.vol.currentCluster depth j i hheld₁
    exact ⟨m', by omega, heq ▸ hheld'.stands⟩

/-! ## In the root -/

omit hroot in
include hw hdots hA in
/-- **A call one level down prints the root again.** -/
theorem root_again {f : Listed} {rest : List Listed}
    (hfirst : listing v (image v d) (rootDir v) A = f :: rest) (left depth : Nat) (hn : n ≤ 1)
    (hst : Stands v d s n) : times s (rootDir v) f.slot <
      times (printDir (below (left + 1) depth) depth s) (rootDir v) f.slot := by
  have hg := grows_below (left + 1) depth
  cases n with
  | zero => exact root_printed hw hA hfirst hg depth hst
  | succ n =>
    obtain rfl : n = 0 := by omega
    obtain ⟨s₁, m, j, i, hm, hheld, heq⟩ := off_root (B := False) hw hdots hA
      (.inr ⟨f, rest, hfirst, rfl⟩) left depth hst (le_refl (times s (rootDir v) f.slot))
    rcases heq with ⟨_, hback, heq⟩ | heq
    · rw [heq]
      exact lt_of_lt_of_le (hback.resolve_left id) (times_mono (grows_loop hg _ _ _ _ _) _ _)
    · obtain ⟨s', hs', hst', _, hlines, _⟩ := chdir_up hw hheld.stands
      rw [show m - 1 = 0 by omega] at hst'
      have htop := root_printed hw hA hfirst (grows_below left (depth + 1)) (depth + 1) hst'
      rw [times, hlines] at htop
      rw [heq, below, enterDir, if_pos (Nat.zero_lt_succ depth), hs', if_pos rfl]
      refine lt_of_lt_of_le (lt_of_le_of_lt hheld.count htop)
        (times_mono (List.IsPrefix.trans ?_ (grows_loop hg _ _ _ _ _)) _ _)
      rw [lines_fsChdir]

end Runs

/-! ## Directories that cannot be entered -/

/-- `fs_chdir` of the listed name fails, or it is a file. -/
def Locked (v : Vol) (d : Disk) (info : FileInfo) : Prop :=
  info.isDirectory → (exec (fatChdir v (rootName (cString info.name))) d).1 = none

/-- The name leads nowhere from the root: it is none of those that `fat_chdir` treats apart, and
    no directory in the root has its short name. -/
def LeadsNowhere (v : Vol) (I : Image) (name : CString) : Prop :=
  name.chars ≠ [] ∧ name.chars ≠ [47] ∧ name.chars ≠ [46, 46] ∧
    ∀ {i e}, i < maxDirEntries → HasEntry v I (rootDir v) i e → e.sfn = makeSfn name →
      e.isDirectory = false

theorem fatChdir_none_iff {v : Vol} {d : Disk} (hw : WellFormed v d)
    (hroot : v.currentCluster = rootDir v) (name : CString) :
    (exec (fatChdir v name) d).1 = none ↔ LeadsNowhere v (image v d) name := by
  obtain ⟨A, hA⟩ := hw.sound.located hw.numbered.geometry (IsDir.root (v := v))
  rw [fatChdir]
  by_cases htop : name.chars = [] ∨ name.chars = [47]
  · rw [if_pos htop]
    exact ⟨fun h => (by cases h), fun h => absurd htop (not_or.mpr ⟨h.1, h.2.1⟩)⟩
  rw [if_neg htop]
  by_cases hup : name.chars = [46, 46]
  · rw [if_pos hup, if_pos hroot]
    exact ⟨fun h => (by cases h), fun h => absurd hup h.2.2.1⟩
  have hplain := not_or.mp htop
  rw [if_neg hup, exec_bind, hroot, exec_findEntry hw.numbered hA]
  dsimp only
  cases hl : lookup (A.slot v (image v d)) name with
  | none =>
    refine ⟨fun _ => ⟨hplain.1, hplain.2, hup, fun hi he hsfn => ?_⟩, fun _ => rfl⟩
    exact absurd hsfn (hw.sound.lookup_none .root hA hl hi (he.slot hA) he.named.1)
  | some p =>
    obtain ⟨e, i⟩ := p
    have hfound := (hw.sound.lookup_iff .root hA).mp hl
    dsimp only
    cases hdir : e.isDirectory with
    | false =>
      refine ⟨fun _ => ⟨hplain.1, hplain.2, hup, fun {j x} hj hx hsfn => ?_⟩, fun _ => rfl⟩
      have hsame := (hw.sound.lookup_iff .root hA).mpr ⟨hj, hx, hsfn⟩
      cases Option.mem_unique hl hsame
      exact hdir
    | true =>
      refine ⟨fun h => (by cases h), fun h => ?_⟩
      cases hdir.symm.trans (h.2.2.2 hfound.1 hfound.2.1 hfound.2.2)

/-- In the root such a line is followed by nothing. -/
theorem below_locked (hcur : s.vol.currentCluster = rootDir s.vol) {path : CString}
    (hfail : (exec (fatChdir s.vol (rootName path)) s.disk).1 = none) (left depth : Nat) :
    below left depth path s = s := by
  cases left with
  | zero => rfl
  | succ left =>
    have hdown : fsChdir s path = (s, false) := by rw [fsChdir_eq rfl, hfail]
    have hup : fsChdir s dotDot = (s, true) := by
      rw [fsChdir_eq rfl, show rootName dotDot = dotDot from rfl, exec_fatChdir_up, if_pos hcur]
    rw [below, enterDir, if_pos (Nat.zero_lt_succ depth), hdown, if_neg nofun, hup]

/-- The loop over entries that are all locked prints them and does nothing else. -/
theorem loop_locked (hcur : s.vol.currentCluster = rootDir s.vol) (left dir depth j : Nat)
    {todo rest : List Listed} (hlist : s.fileList = a ++ (todo ++ rest))
    (hlocked : ∀ f ∈ todo, Locked s.vol s.disk f.info) :
    printLoop (below left depth) dir depth (todo.length + j) a.length s =
      printLoop (below left depth) dir depth j (a.length + todo.length)
        { s with lines := s.lines ++ todo.map (⟨dir, depth, ·⟩) } := by
  induction todo generalizing a s with
  | nil =>
    rw [List.length_nil, Nat.zero_add, List.map_nil, List.append_nil]
    rfl
  | cons f todo ih =>
    have hnext : s.fileList[a.length]? = some f := by
      rw [hlist, List.getElem?_append_right (le_refl _), Nat.sub_self]
      rfl
    have hafter : ∀ s' : Shell, s'.vol = s.vol → s'.disk = s.disk →
        (if f.info.isDirectory then below left depth (cString f.info.name) s' else s') = s' := by
      intro s' hvol hdisk
      split
      · rename_i hdir
        refine below_locked (hvol ▸ hcur) ?_ left depth
        rw [hvol, hdisk]
        exact hlocked f List.mem_cons_self hdir
      · rfl
    rw [List.length_cons, Nat.add_right_comm, printLoop, hnext]
    dsimp only
    rw [hafter { s with lines := s.lines ++ [⟨dir, depth, f⟩] } rfl rfl]
    have hstep := ih (s := { s with lines := s.lines ++ [⟨dir, depth, f⟩] }) (a := a ++ [f])
      hcur (by rw [hlist, List.append_assoc]; rfl)
      fun g hg => hlocked g (List.mem_cons_of_mem _ hg)
    rw [List.length_append, List.length_singleton] at hstep
    rw [hstep, Nat.add_assoc, Nat.add_comm 1, List.append_assoc]
    rfl

/-! ## The command -/

/-- The command was read-only and complete: it has left the disk, the current directory and
    its path alone, and has printed every entry of the current directory and the directories
    up to four levels below it exactly once under its own directory. -/
structure Faultless (v : Vol) (d : Disk) (s : Shell) : Prop where
  disk : s.disk = d
  cluster : s.vol.currentCluster = v.currentCluster
  path : fatGetcwd s.vol = fatGetcwd v
  once : ∀ {n h i e}, n ≤ 4 → Beneath v (image v d) v.currentCluster n h →
    HasEntry v (image v d) h i e → times s h i = 1

/-- The current directory is the root, `fat_list` reaches its last entry, and its directories
    cannot be entered under their listed names and have no entries. -/
structure Shut (v : Vol) (d : Disk) : Prop where
  root : v.currentCluster = rootDir v
  seen : ∀ {i e}, HasEntry v (image v d) (rootDir v) i e → i < maxDirEntries
  locked : ∀ {i e}, HasEntry v (image v d) (rootDir v) i e → e.isDirectory →
    LeadsNowhere v (image v d) (rootName (cString (Entry.fileInfo e).name))
  empty : ∀ {c i e}, Child v (image v d) (rootDir v) c → ¬ HasEntry v (image v d) c i e

section Command

variable {v : Vol} {d : Disk} (hw : WellFormed v d) (hdots : DotDirs v (image v d))
  (hcur : IsDir v (image v d) v.currentCluster) {A : Area}
  (hA : Locates v (image v d) (rootDir v) A) (list : List Listed)

/-- The shell before the command. -/
def start (v : Vol) (d : Disk) (list : List Listed) : Shell := ⟨v, d, list, []⟩

theorem stands_start (hn : Level v (image v d) n v.currentCluster) :
    Stands v d (start v d list) n :=
  ⟨⟨v.currentCluster, v.cwd, rfl⟩, rfl, hn⟩

theorem cmdTree_eq (s : Shell) : cmdTree s = printDir (below 4 0) 0 s := by
  rw [cmdTree, treePrintDir, enterDir, if_neg (Nat.lt_irrefl 0), Nat.sub_zero]

include hw hA in
/-- In the root, up to an entry that is not locked, the entries are printed. -/
theorem printDir_locked (hroot : v.currentCluster = rootDir v) {b : List Listed}
    (hlist : listing v (image v d) (rootDir v) A = a ++ b) (hlocked : ∀ f ∈ a, Locked v d f.info) :
    printDir (below 4 0) 0 (start v d list) = printLoop (below 4 0) (rootDir v) 0 b.length a.length
      ⟨v, d, a ++ b ++ list.drop (a ++ b).length, a.map (⟨rootDir v, 0, ·⟩)⟩ := by
  have hst := stands_start list (hroot.symm ▸ Beneath.here : Level v (image v d) 0 v.currentCluster)
  have hfs := fsList_eq hw hst (A := A) (hroot.symm ▸ hA)
  rw [show (start v d list).vol.currentCluster = rootDir v from hroot, hlist] at hfs
  have hloop := loop_locked (s := ⟨v, d, a ++ b ++ list.drop (a ++ b).length, []⟩) hroot 4
    (rootDir v) 0 b.length (a := []) (List.append_assoc a b _) hlocked
  rw [List.length_nil, Nat.zero_add] at hloop
  rw [printDir, hfs, show (start v d list).vol.currentCluster = rootDir v from hroot]
  rw [← List.length_append] at hloop
  exact hloop

include hw hdots hA in
/-- The entries of the root are the elements of its listing. -/
theorem mem_root_iff {f : Listed} : f ∈ listing v (image v d) (rootDir v) A ↔
    f.dir = rootDir v ∧ ∃ e, HasEntry v (image v d) (rootDir v) f.slot e ∧
      f.info = Entry.fileInfo e := by
  rw [mem_listing_iff hw.sound .root hA]
  refine and_congr_right fun _ => exists_congr fun e => ⟨?_, ?_⟩
  · rintro ⟨he, hlive, hinfo⟩
    exact ⟨⟨A, hA, he, hlive, hdots.root hA he hlive⟩, hinfo⟩
  · rintro ⟨he, hinfo⟩
    exact ⟨he.slot hA, he.named.1, hinfo⟩

include hw hdots hA in
/-- If everything is locked, the listing is what is printed. -/
theorem cmdTree_locked (hroot : v.currentCluster = rootDir v)
    (hlocked : ∀ {i e}, HasEntry v (image v d) (rootDir v) i e → Locked v d (Entry.fileInfo e)) :
    ∃ list', cmdTree (start v d list) =
      ⟨v, d, list', (listing v (image v d) (rootDir v) A).map (⟨rootDir v, 0, ·⟩)⟩ := by
  rw [cmdTree_eq, printDir_locked hw hA list hroot (List.append_nil _).symm]
  · exact ⟨_, rfl⟩
  · intro f hf
    obtain ⟨_, e, he, hinfo⟩ := (mem_root_iff hw hdots hA).mp hf
    exact hinfo ▸ hlocked he

include hw hdots hA in
/-- Each entry is listed once. -/
theorem times_listing {i : Nat} (he : HasEntry v (image v d) (rootDir v) i e)
    (hi : i < maxDirEntries) {list' : List Listed} :
    times ⟨v, d, list', (listing v (image v d) (rootDir v) A).map (⟨rootDir v, 0, ·⟩)⟩
      (rootDir v) i = 1 := by
  have hmem : (⟨i, hi⟩ : Fin maxDirEntries) ∈
      (listing v (image v d) (rootDir v) A).map Listed.slot :=
    List.mem_map.mpr ⟨⟨Entry.fileInfo e, rootDir v, ⟨i, hi⟩⟩,
      (mem_root_iff hw hdots hA).mpr ⟨rfl, e, he, rfl⟩, rfl⟩
  rw [← List.count_eq_one_of_mem listing_nodup hmem, times, List.countP_map, List.count,
    List.countP_map]
  refine List.countP_congr fun f hf => ?_
  have hdir := ((mem_root_iff hw hdots hA).mp hf).1
  simp [shows, hdir, Fin.ext_iff]

include hw hdots hA in
theorem faultless_of_shut (hshut : Shut v d) : Faultless v d (cmdTree (start v d list)) := by
  obtain ⟨hroot, hseen, hlocked, hempty⟩ := hshut
  obtain ⟨list', heq⟩ := cmdTree_locked hw hdots hA list hroot fun he hdir =>
    (fatChdir_none_iff hw hroot _).mpr (hlocked he hdir)
  -- there is nothing below the root
  have hbelow : ∀ n {h i e}, Beneath v (image v d) (rootDir v) (n + 1) h →
      ¬ HasEntry v (image v d) h i e := by
    intro n
    induction n with
    | zero =>
      intro h i e hb
      cases hb with
      | child hh hc =>
        cases hh with
        | here => exact hempty ⟨_, hc⟩
    | succ n ih =>
      intro h i e hb
      cases hb with
      | child hh hc =>
        obtain ⟨x, hx, _, _⟩ := hc
        exact absurd hx (ih hh)
  rw [heq]
  refine ⟨rfl, rfl, rfl, ?_⟩
  intro n h i e _ hb he
  rw [hroot] at hb
  cases n with
  | zero =>
    cases hb with
    | here => exact times_listing hw hdots hA he (hseen he)
  | succ n => exact absurd he (hbelow n hb)

variable (hf : Faultless v d (cmdTree (start v d list)))

include hf

include hw hdots hcur hA in
theorem Faultless.root : v.currentCluster = rootDir v := by
  by_contra hne
  obtain ⟨n, hn⟩ := exists_level hcur
  cases n with
  | zero =>
    generalize v.currentCluster = c at hn hne
    cases hn with
    | here => exact hne rfl
  | succ n =>
    obtain ⟨m, hm, hst⟩ : ∃ m ≤ n, Stands v d (printDir (below 4 0) 0 (start v d list)) m :=
      level_drops hw hdots hA 3 0 (stands_start list hn)
    rw [cmdTree_eq] at hf
    have hlevel := hst.level
    rw [hf.cluster] at hlevel
    have := hlevel.unique hw.sound.toChained hw.numbered.geometry hn
    omega

theorem Faultless.seen (hroot : v.currentCluster = rootDir v) {i : Nat}
    (he : HasEntry v (image v d) (rootDir v) i e) : i < maxDirEntries := by
  have honce := hf.once (Nat.zero_le 4) .here (hroot.symm ▸ he)
  obtain ⟨l, _, hl⟩ := List.countP_pos_iff.mp (honce ▸ Nat.zero_lt_one)
  rw [shows, Bool.and_eq_true, beq_iff_eq] at hl
  rw [← hl.2]
  exact l.file.slot.isLt

omit hf in
include hw hdots hA in
/-- An entry that can be entered is followed by a second printing of the root. -/
theorem not_faultless_of_open (hroot : v.currentCluster = rootDir v) {b : List Listed} {f : Listed}
    (hlist : listing v (image v d) (rootDir v) A = a ++ f :: b)
    (hbefore : ∀ g ∈ a, Locked v d g.info) (hopen : ¬ Locked v d f.info) :
    ¬ Faultless v d (cmdTree (start v d list)) := by
  intro hf
  obtain ⟨hdir, hok⟩ := Classical.not_imp.mp hopen
  obtain ⟨x, rest, hx⟩ : ∃ x rest, a ++ f :: b = x :: rest := by
    cases a with
    | nil => exact ⟨f, b, rfl⟩
    | cons x a => exact ⟨x, _, rfl⟩
  have hfirst := hlist.trans hx
  have hmem : x ∈ listing v (image v d) (rootDir v) A := by
    rw [hfirst]
    exact List.mem_cons_self
  obtain ⟨hxdir, e, he, _⟩ := (mem_root_iff hw hdots hA).mp hmem
  -- the shell behind the line of the directory
  generalize hs₁ : (⟨v, d, a ++ f :: b ++ list.drop (a ++ f :: b).length,
    (a ++ [f]).map (⟨rootDir v, 0, ·⟩)⟩ : Shell) = s₁
  have hshown : 0 < times s₁ (rootDir v) x.slot := by
    have hin : x ∈ a ++ [f] := by
      cases a with
      | nil => exact List.mem_singleton.mpr (List.cons.inj hx).1.symm
      | cons y a => exact List.mem_cons.mpr (.inl (List.cons.inj hx).1.symm)
    rw [← hs₁]
    exact List.countP_pos_iff.mpr ⟨_, List.mem_map_of_mem hin, by simp [shows, hxdir]⟩
  have hst₁ : Stands v d s₁ 0 := by
    rw [← hs₁]
    exact ⟨⟨_, _, rfl⟩, rfl, hroot.symm ▸ Beneath.here⟩
  obtain ⟨s₂, ok, m, hs₂, hm, hst₂, _, hlines, _⟩ := chdir_spec hw hst₁ (cString f.info.name)
  have hentered : ok := by
    have hch := fsChdir_eq hst₁.disk (cString f.info.name)
    rw [hs₂, ← hs₁] at hch
    cases hr : (exec (fatChdir v (rootName (cString f.info.name))) d).1 with
    | none => exact absurd hr hok
    | some v' =>
      rw [hr] at hch
      exact (Prod.mk.inj hch).2
  subst hentered
  have hagain := root_again hw hdots hA hfirst 2 1 hm hst₂
  have hcmd : cmdTree (start v d list) = printLoop (below 4 0) (rootDir v) 0 b.length (a.length + 1)
      (below 4 0 (cString f.info.name) s₁) := by
    have hnext : (a ++ f :: b ++ list.drop (a ++ f :: b).length)[a.length]? = some f := by
      rw [List.append_assoc, List.getElem?_append_right (le_refl _), Nat.sub_self]
      rfl
    rw [cmdTree_eq, printDir_locked hw hA list hroot hlist hbefore, List.length_cons, printLoop]
    dsimp only
    rw [hnext]
    dsimp only
    rw [if_pos hdir, ← hs₁, List.map_append]
    rfl
  have hgrow : (printDir (below 3 1) 1 s₂).lines <+: (cmdTree (start v d list)).lines := by
    rw [hcmd]
    refine List.IsPrefix.trans ?_ (grows_loop (grows_below 4 0) _ _ _ _ _)
    rw [below, lines_fsChdir, enterDir, if_pos Nat.one_pos, hs₂, if_pos rfl]
  have htwice : 1 < times (cmdTree (start v d list)) (rootDir v) x.slot := by
    refine lt_of_lt_of_le (lt_of_le_of_lt ?_ hagain) (times_mono hgrow _ _)
    rw [times, hlines]
    exact hshown
  exact absurd (hf.once (Nat.zero_le 4) .here (hroot.symm ▸ he)) (by rw [hroot]; omega)

include hw hdots hcur hA in
theorem Faultless.shut : Shut v d := by
  have hroot := hf.root hw hdots hcur hA
  have hseen := fun {i e} => hf.seen list hroot (i := i) (e := e)
  have hlocked : ∀ {i e}, HasEntry v (image v d) (rootDir v) i e →
      Locked v d (Entry.fileInfo e) := by
    intro i e he
    by_contra hopen
    classical
    have hmem : (⟨Entry.fileInfo e, rootDir v, ⟨i, hseen he⟩⟩ : Listed) ∈
        listing v (image v d) (rootDir v) A :=
      (mem_root_iff hw hdots hA).mpr ⟨rfl, e, he, rfl⟩
    cases hfind : (listing v (image v d) (rootDir v) A).find?
        fun f => decide (¬ Locked v d f.info) with
    | none => exact List.find?_eq_none.mp hfind _ hmem (decide_eq_true hopen)
    | some f =>
      obtain ⟨hf₀, a, b, hlist, hbefore⟩ := List.find?_eq_some_iff_append.mp hfind
      refine not_faultless_of_open hw hdots hA list hroot hlist (fun g hg => ?_)
        (of_decide_eq_true hf₀) hf
      by_contra hg'
      simpa [hg'] using hbefore g hg
  refine ⟨hroot, hseen, fun he hdir => (fatChdir_none_iff hw hroot _).mp (hlocked he hdir),
    fun {c i e} hc he => ?_⟩
  obtain ⟨list', heq⟩ := cmdTree_locked hw hdots hA list hroot hlocked
  obtain ⟨j, hj⟩ := hc
  have honce := hf.once (n := 1) (by decide) (.child .here (hroot.symm ▸ hj)) he
  obtain ⟨l, hl, hshow⟩ := List.countP_pos_iff.mp (honce ▸ Nat.zero_lt_one)
  rw [heq] at hl
  dsimp only at hl
  obtain ⟨f, _, rfl⟩ := List.mem_map.mp hl
  rw [shows, Bool.and_eq_true, Bool.and_eq_true, beq_iff_eq] at hshow
  exact Reslot.root_off hw.sound.toChained hw.numbered.geometry .root (hshow.1.1 ▸ hj)

end Command

/-- **THE TREE COMMAND is read-only and complete** exactly in a root directory that is shut. -/
theorem tree_iff {v : Vol} {d : Disk} (hw : WellFormed v d) (hdots : DotDirs v (image v d))
    (hcur : IsDir v (image v d) v.currentCluster) (list : List Listed) :
    Faultless v d (cmdTree (start v d list)) ↔ Shut v d := by
  obtain ⟨A, hA⟩ := hw.sound.located hw.numbered.geometry (IsDir.root (v := v))
  exact ⟨fun hf => hf.shut hw hdots hcur hA, faultless_of_shut hw hdots hA list⟩

/-! ## A root with files, and one with a directory -/

section Flat

variable {v : Vol} {I : Image} (hf : Flat v I)

include hf

theorem flat_no_child {h i c : Nat} (hh : IsDir v I h) : ¬ ChildAt v I h i c := by
  rintro ⟨e, he, hdir, _⟩
  cases hdir.symm.trans (hf.files (he.slot (hf.isDir hh)) he.named).1

theorem flat_dotDirs (hdot : ∀ {i e}, Area.fixed.slot v I i = some e → Live e → ¬ IsDot e) :
    DotDirs v I where
  root := fun hA he => hdot ((hf.isDir .root).unique hA ▸ he)
  sub := fun hh hc => absurd hc (flat_no_child hf hh)

end Flat

/-- A root that is full of files. -/
theorem fullDisk_shut : Shut freshVol fullDisk where
  root := by decide
  seen := fun he => lt_trans (freshVol_slot_lt (he.slot (fullDisk_flat.isDir .root))) (by decide)
  locked := fun he hdir =>
    nomatch hdir.symm.trans (fullDisk_flat.files (he.slot (fullDisk_flat.isDir .root)) he.named).1
  empty := fun ⟨_, hc⟩ => absurd hc (flat_no_child fullDisk_flat .root)

theorem fullDisk_dotDirs : DotDirs freshVol (image freshVol fullDisk) :=
  flat_dotDirs fullDisk_flat fun {i e} he _ => by
    have hi := freshVol_slot_lt he
    cases (fullDisk_slot hi).symm.trans he
    exact not_isDot_of_first (by interval_cases i <;> decide)

theorem tree_full_root : Shut freshVol fullDisk ∧
    Faultless freshVol fullDisk (cmdTree (start freshVol fullDisk [])) :=
  ⟨fullDisk_shut, (tree_iff fullDisk_wellFormed fullDisk_dotDirs (freshVol_current fullDisk) []).mpr
    fullDisk_shut⟩

theorem listed_of_dot (hattr : e.attr = 0x10) (h0 : e 0 = 46) :
    skipped e = false ∧ e.isDirectory := by
  rw [skipped, Entry.isVolumeId, Entry.isDirectory, hattr, h0]
  decide

section Made

variable {v : Vol} (hv : Numbered v) {I I' : Image} {D i c : Nat} {A : Area} {name : CString}

include hv

/-- A new directory has dot entries, and the others keep theirs. -/
theorem dotDirs_made (hs : Sound v I) (hdots : DotDirs v I) (hD : IsDir v I D)
    (hA : Locates v I D A) (hc : validDataCluster v c) (hz : I.val c = 0)
    (hch : Change v I D i A (dirEntry v name c) (A.put v (dotted v D c I) (dirEntry v name c) i)) :
    DotDirs v (A.put v (dotted v D c I) (dirEntry v name c) i) := by
  have hg := hv.geometry
  have hr := hch.reslot
  refine ⟨fun {B j e} hB he hlive => ?_, fun {h j g B k e} hh hgc hB hk he => ?_⟩
  · -- the slots of the root are those it had, and the new one
    obtain ⟨B', hB'⟩ := hs.located hg (IsDir.root (v := v))
    obtain ⟨hB₁, hslots⟩ := hr.kept hs.toChained hg .root (Reslot.root_off hs.toChained hg hD) hB'
    obtain rfl := hB₁.unique hB
    rw [hslots] at he
    split at he
    · exact Option.some.inj he ▸ hch.fits.undotted
    · exact hdots.root hB' he hlive
  obtain ⟨x, hx, hdir, rfl⟩ := hgc
  rcases hr.entry_cases hs.toChained hg hch.placed hh hx with
    ⟨hh', _, hne, hx'⟩ | ⟨rfl, rfl, rfl, _⟩
  · -- a directory that was there
    have hchild : ChildAt v I h j (entryCluster v x) := ⟨x, hx', hdir, rfl⟩
    have hoff : ¬ ChildAt v I D i (entryCluster v x) := fun hc' => by
      have howner := hs.dirOwner_unique hg (o := some (h, j)) (q := some (D, i))
        ⟨hh', hchild⟩ ⟨hD, hc'⟩
      exact hne (Option.some.inj howner)
    obtain ⟨B', hB'⟩ := hs.located hg (hh'.child hchild)
    obtain ⟨hB₁, hslots⟩ := hr.kept hs.toChained hg (hh'.child hchild) hoff hB'
    obtain rfl := hB₁.unique hB
    rw [hslots] at he
    split at he
    · -- the new entry is behind the dot entries of its directory
      rename_i hslot
      obtain ⟨e₀, hold, hdot⟩ := hr.old
      obtain ⟨y₀, y₁, h0, hn0, h1, hn1, _⟩ := hs.dots hh' hchild hB'
      obtain rfl := hB'.unique (hslot.1 ▸ hr.loc)
      rw [← hslot.2] at hold
      obtain rfl | rfl : k = 0 ∨ k = 1 := by omega
      · exact absurd (.inl (Option.mem_unique hold h0 ▸ hn0)) hdot
      · exact absurd (.inr (Option.mem_unique hold h1 ▸ hn1)) hdot
    · exact hdots.sub hh' hchild hB' hk he
  · -- the new directory
    obtain ⟨hchain, hslots⟩ := made_area hv hA hc hz (dirEntry v name c) j
    obtain ⟨h0, h1, _⟩ := slot_dotted (I := I) (D := h) (c := c) (two_le_perCluster hv)
    rw [(dirEntry_fields hv name hc).2.1] at hB
    obtain rfl := hB.unique (locates_alone hchain)
    rw [hslots] at he
    obtain rfl | rfl : k = 0 ∨ k = 1 := by omega
    · exact Option.mem_unique h0 he ▸ listed_of_dot rfl rfl
    · exact Option.mem_unique h1 he ▸ listed_of_dot rfl rfl

end Made

/-- The directory `AB` in the root. -/
def dirDisk : Disk := (exec (fatMkdir freshVol plainName) freshDisk).2

theorem dirDisk_run : exec (fatMkdir freshVol plainName) freshDisk = (true, dirDisk) :=
  Prod.ext (by decide +kernel) rfl

theorem dirDisk_wellFormed : WellFormed freshVol dirDisk :=
  (FatWellFormed.Inv.mkdir ⟨freshDisk_wellFormed, freshVol_flat.short_freshVol,
    freshVol_current freshDisk⟩ (by rw [Visible]; decide) dirDisk_run).wellFormed

/-- What is on the disk. -/
theorem dirDisk_made : ∃ i c, validDataCluster freshVol c ∧
    HasEntry freshVol (image freshVol dirDisk) (rootDir freshVol) i
      (dirEntry freshVol plainName c) ∧ DotDirs freshVol (image freshVol dirDisk) := by
  have hcur := freshVol_current freshDisk
  have hs := freshVol_flat.sound
  have hloc := freshVol_flat.isDir hcur
  obtain ⟨r, d', hrun, hout, _⟩ := exec_fatMkdir freshVol_numbered hs.toChained hcur hloc plainName
  cases dirDisk_run.symm.trans hrun
  generalize image freshVol dirDisk = I' at hout
  cases hout with
  | @made A₁ i c I₁ hl hslot hfree =>
    -- the root of this volume does not grow
    obtain rfl : I₁ = image freshVol freshDisk := hslot.grow.resolve_right
      fun ⟨l, k, hg⟩ => nomatch hg.loc.unique hloc
    obtain ⟨hc, hz, _⟩ := firstFree_some freshVol_numbered hfree
    have hch := change_made freshVol_numbered hs hcur hloc hl hslot hfree
    have hnamed : Named (dirEntry freshVol plainName c) :=
      ⟨Visible.live (by rw [Visible]; decide) (dirEntry_fields freshVol_numbered plainName hc).1
        (.inr rfl), hch.fits.undotted⟩
    have hroot : freshVol.currentCluster = rootDir freshVol := by decide
    refine ⟨i, c, hc, ?_, ?_⟩
    · rw [← hroot]
      exact hch.reslot.entry_self hs.toChained freshVol_numbered.geometry hnamed
    · have hdots := flat_dotDirs freshVol_flat fun he hlive => absurd hlive (freshDisk_dead he)
      exact dotDirs_made freshVol_numbered hs hdots hcur hslot.loc hc hz hch

/-- **One directory in the root is enough**: its line is printed three times. -/
theorem tree_repeats : WellFormed freshVol dirDisk ∧ DotDirs freshVol (image freshVol dirDisk) ∧
    IsDir freshVol (image freshVol dirDisk) freshVol.currentCluster ∧
    times (cmdTree (start freshVol dirDisk [])) 0 0 = 3 ∧
    ¬ Faultless freshVol dirDisk (cmdTree (start freshVol dirDisk [])) := by
  have hw := dirDisk_wellFormed
  have hcur : IsDir freshVol (image freshVol dirDisk) freshVol.currentCluster :=
    freshVol_current dirDisk
  obtain ⟨i, c, hc, he, hdots⟩ := dirDisk_made
  obtain ⟨A, hA⟩ := hw.sound.located hw.numbered.geometry (IsDir.root (v := freshVol))
  refine ⟨hw, hdots, hcur, by decide +kernel, fun hf => ?_⟩
  have hshut := hf.shut hw hdots hcur hA
  obtain ⟨hsfn, _, hdir⟩ := dirEntry_fields freshVol_numbered plainName hc
  have hname : (Entry.fileInfo (dirEntry freshVol plainName c)).name = plainName.chars := by
    rw [Entry.fileInfo, hsfn, hdir]
    rfl
  have hfail := (fatChdir_none_iff hw hshut.root _).mpr (hshut.locked he hdir)
  rw [hname, cString_chars] at hfail
  have hopen : (exec (fatChdir freshVol (rootName plainName)) dirDisk).1.isSome := by
    decide +kernel
  rw [hfail] at hopen
  cases hopen

end TreeRuns
