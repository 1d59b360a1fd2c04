import AoOs.KernelVisible
import AoOs.LoadWindow
import AoOs.UserPages

/-! # The memory image of an ELF program

    What a process that `elf_spawn` has made ready sees of its memory is a function
    of the file, the command line and whether the processor can forbid execution
    (`elfContents`); which frames it got, and what they held, has no part in it
    (`elfSpawn_filled`).

    So the bytes can be compared with the file (`elfSpawn_image`), and the rights of
    the pages with the flags of the segments: a page that two segments share has the
    rights of the first (`permissionsHonoured_iff`). -/

namespace LoadedImage

open Paging Vmm Process ProcessMemory AddressSpace Isolation Loader FramePlan KernelVisible
open UserPages UserPointer LoadWindow
open ElfReads (plainFile)

variable {hs : List Phdr} {x : Nat}
variable {k : KState} {a : Nat} {p : UProc} {M : Contents} {f : Image} {nx : Bool} {ph : Phdr}

/-! ## What the file describes -/

/-- The program headers of the segments to load, in order. -/
def loads (f : Image) : List Phdr :=
  ((List.range (phnum f).toNat).map (phdr f)).filter fun ph => ph.type = ptLoad

/-- An address of a segment. -/
def InSegment (ph : Phdr) (x : Nat) : Prop :=
  ph.vaddr.toNat ≤ x ∧ x < ph.vaddr.toNat + ph.memsz.toNat

instance (ph : Phdr) (x : Nat) : Decidable (InSegment ph x) := inferInstanceAs (Decidable (_ ∧ _))

/-- The bytes of a segment: those of the file, and zeroes behind them. -/
def segmentByte (f : Image) (ph : Phdr) (j : Nat) : Byte :=
  if j < ph.filesz.toNat then f.byte (ph.offset + BitVec.ofNat 64 j) else 0#8

/-- The contents after a segment has been mapped, copied and padded. -/
def addSegment (f : Image) (nx : Bool) (M : Contents) (ph : Phdr) : Contents :=
  ((M.mapPages (rangeFlags nx ph.flags) (segmentPages ph)).write ph.vaddr.toNat ph.filesz.toNat
    fun j => f.byte (ph.offset + BitVec.ofNat 64 j)).write (ph.vaddr + ph.filesz).toNat
      (ph.memsz - ph.filesz).toNat fun _ => 0#8

/-- The contents of a process that runs the file. -/
def elfContents (f : Image) (nx : Bool) (cmdline : List Byte) : Contents :=
  (((loads f).foldl (addSegment f nx) (Contents.empty.mapPages (dataFlags nx) fixedPages)).write
    userApiBase.toNat 64 (apiBytes [0x414F4150#64])).write userArgvBase.toNat pageSize
      (argBytes (argsLoop (cmdline.length + 1) cmdline ⟨0, [], []⟩))

/-! ## The loader fills the process with it -/

theorem pageNum_pageOf (v : Word) : pageNum (pageOf v) = pageNum v := by
  rw [pageNum, pageNum, toNat_pageOf]
  omega

/-- The addresses of a segment are mapped once its pages are. -/
theorem segment_flags (hok : segmentOk f ph) (fl : Word) {j : Nat} (hj : j < ph.memsz.toNat) :
    (M.mapPages fl (segmentPages ph)).flags (pageNum (ph.vaddr + BitVec.ofNat 64 j)) ≠ none := by
  have hmem : pageNum (ph.vaddr + BitVec.ofNat 64 j) ∈ (segmentPages ph).map pageNum :=
    List.mem_map.mpr ⟨_, segment_covers hok hj, pageNum_pageOf _⟩
  rw [mapPages_flags]
  split
  · exact nofun
  · rename_i hne
    exact fun hnone => hne ⟨hnone, hmem⟩

theorem filled_loadSegment {r : Loaded} (h : Filled k a p M) (hok : segmentOk f ph)
    (hl : loadSegment f nx ph p k = some r) (herr : r.error = none) :
    Filled r.k a r.proc (addSegment f nx M ph) := by
  rw [Loader.loadSegment, mapRange] at hl
  obtain ⟨⟨ok, p₁, k₁⟩, hmap, hres⟩ := Option.map_eq_some_iff.mp hl
  cases ok with
  | false =>
    subst hres
    cases herr
  | true =>
    have h₁ := h.mapAll (fun v hv => rangePages_lt hv) hmap
    have hcr3 := h₁.cr3_ne_zero
    obtain ⟨hfile, -, hvalid⟩ := segmentOk_valid hok
    have hbound : ph.memsz ≠ 0#64 → ph.vaddr.toNat + ph.memsz.toNat ≤ 0x800000 :=
      validUserRange_bounds hvalid
    have hmem : ∀ {w : Word}, w.toNat ≤ ph.memsz.toNat → w ≠ 0#64 → ph.memsz ≠ 0#64 := by
      intro w hw hne h0
      rw [h0] at hw
      exact hne (BitVec.eq_of_toNat_eq (Nat.le_zero.mp hw))
    have hrest : (ph.memsz - ph.filesz).toNat = ph.memsz.toNat - ph.filesz.toNat := by
      rw [BitVec.toNat_sub]
      omega
    -- the bytes from the file, then the zeroes behind them
    obtain ⟨k₂, hw₂, h₂⟩ := h₁.writeLoop (fun j => f.byte (ph.offset + BitVec.ofNat 64 j))
      ph.vaddr ph.filesz (fun hne => by have := hbound (hmem hfile hne); omega)
      fun j hj => segment_flags hok _ (by omega)
    obtain ⟨k₃, hw₃, h₃⟩ := h₂.writeLoop (fun _ => 0#8) (ph.vaddr + ph.filesz)
      (ph.memsz - ph.filesz) (fun hne => by
        have := hbound (hmem (by omega) hne)
        rw [BitVec.toNat_add]
        omega)
      fun j hj => by
        have hflags := segment_flags (M := M) hok (rangeFlags nx ph.flags)
          (j := ph.filesz.toNat + j) (by omega)
        rwa [BitVec.ofNat_add, ← BitVec.add_assoc, BitVec.ofNat_toNat, BitVec.setWidth_eq]
          at hflags
    simp only [Bool.not_true, Bool.false_eq_true, if_false, processWriteUser, processZeroUser,
      if_neg hcr3, hw₂, hw₃] at hres
    subst hres
    exact h₃

/-- **The loop over the program headers.** -/
theorem filled_loadLoop {is : List Nat} {r : Loaded} (h : Filled k a p M)
    (hl : loadLoop f nx is p k = some r) (herr : r.error = none) :
    (∀ ph ∈ (is.map (phdr f)).filter fun ph => ph.type = ptLoad, segmentOk f ph) ∧
      Filled r.k a r.proc
        (((is.map (phdr f)).filter fun ph => ph.type = ptLoad).foldl (addSegment f nx) M) := by
  induction is generalizing k p M r with
  | nil =>
    cases hl
    exact ⟨nofun, h⟩
  | cons i is ih =>
    rw [Loader.loadLoop] at hl
    rw [List.map_cons, List.filter_cons]
    split at hl
    · -- another header: nothing to load
      rename_i htype
      obtain ⟨r', hr', rfl⟩ := Option.map_eq_some_iff.mp hl
      rw [if_neg (by simpa using htype)]
      exact ih (r := r') h hr' herr
    · rename_i htype
      rw [if_pos (by simpa using htype)]
      split at hl
      · cases hl
        cases herr
      · rename_i hbad
        have hok : segmentOk f (phdr f i) := by simpa using hbad
        obtain ⟨r₁, hr₁, hrest⟩ := Option.bind_eq_some_iff.mp hl
        split at hrest
        · rename_i hsome
          cases hrest
          rw [show r₁.error = none from herr] at hsome
          cases hsome
        · rename_i hnone
          obtain ⟨r', hr', rfl⟩ := Option.map_eq_some_iff.mp hrest
          obtain ⟨hoks, hfilled⟩ := ih (r := r')
            (filled_loadSegment h hok hr₁ (by simpa using hnone)) hr' herr
          rw [List.foldl_cons]
          exact ⟨List.forall_mem_cons.mpr ⟨hok, hoks⟩, hfilled⟩

/-- A new space has no contents. -/
theorem holds_empty {m : Mem} {r : Word} (hroot : m r = kernelEntry []) :
    Holds m ⟨r, []⟩ Contents.empty := by
  have htab := tableAt_kernelRoot hroot
  have hclosed : ∀ v, presentUser (entryAt m ⟨r, []⟩ v) = false := fun v =>
    view_absent ((htab (pathOf v)).trans (if_neg (by simp [pathOf]))) _
  refine ⟨fun v _ => hclosed v, fun v f hf => (by cases hf), fun v _ hv => ?_, fun _ _ => rfl, ?_⟩
  · cases (hclosed v).symm.trans hv
  · intro q t i _ ht hchild
    rw [show tableAt m r q = _ from htab q] at ht
    split at ht
    · rw [← Option.some.inj ht, hroot, child_kernelEntry] at hchild
      exact absurd rfl hchild
    · cases ht

variable {s s' : PSys} {i : Nat}

/-- **`process_create`**: the fixed pages, and nothing in them. -/
theorem filled_processCreate (h : Inv s) (hc : processCreate s = some (some i, s')) : s'.nx = s.nx ∧
      Filled s'.k i (s'.procs i) (Contents.empty.mapPages (dataFlags s.nx) fixedPages) := by
  rw [processCreate] at hc
  split at hc
  · cases hc
  rename_i j hslot
  obtain ⟨hj, hst⟩ := findUnused_spec hslot
  have hnone : spaces s.procs j = none := by
    rw [spaces, if_pos (by simp only [maxProcesses] at hj ⊢; omega), space, if_pos hst]
  rcases Good.create h hnone with ⟨-, hcr⟩ | ⟨r, k₁, -, hal, hcr, hgood⟩
  · rw [hcr] at hc
    cases hc
  · rw [hcr] at hc
    simp only [if_neg hal.frame.ne_zero] at hc
    obtain ⟨⟨ok, p, k₂⟩, hm, hres⟩ := Option.map_eq_some_iff.mp hc
    have hfilled : Filled _ j ⟨s.nextPid, (s.procs j).state, true, r, false, []⟩ Contents.empty :=
      ⟨_, hgood, Function.update_self .., holds_empty (Mem.setPage_same ..)⟩
    cases ok with
    | false => cases hres
    | true =>
      obtain ⟨hi, rfl⟩ := Prod.mk.inj hres
      obtain rfl : j = i := Option.some.inj hi
      refine ⟨rfl, ?_⟩
      have hall := hfilled.mapAll fixedPages_lt hm
      show Filled k₂ j (upd s.procs j { p with state := .loading } j) _
      rw [upd_same]
      exact hall

theorem fixed_flags {fl : Word} {v : Word} (hv : v ∈ fixedPages) :
    (M.mapPages fl fixedPages).flags (pageNum v) ≠ none := by
  rw [mapPages_flags]
  split
  · exact nofun
  · rename_i hne
    exact fun hnone => hne ⟨hnone, List.mem_map_of_mem hv⟩

theorem addSegment_flags (f : Image) (nx : Bool) (M : Contents) (ph : Phdr) (n : Nat) :
    (addSegment f nx M ph).flags n =
      if M.flags n = none ∧ n ∈ (segmentPages ph).map pageNum then
        some (rangeFlags nx ph.flags ||| pteUser)
      else M.flags n :=
  mapPages_flags M _ _ n

/-- Loading takes no page away. -/
theorem foldl_flags_ne_none {n : Nat} (h : M.flags n ≠ none) :
    (hs.foldl (addSegment f nx) M).flags n ≠ none := by
  induction hs generalizing M with
  | nil => exact h
  | cons ph hs ih =>
    refine ih ?_
    rw [addSegment_flags, if_neg fun hc => h hc.1]
    exact h

/-- The end of a load writes the API page and the argument page. -/
theorem filled_finishSpawn (api : List Word) (cmdline : List Byte) (background : Bool)
    (h : Filled k i p M) (hfixed : ∀ v ∈ fixedPages, M.flags (pageNum v) ≠ none) :
    ((finishSpawn api cmdline background i p k s).procs i).cr3 = p.cr3 ∧
      Filled (finishSpawn api cmdline background i p k s).k i p
        ((M.write userApiBase.toNat 64 (apiBytes api)).write userArgvBase.toNat pageSize
          (argBytes (argsLoop (cmdline.length + 1) cmdline ⟨0, [], []⟩))) := by
  have hpage : ∀ {u : Word} {j : Nat}, u.toNat % 4096 = 0 → j < 4096 →
      pageNum (u + BitVec.ofNat 64 j) = pageNum u := by
    intro u j hu hj
    rw [pageNum, pageNum, BitVec.toNat_add, BitVec.toNat_ofNat]
    omega
  obtain ⟨k₁, hw₁, h₁⟩ := h.writeLoop (apiBytes api) userApiBase 64#64
    (fun _ => by decide) fun j hj => by
      rw [hpage (by decide) (Nat.lt_trans hj (by decide))]
      exact hfixed _ (by decide)
  obtain ⟨k₂, hw₂, h₂⟩ := h₁.writeLoop
    (argBytes (argsLoop (cmdline.length + 1) cmdline ⟨0, [], []⟩)) userArgvBase
    (BitVec.ofNat 64 pageSize) (fun _ => by decide) fun j hj => by
      rw [hpage (by decide) hj]
      exact hfixed _ (by decide)
  obtain ⟨hk, hroot⟩ := finishSpawn_end (i := i) background s h.cr3_ne_zero hw₁ hw₂
  rw [hk]
  exact ⟨hroot, h₂⟩

/-- **A process that `elf_spawn` has made ready has the contents of its file.** -/
theorem elfSpawn_filled {cmdline : List Byte} {background : Bool} {reads : List Access} (h : Inv s)
    (hspawn : elfSpawn f cmdline background s = some (.ok i, reads, s')) :
    (∀ ph ∈ loads f, segmentOk f ph) ∧
      ∃ p, (s'.procs i).cr3 = p.cr3 ∧ Filled s'.k i p (elfContents f s.nx cmdline) := by
  rw [elfSpawn] at hspawn
  split at hspawn
  · cases hspawn
  obtain ⟨⟨r, s₁⟩, hcreate, hspawn⟩ := Option.bind_eq_some_iff.mp hspawn
  cases r with
  | none => cases hspawn
  | some j =>
    obtain ⟨hnx, hfilled⟩ := filled_processCreate h hcreate
    obtain ⟨l, hl, hres⟩ := Option.map_eq_some_iff.mp hspawn
    cases herr : l.error with
    | some e =>
      rw [herr] at hres
      cases hres
    | none =>
      rw [herr] at hres
      obtain ⟨hj, hrest⟩ := Prod.mk.inj hres
      obtain ⟨-, rfl⟩ := Prod.mk.inj hrest
      obtain rfl : j = i := Except.ok.inj hj
      rw [hnx] at hl
      obtain ⟨hoks, hloaded⟩ := filled_loadLoop hfilled hl herr
      obtain ⟨hcr3, hend⟩ := filled_finishSpawn (s := s₁) [0x414F4150#64] cmdline background
        hloaded fun v hv => foldl_flags_ne_none (fixed_flags hv)
      exact ⟨hoks, l.proc, hcr3, hend⟩

/-! ## The bytes -/

/-- Where the addresses of an accepted segment are: below the stack, and neither on the
    API page nor on the argument page. -/
theorem inSegment_window (hok : segmentOk f ph) (hx : InSegment ph x) :
    x < 0x800000 ∧ ¬ (0x90000 ≤ x ∧ x < 0x92000) := by
  obtain ⟨hlo, hhi⟩ := hx
  obtain ⟨h0, hbound⟩ := segment_nonempty hok (j := x - ph.vaddr.toNat) (by omega)
  obtain ⟨-, hapi, hargv⟩ := validUserRange_window (segmentOk_valid hok).2.2 h0
  omega

theorem addSegment_byte (hok : segmentOk f ph) (nx : Bool) (M : Contents) (x : Nat) :
    (addSegment f nx M ph).byte x =
      if InSegment ph x then segmentByte f ph (x - ph.vaddr.toNat) else M.byte x := by
  obtain ⟨hfile, -, hvalid⟩ := segmentOk_valid hok
  have hrest : (ph.memsz - ph.filesz).toNat = ph.memsz.toNat - ph.filesz.toNat := by
    rw [BitVec.toNat_sub]
    omega
  rw [addSegment, Contents.write, Contents.write, mapPages_byte, hrest, segmentByte]
  dsimp only
  by_cases h0 : ph.memsz = 0#64
  · -- an empty segment has no bytes
    have hm : ph.memsz.toNat = 0 := by rw [h0]; rfl
    rw [if_neg (by omega), if_neg (by omega), if_neg (by rw [InSegment]; omega)]
  · have hbound := validUserRange_bounds hvalid h0
    have hsum : (ph.vaddr + ph.filesz).toNat = ph.vaddr.toNat + ph.filesz.toNat := by
      rw [BitVec.toNat_add]
      omega
    rw [hsum]
    by_cases hx : InSegment ph x
    · rw [if_pos hx]
      obtain ⟨hlo, hhi⟩ := hx
      by_cases hf : x < ph.vaddr.toNat + ph.filesz.toNat
      · rw [if_neg (by omega), if_pos ⟨hlo, hf⟩, if_pos (by omega)]
      · rw [if_pos (by omega), if_neg (by omega)]
    · rw [if_neg hx]
      rw [InSegment] at hx
      rw [if_neg (by omega), if_neg (by omega)]

/-- No address is in both segments. -/
def Apart (ph ph' : Phdr) : Prop := ∀ x, InSegment ph x → ¬ InSegment ph' x

/-- Outside the segments nothing is written. -/
theorem foldl_byte_outside (hok : ∀ ph ∈ hs, segmentOk f ph) (hx : ∀ ph ∈ hs, ¬ InSegment ph x) :
    (hs.foldl (addSegment f nx) M).byte x = M.byte x := by
  induction hs generalizing M with
  | nil => rfl
  | cons ph hs ih =>
    rw [List.foldl_cons, ih (fun g hg => hok g (List.mem_cons_of_mem _ hg))
      (fun g hg => hx g (List.mem_cons_of_mem _ hg)),
      addSegment_byte (hok ph List.mem_cons_self), if_neg (hx ph List.mem_cons_self)]

/-- Inside a segment are its bytes, when no other segment is there. -/
theorem foldl_byte_inside (hok : ∀ ph ∈ hs, segmentOk f ph) (hapart : hs.Pairwise Apart)
    (hph : ph ∈ hs) (hx : InSegment ph x) :
    (hs.foldl (addSegment f nx) M).byte x = segmentByte f ph (x - ph.vaddr.toNat) := by
  induction hs generalizing M with
  | nil => cases hph
  | cons g hs ih =>
    have hoks : ∀ ph ∈ hs, segmentOk f ph := fun g hg => hok g (List.mem_cons_of_mem _ hg)
    obtain ⟨hfirst, hrest⟩ := List.pairwise_cons.mp hapart
    rw [List.foldl_cons]
    rcases List.mem_cons.mp hph with rfl | hmem
    · -- what comes later is elsewhere
      rw [foldl_byte_outside hoks fun g hg => hfirst g hg x hx,
        addSegment_byte (hok ph List.mem_cons_self), if_pos hx]
    · exact ih hoks hrest hmem

/-- The bytes of the contents off the API page and the argument page. -/
theorem elfContents_byte (cmdline : List Byte) (hx : ¬ (0x90000 ≤ x ∧ x < 0x92000)) :
    (elfContents f nx cmdline).byte x = ((loads f).foldl (addSegment f nx)
      (Contents.empty.mapPages (dataFlags nx) fixedPages)).byte x := by
  have hapi : userApiBase.toNat = 0x90000 := rfl
  have hargv : userArgvBase.toNat = 0x91000 := rfl
  have hsize : pageSize = 4096 := rfl
  rw [elfContents, Contents.write, Contents.write, hapi, hargv, hsize]
  dsimp only
  rw [if_neg (by omega), if_neg (by omega)]

/-- A file whose two segments share a page: code that is not writable, and data behind it. -/
def sharedFile : Image :=
  ElfReads.imageOf ((ElfReads.elfHeader 0x400000 64).set 56 2#8 ++
    ElfReads.loadHeader 5 0 0x400000 64 64 ++ ElfReads.loadHeader 6 64 0x400800 64 128)

theorem loads_sharedFile : loads sharedFile = [phdr sharedFile 0, phdr sharedFile 1] := by
  have hnum : (phnum sharedFile).toNat = 2 := by decide +kernel
  have h0 : (phdr sharedFile 0).type = ptLoad := by decide +kernel
  have h1 : (phdr sharedFile 1).type = ptLoad := by decide +kernel
  rw [loads, hnum]
  simp [List.range_succ, h0, h1]

/-- Its segments as numbers: start, size, and where they are in the file. -/
theorem sharedFile_segments :
    ((phdr sharedFile 0).vaddr.toNat = 0x400000 ∧ (phdr sharedFile 0).memsz.toNat = 64 ∧
      (phdr sharedFile 0).offset.toNat = 0 ∧ (phdr sharedFile 0).filesz.toNat = 64) ∧
    (phdr sharedFile 1).vaddr.toNat = 0x400800 ∧ (phdr sharedFile 1).memsz.toNat = 128 ∧
      (phdr sharedFile 1).offset.toNat = 64 ∧ (phdr sharedFile 1).filesz.toNat = 64 := by
  decide +kernel

theorem elfSpawn_sharedFile :
    ∃ reads s', elfSpawn sharedFile [] false bootSys = some (.ok 1, reads, s') := by
  obtain ⟨reads, s', hr, -⟩ := ElfReads.spawned_of_eval (s := bootSys) (i := 1) (b := ()) sharedFile
    (fun _ => ()) (by decide +kernel)
  exact ⟨reads, s', hr⟩

/-- **The image the file describes.**  Each byte of a segment is the byte of the file, or
    zero behind the part that is in the file; every other byte that ring 3 can read off the
    API page and the argument page is zero. -/
theorem elfSpawn_image {cmdline : List Byte} {background : Bool} {reads : List Access} (h : Inv s)
    (hspawn : elfSpawn f cmdline background s = some (.ok i, reads, s'))
    (hwrap : ∀ ph ∈ loads f, ph.offset.toNat + ph.filesz.toNat < 2 ^ 64)
    (hapart : (loads f).Pairwise Apart) : (∀ ph ∈ loads f, ∀ j < ph.memsz.toNat,
      Ring3Access s'.k.mem (s'.procs i).cr3 (ph.vaddr + BitVec.ofNat 64 j) ∧
      (j < ph.filesz.toNat → ph.offset.toNat + j < f.size.toNat ∧
        loadByte s'.k.mem (s'.procs i).cr3 (ph.vaddr + BitVec.ofNat 64 j) =
          f.byte (BitVec.ofNat 64 (ph.offset.toNat + j))) ∧
      (ph.filesz.toNat ≤ j →
        loadByte s'.k.mem (s'.procs i).cr3 (ph.vaddr + BitVec.ofNat 64 j) = 0#8)) ∧
    ∀ v, Ring3Access s'.k.mem (s'.procs i).cr3 v → pageOf v ≠ userApiBase →
      pageOf v ≠ userArgvBase → (∀ ph ∈ loads f, ¬ InSegment ph v.toNat) →
      loadByte s'.k.mem (s'.procs i).cr3 v = 0#8 := by
  obtain ⟨hok, p, hcr3, hfilled⟩ := elfSpawn_filled h hspawn
  rw [hcr3]
  constructor
  · intro ph hph j hj
    have hvalid := segmentOk_valid (hok ph hph)
    have hbound := (segment_nonempty (hok ph hph) hj).2
    have haddr : (ph.vaddr + BitVec.ofNat 64 j).toNat = ph.vaddr.toNat + j := by
      rw [BitVec.toNat_add, BitVec.toNat_ofNat]
      omega
    have hin : InSegment ph (ph.vaddr.toNat + j) := ⟨by omega, by omega⟩
    have hflags : (elfContents f s.nx cmdline).flags (pageNum (ph.vaddr + BitVec.ofNat 64 j)) ≠
        none := by
      obtain ⟨pre, post, hsplit⟩ := List.append_of_mem hph
      show ((loads f).foldl (addSegment f s.nx) _).flags _ ≠ none
      rw [hsplit, List.foldl_append, List.foldl_cons]
      exact foldl_flags_ne_none (segment_flags (hok ph hph) _ hj)
    have hbyte : loadByte s'.k.mem p.cr3 (ph.vaddr + BitVec.ofNat 64 j) = segmentByte f ph j := by
      rw [hfilled.loadByte hflags, haddr, Nat.mod_eq_of_lt (by omega),
        elfContents_byte cmdline (inSegment_window (hok ph hph) hin).2,
        foldl_byte_inside hok hapart hph hin, Nat.add_sub_cancel_left]
    refine ⟨hfilled.access_iff.mpr ⟨.inl (by omega), hflags⟩, fun hjf => ?_, fun hjf => ?_⟩
    · have hnowrap := hwrap ph hph
      have hend : (ph.offset + ph.filesz).toNat = ph.offset.toNat + ph.filesz.toNat := by
        rw [BitVec.toNat_add]
        omega
      refine ⟨by omega, ?_⟩
      rw [hbyte, segmentByte, if_pos hjf, BitVec.ofNat_add, BitVec.ofNat_toNat, BitVec.setWidth_eq]
    · rw [hbyte, segmentByte, if_neg (Nat.not_lt.mpr hjf)]
  · intro v hv hapi hargv hout
    obtain ⟨hcan, hflags⟩ := hfilled.access_iff.mp hv
    have hpage := toNat_pageOf v
    -- off the two pages, also when the address is read without bits 48 to 63
    have hoff : ¬ (0x90000 ≤ v.toNat % 2 ^ 48 ∧ v.toNat % 2 ^ 48 < 0x92000) := by
      have hne : (pageOf v).toNat ≠ 0x90000 := fun heq => hapi (BitVec.eq_of_toNat_eq heq)
      have hne' : (pageOf v).toNat ≠ 0x91000 := fun heq => hargv (BitVec.eq_of_toNat_eq heq)
      have hlt := v.isLt
      rw [Canonical] at hcan
      omega
    have hnone : ∀ ph ∈ loads f, ¬ InSegment ph (v.toNat % 2 ^ 48) := by
      intro ph hph hin
      have hlow := (inSegment_window (hok ph hph) hin).1
      have hlt := v.isLt
      rw [Canonical] at hcan
      refine hout ph hph ?_
      rwa [show v.toNat % 2 ^ 48 = v.toNat by omega] at hin
    rw [hfilled.loadByte hflags, elfContents_byte cmdline hoff, foldl_byte_outside hok hnone,
      mapPages_byte]
    rfl

/-- At boot, for two segments on one page. -/
theorem elfSpawn_image_shared :
    ∃ reads s', elfSpawn sharedFile [] false bootSys = some (.ok 1, reads, s') ∧
      (phdr sharedFile 1).vaddr = 0x400800#64 ∧
      loadByte s'.k.mem (s'.procs 1).cr3 ((phdr sharedFile 1).vaddr + BitVec.ofNat 64 3) =
        sharedFile.byte 67#64 := by
  obtain ⟨reads, s', hspawn⟩ := elfSpawn_sharedFile
  obtain ⟨⟨hv0, hm0, ho0, hf0⟩, hv1, hm1, ho1, hf1⟩ := sharedFile_segments
  have himage := elfSpawn_image (Inv.of_init bootSys_init) hspawn
    (by
      rw [loads_sharedFile]
      refine List.forall_mem_cons.mpr ⟨by omega, List.forall_mem_singleton.mpr (by omega)⟩)
    (by
      rw [loads_sharedFile]
      refine List.pairwise_pair.mpr fun x hx hx' => ?_
      rw [InSegment] at hx hx'
      omega)
  have hmem : phdr sharedFile 1 ∈ loads sharedFile := by
    rw [loads_sharedFile]
    exact List.mem_cons_of_mem _ List.mem_cons_self
  have hbyte := ((himage.1 _ hmem 3 (by omega)).2.1 (by omega)).2
  rw [ho1] at hbyte
  exact ⟨reads, s', hspawn, BitVec.eq_of_toNat_eq hv1, hbyte⟩

/-! ## The rights -/

/-- Some byte of the segment is on the page of `v`. -/
def Overlaps (ph : Phdr) (v : Word) : Prop := ∃ x, InSegment ph x ∧ x / 4096 = v.toNat / 4096

/-- `PF_W` and `PF_X` of a segment. -/
def AsksW (ph : Phdr) : Prop := ph.flags &&& pfW ≠ 0#32
def AsksX (ph : Phdr) : Prop := ph.flags &&& pfX ≠ 0#32

/-- Every page has the rights of the segments on it: all of them, and no others.  The
    stack, the API page and the argument page are nobody's segment. -/
structure PermissionsHonoured (f : Image) (nx : Bool) (m : Mem) (cr3 : Word) : Prop where
  writable : ∀ v, ∀ ph ∈ loads f, Overlaps ph v → AsksW ph → Ring3Store m cr3 v
  executable : ∀ v, ∀ ph ∈ loads f, Overlaps ph v → AsksX ph → Ring3Fetch m cr3 v
  only_writable : ∀ v, pageOf v ∉ fixedPages → Ring3Store m cr3 v →
    ∃ ph ∈ loads f, Overlaps ph v ∧ AsksW ph
  only_executable : nx → ∀ v, pageOf v ∉ fixedPages → Ring3Fetch m cr3 v →
    ∃ ph ∈ loads f, Overlaps ph v ∧ AsksX ph

/-- The first segment that `map_range` maps the page of `v` for. -/
def firstMapper (f : Image) (v : Word) : Option Phdr :=
  (loads f).find? fun ph => pageNum v ∈ (segmentPages ph).map pageNum

/-- Whoever maps a page first asks for the rights of all segments on it, and for no
    others. -/
def FirstAsksForAll (f : Image) (nx : Bool) : Prop :=
  ∀ v, Canonical v → pageOf v ∉ fixedPages → ∀ ph, firstMapper f v = some ph →
    (AsksW ph ↔ ∃ ph' ∈ loads f, Overlaps ph' v ∧ AsksW ph') ∧
      (nx → (AsksX ph ↔ ∃ ph' ∈ loads f, Overlaps ph' v ∧ AsksX ph'))

/-- **The first segment that maps a page gives it its flags.** -/
theorem foldl_flags (hs : List Phdr) (M : Contents) (n : Nat) :
    (hs.foldl (addSegment f nx) M).flags n =
      (M.flags n).or ((hs.find? fun ph => n ∈ (segmentPages ph).map pageNum).map fun ph =>
        rangeFlags nx ph.flags ||| pteUser) := by
  induction hs generalizing M with
  | nil => simp
  | cons ph hs ih =>
    rw [List.foldl_cons, ih, addSegment_flags, List.find?_cons]
    cases hfl : M.flags n with
    | some fl => simp
    | none =>
      by_cases hmem : n ∈ (segmentPages ph).map pageNum
      · simp only [hmem, and_self, if_true, decide_true, Option.map_some, Option.or_some]
        rfl
      · simp only [hmem, and_false, if_false, decide_false]

/-- A page that is not fixed has the flags its first mapper asked for. -/
theorem elfContents_flags (f : Image) (nx : Bool) (cmdline : List Byte) {v : Word}
    (hcan : Canonical v) (hv : pageOf v ∉ fixedPages) :
    (elfContents f nx cmdline).flags (pageNum v) =
      (firstMapper f v).map fun ph => rangeFlags nx ph.flags ||| pteUser := by
  have hnone : (Contents.empty.mapPages (dataFlags nx) fixedPages).flags (pageNum v) = none := by
    rw [mapPages_flags, if_neg]
    · rfl
    · rintro ⟨-, hmem⟩
      obtain ⟨u, hu, heq⟩ := List.mem_map.mp hmem
      have hlow : fixedPages.all (fun u => u.toNat % 4096 = 0 && u.toNat < 2 ^ 47) := by
        decide
      obtain ⟨hmod, hlt⟩ := Bool.and_eq_true_iff.mp (List.all_eq_true.mp hlow u hu)
      rw [decide_eq_true_eq] at hmod hlt
      refine hv ?_
      -- canonical addresses with one page number are on one page
      have hpage := toNat_pageOf v
      have hvlt := v.isLt
      rw [pageNum, pageNum] at heq
      rw [Canonical] at hcan
      rwa [show pageOf v = u from BitVec.eq_of_toNat_eq (by omega)]
  show ((loads f).foldl (addSegment f nx) _).flags (pageNum v) = _
  rw [foldl_flags, hnone, Option.none_or, firstMapper]

/-- What the flags of a segment ask for. -/
theorem has_rangeFlags (nx : Bool) (ph : Phdr) :
    (has (rangeFlags nx ph.flags ||| pteUser) pteWritable ↔ AsksW ph) ∧
      (has (rangeFlags nx ph.flags ||| pteUser) pteNx = false ↔ (nx → AsksX ph)) := by
  have hW : ∀ c : Prop, [Decidable c] → has (if c then pteWritable else 0#64) pteWritable = decide c
      ∧ has (if c then pteWritable else 0#64) pteNx = false := by
    intro c _
    by_cases hc : c
    · rw [if_pos hc, decide_eq_true hc]
      decide
    · rw [if_neg hc, decide_eq_false hc]
      decide
  have hN : ∀ c : Prop, [Decidable c] → has (if c then pteNx else 0#64) pteNx = decide c ∧
      has (if c then pteNx else 0#64) pteWritable = false := by
    intro c _
    by_cases hc : c
    · rw [if_pos hc, decide_eq_true hc]
      decide
    · rw [if_neg hc, decide_eq_false hc]
      decide
  rw [rangeFlags, AsksW, AsksX]
  simp only [has_or, (hW _).1, (hW _).2, (hN _).1, (hN _).2, show has pteUser pteWritable = false by
    decide, show has pteUser pteNx = false by decide]
  constructor
  · simp
  · cases nx <;> simp

section Rights

variable {m : Mem} {v : Word} {cmdline : List Byte}

/-- The rights on a page that is not fixed, by its first mapper. -/
theorem rights_of_mapper (h : Filled k a p (elfContents f nx cmdline)) (hcan : Canonical v)
    (hv : pageOf v ∉ fixedPages) (hph : firstMapper f v = some ph) :
    (Ring3Store k.mem p.cr3 v ↔ AsksW ph) ∧ (Ring3Fetch k.mem p.cr3 v ↔ (nx → AsksX ph)) := by
  have hflags := elfContents_flags f nx cmdline hcan hv
  rw [hph, Option.map_some] at hflags
  have hacc : Ring3Access k.mem p.cr3 v := h.access_iff.mpr ⟨hcan, by rw [hflags]; exact nofun⟩
  obtain ⟨hw, hx⟩ := h.walk_iff hflags
  obtain ⟨hw', hx'⟩ := has_rangeFlags nx ph
  exact ⟨(and_iff_right hacc).trans (hw.trans hw'), (and_iff_right hacc).trans (hx.trans hx')⟩

/-- A page with access that is not fixed has a first mapper. -/
theorem mapper_of_access (h : Filled k a p (elfContents f nx cmdline))
    (hacc : Ring3Access k.mem p.cr3 v) (hv : pageOf v ∉ fixedPages) :
    ∃ ph, firstMapper f v = some ph := by
  obtain ⟨hcan, hflags⟩ := h.access_iff.mp hacc
  rw [elfContents_flags f nx cmdline hcan hv] at hflags
  exact Option.ne_none_iff_exists'.mp fun hnone => hflags (by rw [hnone]; rfl)

/-- A page with a segment on it is not fixed, and has a first mapper. -/
theorem mapper_of_overlaps (hok : segmentOk f ph) (hph : ph ∈ loads f) (hover : Overlaps ph v) :
    Canonical v ∧ pageOf v ∉ fixedPages ∧ ∃ ph', firstMapper f v = some ph' := by
  obtain ⟨x, hin, hpage⟩ := hover
  obtain ⟨hlow, hwin⟩ := inSegment_window hok hin
  have hvp := toNat_pageOf v
  refine ⟨.inl (by omega), fun hfixed => ?_, ?_⟩
  · have hall : fixedPages.all (fun u => 0x800000 ≤ u.toNat || u.toNat = 0x90000 ||
        u.toNat = 0x91000) := by decide
    have hu := List.all_eq_true.mp hall _ hfixed
    simp only [Bool.or_eq_true, decide_eq_true_eq] at hu
    omega
  · obtain ⟨hlo, hhi⟩ := hin
    have hcover := segment_covers hok (j := x - ph.vaddr.toNat) (by omega)
    have hmem : pageNum v ∈ (segmentPages ph).map pageNum := by
      refine List.mem_map.mpr ⟨_, hcover, ?_⟩
      rw [pageNum_pageOf, pageNum, pageNum, BitVec.toNat_add, BitVec.toNat_ofNat]
      omega
    have hsome : (firstMapper f v).isSome := by
      rw [firstMapper, List.find?_isSome]
      exact ⟨ph, hph, by simpa using hmem⟩
    exact Option.isSome_iff_exists.mp hsome

end Rights

/-- **THE RIGHTS OF THE SEGMENTS ARE HONOURED EXACTLY WHEN WHOEVER MAPS A PAGE FIRST ASKS
    FOR ALL OF THEM.** -/
theorem permissionsHonoured_iff {cmdline : List Byte} {background : Bool} {reads : List Access}
    (h : Inv s) (hspawn : elfSpawn f cmdline background s = some (.ok i, reads, s')) :
    PermissionsHonoured f s.nx s'.k.mem (s'.procs i).cr3 ↔ FirstAsksForAll f s.nx := by
  obtain ⟨hok, p, hcr3, hfilled⟩ := elfSpawn_filled h hspawn
  rw [hcr3]
  constructor
  · rintro ⟨hw, hx, hw', hx'⟩ v hcan hv ph hph
    obtain ⟨hstore, hfetch⟩ := rights_of_mapper hfilled hcan hv hph
    refine ⟨⟨fun hask => hw' v hv (hstore.mpr hask), ?_⟩, fun hnx => ⟨fun hask => ?_, ?_⟩⟩
    · rintro ⟨ph', hph', hover, hask⟩
      exact hstore.mp (hw v ph' hph' hover hask)
    · exact hx' hnx v hv (hfetch.mpr fun _ => hask)
    · rintro ⟨ph', hph', hover, hask⟩
      exact hfetch.mp (hx v ph' hph' hover hask) hnx
  · intro hfirst
    refine ⟨fun v ph hph hover hask => ?_, fun v ph hph hover hask => ?_, fun v hv hstore => ?_,
      fun hnx v hv hfetch => ?_⟩
    · obtain ⟨hcan, hv, ph', hph'⟩ := mapper_of_overlaps (hok ph hph) hph hover
      exact (rights_of_mapper hfilled hcan hv hph').1.mpr
        ((hfirst v hcan hv ph' hph').1.mpr ⟨ph, hph, hover, hask⟩)
    · obtain ⟨hcan, hv, ph', hph'⟩ := mapper_of_overlaps (hok ph hph) hph hover
      exact (rights_of_mapper hfilled hcan hv hph').2.mpr fun hnx =>
        ((hfirst v hcan hv ph' hph').2 hnx).mpr ⟨ph, hph, hover, hask⟩
    · obtain ⟨ph, hph⟩ := mapper_of_access hfilled hstore.1 hv
      have hcan := hstore.1.1
      exact (hfirst v hcan hv ph hph).1.mp ((rights_of_mapper hfilled hcan hv hph).1.mp hstore)
    · obtain ⟨ph, hph⟩ := mapper_of_access hfilled hfetch.1 hv
      have hcan := hfetch.1.1
      exact ((hfirst v hcan hv ph hph).2 hnx).mp
        ((rights_of_mapper hfilled hcan hv hph).2.mp hfetch hnx)

/-- The rights of a file with one segment are honoured. -/
theorem permissionsHonoured_plain :
    ∃ reads s', elfSpawn plainFile [] false bootSys = some (.ok 1, reads, s') ∧
      PermissionsHonoured plainFile true s'.k.mem (s'.procs 1).cr3 := by
  obtain ⟨reads, s', hspawn⟩ := ElfReads.elfSpawn_plainFile
  refine ⟨reads, s', hspawn, (permissionsHonoured_iff (Inv.of_init bootSys_init) hspawn).mpr ?_⟩
  have hloads : loads plainFile = [phdr plainFile 0] := by
    have hnum : (phnum plainFile).toNat = 1 := by decide +kernel
    have h0 : (phdr plainFile 0).type = ptLoad := by decide +kernel
    rw [loads, hnum]
    simp [List.range_succ, h0]
  have hflags : (phdr plainFile 0).flags = 5#32 := by decide +kernel
  have hpages : (segmentPages (phdr plainFile 0)).map pageNum = [0x400] := by decide +kernel
  have hstart : (phdr plainFile 0).vaddr.toNat = 0x400000 := by decide +kernel
  have hmem : (phdr plainFile 0).memsz.toNat = 64 := by decide +kernel
  intro v hcan _ ph hph
  rw [firstMapper, hloads, List.find?_singleton, hpages] at hph
  split at hph
  · rename_i hpage
    cases hph
    have hover : Overlaps (phdr plainFile 0) v := by
      refine ⟨0x400000, ⟨by omega, by omega⟩, ?_⟩
      have hnum : v.toNat / 4096 % 2 ^ 36 = 0x400 := by simpa [pageNum] using hpage
      rw [Canonical] at hcan
      omega
    have hW : ¬ AsksW (phdr plainFile 0) := by
      rw [AsksW, hflags]
      decide
    refine ⟨?_, fun _ => ?_⟩ <;> rw [hloads]
    · simp [hW]
    · simp [hover]
  · cases hph

/-- **Data behind code**: the page of both was mapped for the code, so the segment with
    `PF_W` cannot be written to. -/
theorem shared_page_not_writable :
    ∃ reads s', elfSpawn sharedFile [] false bootSys = some (.ok 1, reads, s') ∧
      Overlaps (phdr sharedFile 1) 0x400800#64 ∧ AsksW (phdr sharedFile 1) ∧
      ¬ Ring3Store s'.k.mem (s'.procs 1).cr3 0x400800#64 ∧
      ¬ PermissionsHonoured sharedFile true s'.k.mem (s'.procs 1).cr3 := by
  obtain ⟨reads, s', hspawn⟩ := elfSpawn_sharedFile
  obtain ⟨-, p, hcr3, hfilled⟩ := elfSpawn_filled (Inv.of_init bootSys_init) hspawn
  obtain ⟨-, hv1, hm1, -⟩ := sharedFile_segments
  have hover : Overlaps (phdr sharedFile 1) 0x400800#64 :=
    ⟨0x400800, ⟨by omega, by omega⟩, rfl⟩
  have hask : AsksW (phdr sharedFile 1) := by
    have hflags : (phdr sharedFile 1).flags = 6#32 := by decide +kernel
    rw [AsksW, hflags]
    decide
  have hfirst : firstMapper sharedFile 0x400800#64 = some (phdr sharedFile 0) := by
    have hmaps : pageNum 0x400800#64 ∈ (segmentPages (phdr sharedFile 0)).map pageNum := by
      decide +kernel
    rw [firstMapper, loads_sharedFile]
    exact List.find?_cons_of_pos (by simpa using hmaps)
  have hnot : ¬ Ring3Store s'.k.mem p.cr3 0x400800#64 := by
    rw [(rights_of_mapper hfilled (.inl (by decide)) (by decide) hfirst).1, AsksW,
      show (phdr sharedFile 0).flags = 5#32 by decide +kernel]
    decide
  have hmem : phdr sharedFile 1 ∈ loads sharedFile := by
    rw [loads_sharedFile]
    exact List.mem_cons_of_mem _ List.mem_cons_self
  rw [← hcr3] at hnot
  exact ⟨reads, s', hspawn, hover, hask, hnot, fun h => hnot (h.writable _ _ hmem hover hask)⟩

end LoadedImage
