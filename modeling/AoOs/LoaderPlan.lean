import AoOs.FramePlan
import AoOs.Loader

/-! # Loading by plan — which pages a program gets, and what is read for it

    The loaders follow a plan as `process_create` does.  A segment is mapped page
    by page; once all its pages are mapped, the copies into them succeed and touch
    nothing else.  So the pages of the new process, its tables and the parts of the
    file that are read are known beforehand (`loadLoop_follows`). -/

namespace FramePlan

open Paging Vmm ProcessMemory AddressSpace Isolation Loader

variable {v size : Word} {p : UProc}

variable {k k' : KState} {sp : Nat → Option Space} {a : Nat} {S : Space} {P P' : Plan}

/-! ## The places of a plan -/

theorem keyOf_pageOf (v : Word) : keyOf (pageOf v) = keyOf v := by
  obtain ⟨h4, h3, h2, h1⟩ := index_pageOf v
  simp only [keyOf, pathOf, h4, h3, h2, h1]

theorem mapPage_keys (h : P.mapPage v = some P') (q : List Index) :
    q ∈ P'.keys ↔ q = keyOf v ∨ q ∈ P.keys := by
  rw [Plan.mapPage] at h
  split at h
  · cases h
    exact ⟨.inr, fun hq => hq.elim (fun hv => hv ▸ ‹_›) id⟩
  · split at h
    · cases h
    · split at h
      · cases h
      · obtain ⟨P₁, -, rfl⟩ := Option.map_eq_some_iff.mp h
        exact List.mem_cons

/-- The places of a plan after some pages: those of the pages, and those before. -/
theorem mapPages_keys {vs : List Word} (h : P.mapPages vs = some P') (q : List Index) :
    q ∈ P'.keys ↔ (∃ v ∈ vs, q = keyOf v) ∨ q ∈ P.keys := by
  induction vs generalizing P with
  | nil =>
    cases h
    simp
  | cons v vs ih =>
    obtain ⟨P₁, h₁, hrest⟩ := Option.bind_eq_some_iff.mp h
    rw [ih hrest, mapPage_keys h₁]
    simp only [List.mem_cons, exists_eq_or_imp]
    rw [or_left_comm, or_assoc]

/-! ## Writing to planned pages -/

/-- `vmm_get_physical_in` is the address part of the translation. -/
theorem vmmGetPhysicalIn_eq (m : Mem) {cr3 : Word} (h0 : addrOf cr3 ≠ 0#64) (v : Word) :
    vmmGetPhysicalIn m cr3 v = ((translate m cr3 v).map Prod.fst).getD 0#64 := by
  simp only [vmmGetPhysicalIn, Paging.translate, if_neg h0]
  split_ifs <;> rfl

/-- A planned page is written to in the process's own frame. -/
theorem Follows.physical (hF : Follows k S P) (h : Good k sp) (ha : sp a = some S)
    (hv : keyOf v ∈ P.keys) :
    vmmGetPhysicalIn k.mem S.root v ≠ 0#64 ∧
      pageOf (vmmGetPhysicalIn k.mem S.root v) ∈ S.pages := by
  obtain ⟨own, hwf, -⟩ := id h
  have hroot := hwf.addrOf_root_ne_zero ha
  have hopen := (hF.keys (pathOf v) (ptIndex v) rfl).mpr hv
  rw [← userPageOk_view hwf ha v, UserPointer.vmmUserPageOk_iff] at hopen
  obtain ⟨f, hf, hframe, htr⟩ := h.userPage ha v hopen.2
  have hpage := pageOf_page_add hframe.isPage v
  rw [vmmGetPhysicalIn_eq _ hroot, htr]
  refine ⟨fun hzero => ?_, ?_⟩
  · -- the frame would be the zero page
    rw [show f + (v &&& 0xFFF#64) = 0#64 from hzero] at hpage
    exact hframe.ne_zero (hpage.symm.trans (by decide))
  · show pageOf (f + (v &&& 0xFFF#64)) ∈ S.pages
    rwa [hpage]

theorem Follows.write (hF : Follows k S P) (h : Good k sp) (ha : sp a = some S) {x : Word}
    (hx : pageOf x ∈ S.pages) (n : Nat) (src : Nat → Byte) :
    Good { k with mem := copyBytes k.mem x n src } sp ∧
      Follows { k with mem := copyBytes k.mem x n src } S P := by
  obtain ⟨hgood, hviews, htab⟩ := h.write ha hx n src
  refine ⟨hgood, ⟨hF.free, fun q hq => (htab a S ha q hq).trans (hF.tables q hq)⟩,
    fun q i hq => ?_, hF.count⟩
  rw [hviews a S ha q hq]
  exact hF.keys q i hq

/-- The loop of `process_write_user` in rounds: each writes some bytes, all within one page.
    What every round keeps, counted in the bytes written, holds in the end. -/
theorem writeLoop_rule {cr3 virt : Word} {src : Nat → Byte} (I : Nat → KState → Prop)
    (hround : ∀ {k d n}, I d k → 0 < n → d + n ≤ size.toNat →
      (virt + BitVec.ofNat 64 d).toNat % 4096 + n ≤ 4096 →
      let x := vmmGetPhysicalIn k.mem cr3 (virt + BitVec.ofNat 64 d)
      x ≠ 0#64 ∧ I (d + n) { k with mem := copyBytes k.mem x n fun j => src (d + j) }) (h : I 0 k) :
    ∃ k', writeLoop cr3 src size.toNat virt 0 size k = (true, k') ∧ I size.toNat k' := by
  have hloop : ∀ fuel d k, d ≤ size.toNat → size.toNat - d ≤ fuel → I d k →
      ∃ k', writeLoop cr3 src fuel (virt + BitVec.ofNat 64 d) d (size - BitVec.ofNat 64 d) k =
        (true, k') ∧ I size.toNat k' := by
    intro fuel
    induction fuel with
    | zero =>
      intro d k hd hfuel h
      obtain rfl : d = size.toNat := by omega
      rw [ProcessMemory.writeLoop, BitVec.ofNat_toNat, BitVec.setWidth_eq, BitVec.sub_self]
      exact ⟨k, rfl, h⟩
    | succ fuel ih =>
      intro d k hd hfuel h
      have hlt := size.isLt
      have hleft : (size - BitVec.ofNat 64 d).toNat = size.toNat - d := by
        rw [BitVec.toNat_sub, BitVec.toNat_ofNat]
        omega
      rw [ProcessMemory.writeLoop]
      by_cases h0 : size - BitVec.ofNat 64 d = 0#64
      · rw [h0] at hleft
        obtain rfl : d = size.toNat := by
          rw [BitVec.toNat_ofNat] at hleft
          omega
        exact ⟨k, if_pos h0, h⟩
      have hpos : 0 < (size - BitVec.ofNat 64 d).toNat :=
        Nat.pos_of_ne_zero fun hz => h0 (BitVec.eq_of_toNat_eq hz)
      -- the part of this page: at least one byte, and not more than is left
      generalize hv : virt + BitVec.ofNat 64 d = v at hround ⊢
      have hpage : (BitVec.ofNat 64 pageSize - (v &&& 0xFFF#64)).toNat = 4096 - v.toNat % 4096 := by
        rw [BitVec.toNat_sub, toNat_offset, BitVec.toNat_ofNat]
        simp only [pageSize]
        omega
      generalize hn : (if size - BitVec.ofNat 64 d < BitVec.ofNat 64 pageSize - (v &&& 0xFFF#64)
        then size - BitVec.ofNat 64 d else BitVec.ofNat 64 pageSize - (v &&& 0xFFF#64)) = n
      have hbound : 0 < n.toNat ∧ d + n.toNat ≤ size.toNat ∧ v.toNat % 4096 + n.toNat ≤ 4096 := by
        rw [← hn]
        split <;> rename_i hc <;> rw [BitVec.lt_def, hpage] at hc <;> omega
      obtain ⟨hphys, hnext⟩ := hround h hbound.1 hbound.2.1 (hv.symm ▸ hbound.2.2)
      rw [hv] at hphys hnext
      simp only [if_neg h0, if_neg hphys, hn]
      have hmove : BitVec.ofNat 64 (d + n.toNat) = BitVec.ofNat 64 d + n := by
        rw [BitVec.ofNat_add, BitVec.ofNat_toNat, BitVec.setWidth_eq]
      have hrec := ih (d + n.toNat) _ hbound.2.1 (by omega) hnext
      rwa [hmove, ← BitVec.add_assoc, hv, ← BitVec.sub_sub] at hrec
  have hall := hloop size.toNat 0 k (Nat.zero_le _) (le_refl _) h
  rwa [BitVec.add_zero, BitVec.sub_zero] at hall

/-- **Copies into planned pages succeed**, and leave the tables alone. -/
theorem Follows.writeLoop (hF : Follows k S P) (h : Good k sp) (ha : sp a = some S)
    (src : Nat → Byte) (virt size : Word)
    (hkeys : ∀ j < size.toNat, keyOf (virt + BitVec.ofNat 64 j) ∈ P.keys) :
    ∃ k', writeLoop S.root src size.toNat virt 0 size k = (true, k') ∧ Good k' sp ∧
      Follows k' S P := by
  refine writeLoop_rule (fun _ k => Good k sp ∧ Follows k S P) (fun {k d n} hI hn hd _ => ?_)
    ⟨h, hF⟩
  obtain ⟨h, hF⟩ := hI
  obtain ⟨hphys, hpage⟩ := hF.physical h ha (hkeys d (by omega))
  exact ⟨hphys, hF.write h ha hpage _ _⟩

/-! ## Segments -/

/-- The pages of a segment. -/
def segmentPages (ph : Phdr) : List Word := rangePages ph.vaddr (ph.vaddr + ph.memsz)

theorem toNat_pageUp (v : Word) :
    (pageUp v).toNat ≤ 2 ^ 64 - 4096 ∧ (pageUp v).toNat % 4096 = 0 := by
  have h := toNat_pageOf (v + 4095#64)
  have hlt := (v + 4095#64).isLt
  rw [show pageUp v = pageOf (v + 4095#64) from rfl, h]
  omega

/-- `map_range` never reaches the last page of the address space. -/
theorem rangePages_lt {start stop : Word} (h : v ∈ rangePages start stop) :
    v.toNat < 2 ^ 64 - 4096 := by
  obtain ⟨i, hi, rfl⟩ := List.mem_map.mp h
  rw [List.mem_range] at hi
  obtain ⟨hup, hmod⟩ := toNat_pageUp stop
  have hpage := toNat_pageOf start
  have hlt := start.isLt
  simp only [pageSize] at hi ⊢
  rw [BitVec.toNat_add, BitVec.toNat_ofNat]
  omega

/-- The pages of a range that does not wrap hold all its addresses. -/
theorem rangePages_covers {start : Word} {j : Nat}
    (hwrap : start.toNat + size.toNat ≤ 2 ^ 64 - 4096) (hj : j < size.toNat) :
    pageOf (start + BitVec.ofNat 64 j) ∈ rangePages start (start + size) := by
  have hpage := toNat_pageOf start
  have hsum : (start + size + 4095#64).toNat = start.toNat + size.toNat + 4095 := by
    rw [BitVec.toNat_add, BitVec.toNat_add, BitVec.toNat_ofNat]
    omega
  have haddr : (start + BitVec.ofNat 64 j).toNat = start.toNat + j := by
    rw [BitVec.toNat_add, BitVec.toNat_ofNat]
    omega
  refine List.mem_map.mpr ⟨(start.toNat % 4096 + j) / 4096, ?_, ?_⟩
  · rw [List.mem_range, show pageUp (start + size) = pageOf (start + size + 4095#64) from rfl,
      toNat_pageOf (start + size + 4095#64), hsum, hpage]
    simp only [pageSize]
    omega
  · apply BitVec.eq_of_toNat_eq
    rw [toNat_pageOf (start + BitVec.ofNat 64 j), haddr, BitVec.toNat_add, hpage,
      BitVec.toNat_ofNat]
    simp only [pageSize]
    omega

/-- What `valid_user_range` asks for a range that is not empty. -/
theorem validUserRange_bounds {vaddr : Word} (h : validUserRange vaddr size)
    (h0 : size ≠ 0#64) : vaddr.toNat + size.toNat ≤ 0x800000 := by
  rw [validUserRange, if_neg h0] at h
  simp only [Bool.if_false_left, Bool.and_eq_true, Bool.not_eq_true', decide_eq_false_iff_not] at h
  obtain ⟨-, -, hwrap, hstop, -⟩ := h
  have hsum := BitVec.toNat_add vaddr size
  simp only [BitVec.lt_def, userStackBase, BitVec.toNat_ofNat] at hwrap hstop
  have := vaddr.isLt
  have := size.isLt
  omega

theorem segmentOk_valid {f : Image} {ph : Phdr} (h : segmentOk f ph) :
    ph.filesz.toNat ≤ ph.memsz.toNat ∧
      ((ph.offset + ph.filesz).toNat ≤ f.size.toNat) ∧ validUserRange ph.vaddr ph.memsz := by
  simp only [segmentOk, Bool.not_or, Bool.not_not, Bool.and_eq_true, Bool.not_eq_true',
    decide_eq_false_iff_not, BitVec.lt_def, BitVec.toNat_setWidth] at h
  have hsize := f.size.isLt
  obtain ⟨⟨hfile, hend⟩, hvalid⟩ := h
  exact ⟨by omega, by omega, hvalid⟩

section Accepted

variable {f : Image} {ph : Phdr} (hok : segmentOk f ph) {j : Nat} (hj : j < ph.memsz.toNat)

include hok hj

/-- A segment that is not empty is below the stack. -/
theorem segment_nonempty : ph.memsz ≠ 0#64 ∧ ph.vaddr.toNat + ph.memsz.toNat ≤ 0x800000 := by
  have h0 : ph.memsz ≠ 0#64 := by
    intro h0
    rw [h0] at hj
    exact absurd hj (Nat.not_lt_zero j)
  exact ⟨h0, validUserRange_bounds (segmentOk_valid hok).2.2 h0⟩

/-- Its pages hold its addresses. -/
theorem segment_covers : pageOf (ph.vaddr + BitVec.ofNat 64 j) ∈ segmentPages ph := by
  have hbound := (segment_nonempty hok hj).2
  exact rangePages_covers (by omega) hj

/-- After a segment has been mapped, all its addresses are planned. -/
theorem segment_keys (hmap : P.mapPages (segmentPages ph) = some P') :
    keyOf (ph.vaddr + BitVec.ofNat 64 j) ∈ P'.keys :=
  (mapPages_keys hmap _).mpr (.inl ⟨_, segment_covers hok hj, (keyOf_pageOf _).symm⟩)

end Accepted

/-- What is left of a process and its space by the code between `process_create`
    and `process_activate`. -/
structure Keeps (sp : Nat → Option Space) (a : Nat) (p p' : UProc) (k' : KState) : Prop where
  good : Good k' (Function.update sp a (some ⟨p'.cr3, p'.pages⟩))
  proc : p' = { p with pages := p'.pages }

theorem Keeps.trans {p₁ p₂ : UProc} {k₁ k₂ : KState} (h : Keeps sp a p p₁ k₁)
    (h' : Keeps (Function.update sp a (some ⟨p₁.cr3, p₁.pages⟩)) a p₁ p₂ k₂) :
    Keeps sp a p p₂ k₂ := by
  refine ⟨?_, ?_⟩
  · have hgood := h'.good
    rwa [Function.update_idem] at hgood
  · rw [h'.proc, h.proc]

/-- **One segment.**  It fails when the plan does; otherwise its part of the file
    is read and the space is as planned. -/
theorem loadSegment_follows {f : Image} {ph : Phdr} (nx : Bool) (hok : segmentOk f ph)
    (hF : Follows k ⟨p.cr3, p.pages⟩ P) (h : Good k sp) (ha : sp a = some ⟨p.cr3, p.pages⟩)
    (hu : p.isUser) : ∃ r, loadSegment f nx ph p k = some r ∧ Keeps sp a p r.proc r.k ∧
      ((r.error.isSome ∧ r.reads = [] ∧ P.mapPages (segmentPages ph) = none) ∨
        ∃ P', r.error = none ∧ r.reads = [⟨ph.offset, ph.filesz⟩] ∧
          P.mapPages (segmentPages ph) = some P' ∧ Follows r.k ⟨r.proc.cr3, r.proc.pages⟩ P') := by
  have hlt : ∀ v ∈ segmentPages ph, v.toNat < 2 ^ 64 - 4096 := fun v hv => rangePages_lt hv
  obtain ⟨ok, p₁, k₁, hmap, hres⟩ := hF.mapAll h ha hu (rangeFlags nx ph.flags) hlt
  obtain ⟨hgood, hproc⟩ := h.mapAll ha hmap
  rw [loadSegment, mapRange, show rangePages _ _ = segmentPages ph from rfl, hmap]
  rcases hres with ⟨rfl, hplan⟩ | ⟨P', rfl, hplan, hF₁⟩
  · exact ⟨_, rfl, ⟨hgood, hproc⟩, .inl ⟨rfl, rfl, hplan⟩⟩
  obtain ⟨hfile, -, -⟩ := segmentOk_valid hok
  have hself := Function.update_self a (some (⟨p₁.cr3, p₁.pages⟩ : Space)) sp
  have hcr3 : p₁.cr3 ≠ 0#64 := by
    obtain ⟨own, hwf, -⟩ := hgood
    exact (hwf.root_frame hself).ne_zero
  -- the bytes from the file, then the zeroes behind them
  obtain ⟨k₂, hw₂, hgood₂, hF₂⟩ := hF₁.writeLoop hgood hself
    (fun j => f.byte (ph.offset + BitVec.ofNat 64 j)) ph.vaddr ph.filesz
    fun j hj => segment_keys hok (by omega) hplan
  have hrest : (ph.memsz - ph.filesz).toNat = ph.memsz.toNat - ph.filesz.toNat := by
    rw [BitVec.toNat_sub]
    omega
  obtain ⟨k₃, hw₃, hgood₃, hF₃⟩ := hF₂.writeLoop hgood₂ hself (fun _ => 0#8)
    (ph.vaddr + ph.filesz) (ph.memsz - ph.filesz) fun j hj => by
      have hkey := segment_keys hok (j := ph.filesz.toNat + j) (by omega) hplan
      rwa [BitVec.ofNat_add, ← BitVec.add_assoc, BitVec.ofNat_toNat, BitVec.setWidth_eq] at hkey
  simp only [Option.map_some, Bool.not_true, Bool.false_eq_true, if_false, processWriteUser,
    processZeroUser, if_neg hcr3, hw₂, hw₃]
  exact ⟨_, rfl, ⟨hgood₃, hproc⟩, .inr ⟨P', rfl, rfl, hplan, hF₃⟩⟩

/-! ## The program headers -/

/-- The plan after the program headers with the given numbers. -/
def planSegments (f : Image) : List Nat → Plan → Option Plan
  | [], P => some P
  | i :: is, P =>
    if (phdr f i).type ≠ ptLoad then planSegments f is P
    else if !segmentOk f (phdr f i) then none
    else (P.mapPages (segmentPages (phdr f i))).bind (planSegments f is)

/-- What is read on the way. -/
def planReads (f : Image) : List Nat → Plan → List Access
  | [], _ => []
  | i :: is, P =>
    ⟨phdrStart f i, BitVec.ofNat 64 elfPhdrSize⟩ ::
      if (phdr f i).type ≠ ptLoad then planReads f is P
      else if !segmentOk f (phdr f i) then []
      else match P.mapPages (segmentPages (phdr f i)) with
        | none => []
        | some P' => ⟨(phdr f i).offset, (phdr f i).filesz⟩ :: planReads f is P'

/-- **The loop over the program headers follows the plan.** -/
theorem loadLoop_follows (f : Image) (nx : Bool) (is : List Nat) (hF : Follows k ⟨p.cr3, p.pages⟩ P)
    (h : Good k sp) (ha : sp a = some ⟨p.cr3, p.pages⟩) (hu : p.isUser) :
    ∃ r, loadLoop f nx is p k = some r ∧ Keeps sp a p r.proc r.k ∧ r.reads = planReads f is P ∧
      ((r.error.isSome ∧ planSegments f is P = none) ∨
        ∃ P', r.error = none ∧ planSegments f is P = some P' ∧
          Follows r.k ⟨r.proc.cr3, r.proc.pages⟩ P') := by
  induction is generalizing k p P sp with
  | nil =>
    refine ⟨_, rfl, ⟨?_, rfl⟩, rfl, .inr ⟨P, rfl, rfl, hF⟩⟩
    rwa [← ha, Function.update_eq_self]
  | cons i is ih =>
    rw [loadLoop, planSegments, planReads]
    by_cases htype : (phdr f i).type ≠ ptLoad
    · obtain ⟨r, hr, hkeeps, hreads, hres⟩ := ih hF h ha hu
      simp only [if_pos htype, hr, Option.map_some]
      exact ⟨_, rfl, hkeeps, by rw [hreads], hres⟩
    simp only [if_neg htype]
    cases hok : segmentOk f (phdr f i) with
    | false =>
      refine ⟨_, rfl, ⟨?_, rfl⟩, rfl, .inl ⟨rfl, rfl⟩⟩
      rwa [← ha, Function.update_eq_self]
    | true =>
      obtain ⟨r, hr, hkeeps, hres⟩ := loadSegment_follows nx hok hF h ha hu
      simp only [hr, Bool.not_true, Bool.false_eq_true, if_false, Option.bind_some]
      rcases hres with ⟨herr, hreads, hplan⟩ | ⟨P', herr, hreads, hplan, hF'⟩
      · rw [if_pos herr, hplan]
        exact ⟨_, rfl, hkeeps, by rw [hreads], .inl ⟨herr, rfl⟩⟩
      · obtain ⟨r', hr', hkeeps', hreads', hres'⟩ := ih hF' hkeeps.good
          (Function.update_self ..) (by rw [hkeeps.proc]; exact hu)
        simp only [herr, Option.isSome_none, Bool.false_eq_true, if_false, hr', hplan,
          Option.map_some, Option.bind_some]
        exact ⟨_, rfl, hkeeps.trans hkeeps', by rw [hreads, hreads']; rfl, hres'⟩

end FramePlan
