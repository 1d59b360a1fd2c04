import AoOs.OwnedFrames
import AoOs.ProcessMemory
import AoOs.Translation

/-! # Isolation — no process reaches another's memory, or the kernel's

    The spaces of the live user processes are well formed, and every page that a
    space opens to user mode is in its process's list.  Creating a process,
    mapping a page and cleaning up keep this, also when they run out of frames
    half way; so it holds in every state that is reached from the boot loader's
    tables (`isolation`). -/

namespace Isolation

open Paging Vmm Process ProcessMemory AddressSpace StepSystem UserPointer

variable {p p' : UProc} {virt flags f : Word} {ok : Bool} {own : Word → Option (Owner Nat)}

variable {k k' : KState} {sp : Nat → Option Space} {a : Nat} {S : Space}

/-! ## Spaces whose user pages are their own -/

/-- Every entry of a space is the kernel's, or opens one of the space's pages. -/
def LeavesOk (m : Mem) (S : Space) : Prop :=
  ∀ p i, p.length = 3 → view m S.root p i = kernelEntry p i ∨
    (presentUser (view m S.root p i) ∧ addrOf (view m S.root p i) ∈ S.pages)

/-- The spaces are well formed and open only their own pages. -/
def Good (k : KState) (sp : Nat → Option Space) : Prop :=
  ∃ own, Wf k sp own ∧ ∀ a S, sp a = some S → LeavesOk k.mem S

theorem LeavesOk.of_views {m m' : Mem} {S S' : Space} (h : LeavesOk m S)
    (hview : ∀ p, p.length = 3 → view m' S'.root p = view m S.root p)
    (hpages : ∀ f ∈ S.pages, f ∈ S'.pages) : LeavesOk m' S' := by
  intro p i hp
  rw [hview p hp]
  exact (h p i hp).imp_right fun ⟨hu, hf⟩ => ⟨hu, hpages _ hf⟩

section Good

variable (h : Good k sp)

include h

/-- What user mode can access is a page of the list. -/
theorem Good.userPage (ha : sp a = some S) (v : Word)
    (hwalk : ∀ e ∈ walk k.mem S.root v, has e ptePresent ∧ has e pteUser) :
    ∃ f ∈ S.pages, IsFrame f ∧ translate k.mem S.root v = some (f + (v &&& 0xFFF#64), true) := by
  obtain ⟨own, hwf, hleaves⟩ := h
  have hfr := hwf.root_frame ha
  have hopen : presentUser (view k.mem S.root (pathOf v) (ptIndex v)) := by
    rw [← userPageOk_view hwf ha v, vmmUserPageOk_iff]
    exact ⟨by rw [show addrOf _ = _ from hfr.isPage]; exact hfr.ne_zero, hwalk⟩
  obtain ⟨hP, hU⟩ := has_of_presentUser hopen
  rcases hleaves a S ha (pathOf v) (ptIndex v) rfl with hker | ⟨-, hmem⟩
  · rw [hker, presentUser_kernelEntry] at hopen
    cases hopen
  · refine ⟨_, hmem, hwf.page_frame ha hmem, ?_⟩
    rw [translate_view hwf ha v, viewTranslate, if_pos hP, hU]

/-- Writing to a page of a space changes no table. -/
theorem Good.write (ha : sp a = some S) {x : Word} (hx : pageOf x ∈ S.pages) (n : Nat)
    (src : Nat → BitVec 8) : Good { k with mem := copyBytes k.mem x n src } sp ∧
      SameViews sp k { k with mem := copyBytes k.mem x n src } ∧
      ∀ b S', sp b = some S' → ∀ q, q.length ≤ 3 →
        tableAt (copyBytes k.mem x n src) S'.root q = tableAt k.mem S'.root q := by
  obtain ⟨own, hwf, hleaves⟩ := h
  obtain ⟨m, hpage⟩ := hwf.page_owned ha hx
  obtain ⟨hwf', hviews⟩ : Wf { k with mem := copyBytes k.mem x n src } sp own ∧
      SameViews sp k { k with mem := copyBytes k.mem x n src } := hwf.congr rfl
    (fun t ht => copyBytes_other _ _ _ fun heq =>
      (hwf.frame hpage).1.not_kernel (heq ▸ ht))
    (fun t b q ht => copyBytes_other _ _ _ fun heq => by
      rw [heq, hpage] at ht
      cases ht)
    (fun f o ho => (hwf.frame ho).2)
  exact ⟨⟨own, hwf', fun b S' hb => (hleaves b S' hb).of_views (hviews b S' hb) fun _ => id⟩,
    hviews, fun b S' hb q hq => hwf.tableAt_eq hwf' hb hb (fun _ _ _ => Iff.rfl) hq⟩

/-! ## Creating a space -/

/-- `vmm_create_address_space`: nothing, or a space that maps what the kernel
    maps. -/
theorem Good.create (ha : sp a = none) :
    ((pmmAllocPage k).1 = 0#64 ∧ vmmCreateAddressSpace k = (0#64, k)) ∨
      ∃ r k₁, pmmAllocPage k = (r, k₁) ∧ Allocates k r k₁ ∧
        vmmCreateAddressSpace k = (r, { k₁ with mem := k₁.mem.setPage r (kernelEntry []) }) ∧
        Good { k₁ with mem := k₁.mem.setPage r (kernelEntry []) }
          (Function.update sp a (some ⟨r, []⟩)) := by
  obtain ⟨own, hwf, hleaves⟩ := h
  rw [vmmCreateAddressSpace, allocTablePage]
  rcases pmmAllocPage_cases k with halloc | ⟨r, k₁, halloc, hal⟩
  · rw [halloc]
    exact .inl ⟨rfl, rfl⟩
  · rw [halloc]
    have hr0 := hal.frame.ne_zero
    have hne : (0x1000#64 : Word) ≠ r := by
      rintro rfl
      exact hal.frame.not_kernel (by decide)
    have hcopy : (k₁.mem.setPage r fun _ => 0#64) k₁.kernelPml4 = kernelEntry [] := by
      rw [hal.kernel, hwf.booted.root, Mem.setPage_other _ _ hne, hal.mem,
        hwf.booted.tables _ (by decide)]
      rfl
    simp only [if_neg hr0, hcopy, setPage_setPage]
    obtain ⟨hwf', hviews⟩ := hwf.fill hal (kernelEntry [])
    have hroot : k₁.mem.setPage r (kernelEntry []) r = kernelEntry [] := Mem.setPage_same ..
    refine .inr ⟨r, k₁, rfl, hal, rfl, _, hwf'.addSpace ha (hwf.own_free hal.free) hal.frame
      (by rw [hal.used]; simp) hroot, ?_⟩
    intro b S hb
    by_cases hba : b = a
    · rw [hba, Function.update_self] at hb
      cases hb
      intro p i hp
      refine .inl ?_
      have hq : p ≠ [] := by
        rintro rfl
        cases hp
      rw [view_of_none ((tableAt_kernelRoot hroot p).trans (if_neg hq))]
    · rw [Function.update_of_ne hba] at hb
      exact (hleaves b S hb).of_views (hviews b S hb) fun _ => id

/-! ## Mapping a page -/

/-- What `process_map_user_page` can do. -/
inductive MapsPage (p : UProc) (virt flags : Word) (k : KState) : Bool → UProc → KState → Prop where
  /-- It gives up before it allocates, or the page is mapped already. -/
  | idle (ok : Bool) : MapsPage p virt flags k ok p k
  /-- A table on the way cannot be allocated; the page goes back. -/
  | fails {f : Word} {k₁ k₂ : KState} : Allocates k f k₁ →
      vmmMapPageIn p.cr3 virt f (flags ||| pteUser)
        { k₁ with mem := k₁.mem.setPage f fun _ => 0#64 } = (false, k₂) →
      MapsPage p virt flags k false p (pmmFreePage f k₂)
  | maps {f : Word} {k₁ k₂ : KState} : Allocates k f k₁ →
      vmmMapPageIn p.cr3 virt f (flags ||| pteUser)
        { k₁ with mem := k₁.mem.setPage f fun _ => 0#64 } = (true, k₂) →
      MapsPage p virt flags k true { p with pages := p.pages ++ [f] } k₂

omit h in
theorem processMapUserPage_cases (h : processMapUserPage p virt flags k = some (ok, p', k')) :
    MapsPage p virt flags k ok p' k' := by
  rw [processMapUserPage] at h
  split at h
  · cases h
    exact .idle _
  · obtain ⟨mapped, -, h⟩ := Option.map_eq_some_iff.mp h
    split at h
    · cases h
      exact .idle _
    · split at h
      · cases h
        exact .idle _
      · rcases pmmAllocPage_cases k with halloc | ⟨f, k₁, halloc, hal⟩
        · rw [halloc] at h
          cases h
          exact .idle _
        · rw [halloc] at h
          simp only [if_neg hal.frame.ne_zero] at h
          rcases hmap : vmmMapPageIn p.cr3 virt f (flags ||| pteUser)
            { k₁ with mem := k₁.mem.setPage f fun _ => 0#64 } with ⟨_ | _, k₂⟩
          · rw [hmap] at h
            cases h
            exact .fails hal hmap
          · rw [hmap] at h
            cases h
            exact .maps hal hmap

omit h in
/-- The entry stored for a page opens that page. -/
theorem leafEntry_opens (hf : IsFrame f) (hu : has flags pteUser) :
    presentUser (leafEntry f flags) ∧ addrOf (leafEntry f flags) = f := by
  have hpage : addrOf f = f := hf.isPage
  have hflags : IsFlags (flags &&& ~~~pteAddrMask) := addrOf_not_mask flags
  rw [leafEntry, hpage]
  refine ⟨presentUser_of_has ?_ ?_, ?_⟩
  · rw [has_or, show has ptePresent ptePresent by decide, Bool.or_true]
  · rw [has_or, has_or, has_not_mask (by decide), hu, Bool.or_true, Bool.true_or]
  · rw [addrOf_or_flags (by decide), addrOf_page_or hf.isPage hflags]

/-- A fresh page, cleared and counted to the space before it is mapped. -/
theorem Good.takePage {k₁ : KState} (ha : sp a = some S) (hal : Allocates k f k₁) :
    ∃ own₁, Wf { k₁ with mem := k₁.mem.setPage f fun _ => 0#64 }
        (Function.update sp a (some { S with pages := S.pages ++ [f] })) own₁ ∧
      SameViews sp k { k₁ with mem := k₁.mem.setPage f fun _ => 0#64 } ∧
      ∀ q, q.length ≤ 3 →
        tableAt (k₁.mem.setPage f fun _ => 0#64) S.root q = tableAt k.mem S.root q := by
  obtain ⟨own, hwf, -⟩ := h
  obtain ⟨hwf₁, hviews⟩ := hwf.fill hal fun _ => 0#64
  have hus : k₁.used (frameNum f) := by rw [hal.used]; simp
  exact ⟨_, hwf₁.addPage ha (hwf.own_free hal.free) hal.frame hus, hviews,
    fun q hq => hwf.tableAt_eq hwf₁ ha ha (fun _ _ _ => Iff.rfl) hq⟩

/-- The work of `vmm_map_page_in` on a fresh page: the views stay, up to the entry
    stored at the end. -/
theorem Good.prepare {k₁ : KState} (ha : sp a = some S) (hal : Allocates k f k₁) (virt : Word)
    (hu : has flags pteUser) :
    ∃ own₂ k₂, Wf k₂ (Function.update sp a (some { S with pages := S.pages ++ [f] })) own₂ ∧
      (∀ b S', sp b = some S' → LeavesOk k₂.mem S') ∧
      (vmmMapPageIn S.root virt f flags { k₁ with mem := k₁.mem.setPage f fun _ => 0#64 } =
          (false, k₂) ∨
        ∃ t, tableAt k₂.mem S.root (pathOf virt) = some t ∧
          vmmMapPageIn S.root virt f flags { k₁ with mem := k₁.mem.setPage f fun _ => 0#64 } =
            (true, k₂.store t (ptIndex virt) (leafEntry f flags))) := by
  obtain ⟨own₁, hwf₁, hviews₁, -⟩ := h.takePage ha hal
  obtain ⟨own₂, k₂, hwf₂, hviews₂, hmap⟩ := mapPage_spec hwf₁ (Function.update_self ..) virt f hu
  refine ⟨own₂, k₂, hwf₂, ?_, hmap⟩
  obtain ⟨-, -, hleaves⟩ := h
  intro b S' hb
  refine (hleaves b S' hb).of_views (fun p hp => ?_) fun _ => id
  rw [← hviews₁ b S' hb p hp]
  by_cases hba : b = a
  · obtain rfl : S = S' := Option.some.inj (ha.symm.trans (hba ▸ hb))
    exact hviews₂ a { S with pages := S.pages ++ [f] } (Function.update_self ..) p hp
  · exact hviews₂ b S' (by rwa [Function.update_of_ne hba]) p hp

/-- **`process_map_user_page` keeps the spaces good**, whether it succeeds or
    not. -/
theorem Good.mapUserPage (ha : sp a = some ⟨p.cr3, p.pages⟩) (hm : MapsPage p virt flags k ok p' k')
    : Good k' (Function.update sp a (some ⟨p'.cr3, p'.pages⟩)) := by
  have hself : Function.update sp a (some ⟨p.cr3, p.pages⟩) = sp := by
    rw [← ha, Function.update_eq_self]
  have hu : has (flags ||| pteUser) pteUser := by
    rw [has_or, show has pteUser pteUser by decide, Bool.or_true]
  cases hm with
  | idle =>
    rw [hself]
    exact h
  | @fails f k₁ k₂ hal hmap =>
    obtain ⟨own₂, k₂', hwf₂, hleaves₂, hres⟩ := h.prepare ha hal virt hu
    rw [hself]
    rcases hres with hres | ⟨t, -, hres⟩
    · obtain rfl : k₂' = k₂ := (Prod.mk.inj (hres.symm.trans hmap)).2
      -- the page leaves the list again, and then its bit may be cleared
      have hdrop := hwf₂.dropPage
      rw [hself] at hdrop
      obtain ⟨hmem, hker, hused⟩ := pmmFreePage_spec f k₂'
      refine ⟨_, (hdrop.congr hker (fun t _ => by rw [hmem]) (fun t _ _ _ => by rw [hmem])
        fun g o ho => ?_).1, fun b S hb => ?_⟩
      · have hg := hdrop.frame ho
        refine (hused _ fun hnum => ?_).trans hg.2
        rw [hg.1.num_inj hal.frame hnum, if_pos rfl] at ho
        cases ho
      · rw [hmem]
        exact hleaves₂ b S hb
    · cases hres.symm.trans hmap
  | @maps f k₁ _ hal hmap =>
    obtain ⟨own₂, k₂', hwf₂, hleaves₂, hres⟩ := h.prepare ha hal virt hu
    rcases hres with hres | ⟨t, ht, hres⟩
    · cases hres.symm.trans hmap
    · cases hres.symm.trans hmap
      obtain ⟨hwf₃, hviews₃⟩ := hwf₂.storeLeaf (i := ptIndex virt) (Function.update_self ..)
        (p := pathOf virt) rfl ht (leafEntry f (flags ||| pteUser))
      obtain ⟨hopen, haddr⟩ := leafEntry_opens hal.frame hu
      refine ⟨own₂, hwf₃, fun b S hb q j hq => ?_⟩
      rw [hviews₃ hb q hq j]
      by_cases hplace : b = a ∧ q = pathOf virt ∧ j = ptIndex virt
      · rw [if_pos hplace, haddr]
        rw [hplace.1, Function.update_self] at hb
        cases hb
        exact .inr ⟨hopen, List.mem_append_right _ (List.mem_singleton_self f)⟩
      · rw [if_neg hplace]
        by_cases hba : b = a
        · rw [hba, Function.update_self] at hb
          cases hb
          have hold : LeavesOk k₂'.mem ⟨p.cr3, p.pages ++ [f]⟩ :=
            (hleaves₂ a _ ha).of_views (fun _ _ => rfl) fun _ => List.mem_append_left _
          exact hold q j hq
        · rw [Function.update_of_ne hba] at hb
          exact hleaves₂ b S hb q j hq

end Good

/-- Only the page list of a process changes. -/
theorem MapsPage.proc (h : MapsPage p virt flags k ok p' k') :
    p' = { p with pages := p'.pages } := by
  cases h <;> rfl

/-- A sequence of pages, by induction on it. -/
theorem Good.mapAll {vs : List Word} (h : Good k sp) (ha : sp a = some ⟨p.cr3, p.pages⟩)
    (hm : mapAll flags vs p k = some (ok, p', k')) :
    Good k' (Function.update sp a (some ⟨p'.cr3, p'.pages⟩)) ∧
      p' = { p with pages := p'.pages } := by
  induction vs generalizing p k sp with
  | nil =>
    obtain ⟨rfl, rfl, rfl⟩ : true = ok ∧ p = p' ∧ k = k' := by simpa [ProcessMemory.mapAll] using hm
    rw [← ha, Function.update_eq_self]
    exact ⟨h, rfl⟩
  | cons v vs ih =>
    obtain ⟨⟨ok₁, p₁, k₁⟩, h₁, hrest⟩ := Option.bind_eq_some_iff.mp hm
    have hmaps := processMapUserPage_cases h₁
    have hgood := h.mapUserPage ha hmaps
    cases ok₁ with
    | false =>
      cases hrest
      exact ⟨hgood, hmaps.proc⟩
    | true =>
      obtain ⟨hgood', hproc⟩ := ih hgood (Function.update_self ..) hrest
      rw [Function.update_idem] at hgood'
      refine ⟨hgood', ?_⟩
      rw [hproc, hmaps.proc]

/-! ## Cleaning up -/

theorem freePages_frees (fs : List Word) (hfs : ∀ f ∈ fs, OwnedBy own a f) (k : KState) :
    Frees own a k (fs.foldl (fun k f => if f ≠ 0#64 then pmmFreePage f k else k) k) := by
  induction fs generalizing k with
  | nil => exact Frees.refl own a k
  | cons f fs ih =>
    have hhead : Frees own a k (if f ≠ 0#64 then pmmFreePage f k else k) := by
      split
      · exact Frees.freePage (hfs f List.mem_cons_self) k
      · exact Frees.refl own a k
    exact hhead.trans (ih (fun g hg => hfs g (List.mem_cons_of_mem f hg)) _)

/-- **`process_cleanup` frees nothing of another process.** -/
theorem Good.cleanup (h : Good k sp) (ha : sp a = some ⟨p.cr3, p.pages⟩) :
    Good (processCleanup p k).2 (Function.update sp a none) := by
  obtain ⟨own, hwf, hleaves⟩ := h
  have hfrees : Frees own a k (processCleanup p k).2 := by
    rw [processCleanup]
    split
    · exact Frees.refl own a k
    · have howned : ∀ f ∈ p.pages, OwnedBy own a f := by
        intro f hf
        obtain ⟨n, hn⟩ := hwf.page_owned ha hf
        exact ⟨_, hn, rfl⟩
      have hpages := freePages_frees p.pages howned k
      refine hpages.trans ?_
      show Frees own a _ (if _ then _ else _)
      split
      · exact vmmDestroyAddressSpace_frees hwf ha hpages
      · exact Frees.refl own a _
  have hwithout : without sp a = Function.update sp a none := by
    funext b
    by_cases hba : b = a
    · rw [hba, Function.update_self, without, if_pos rfl]
    · rw [Function.update_of_ne hba, without, if_neg hba]
  obtain ⟨hwf', hviews⟩ := hwf.remove hfrees
  rw [← hwithout]
  exact ⟨_, hwf', fun b S hb =>
    (hleaves b S (without_eq_some.mp hb).2).of_views (hviews b S hb) fun _ => id⟩

/-! ## The process table -/

/-- The space of the process in a slot. -/
def space (p : UProc) : Option Space :=
  if p.state = .unused then none else some ⟨p.cr3, p.pages⟩

/-- The spaces of the live processes. -/
def spaces (procs : Nat → UProc) (i : Nat) : Option Space :=
  if 1 ≤ i ∧ i < maxProcesses then space (procs i) else none

/-- The invariant of the runs. -/
def Inv (s : PSys) : Prop := Good s.k (spaces s.procs)

variable {s s' : PSys} {i : Nat}

theorem live_iff : live s i ↔ (1 ≤ i ∧ i < maxProcesses) ∧ (s.procs i).state ≠ .unused := by
  simp [live]

theorem spaces_live (h : live s i) :
    spaces s.procs i = some ⟨(s.procs i).cr3, (s.procs i).pages⟩ := by
  obtain ⟨hi, hst⟩ := live_iff.mp h
  rw [spaces, if_pos hi, space, if_neg hst]

theorem spaces_upd (hi : 1 ≤ i ∧ i < maxProcesses) (procs : Nat → UProc) (p : UProc) :
    spaces (upd procs i p) = Function.update (spaces procs) i (space p) := by
  funext j
  by_cases hji : j = i
  · rw [hji, Function.update_self, spaces, if_pos hi, upd_same]
  · rw [Function.update_of_ne hji, spaces, spaces, upd_other _ _ hji]

theorem findUnused_spec {procs : Nat → UProc} {n j : Nat} (h : findUnused procs n i = some j) :
    (i ≤ j ∧ j < i + n) ∧ (procs j).state = .unused := by
  induction n generalizing i with
  | zero => cases h
  | succ n ih =>
    rw [findUnused] at h
    split at h
    · cases h
      exact ⟨⟨Nat.le_refl _, by omega⟩, ‹_›⟩
    · obtain ⟨hj, hst⟩ := ih h
      exact ⟨by omega, hst⟩

/-! ## Steps and runs -/

/-- Changes of a slot that leave its space alone. -/
theorem Inv.setProc (h : Inv s) (hi : 1 ≤ i ∧ i < maxProcesses) (hp : space p = space (s.procs i)) :
    Inv (s.setProc i p) := by
  show Good s.k (spaces (upd _ _ _))
  have hsame : space p = spaces s.procs i := by rw [hp, spaces, if_pos hi]
  rw [spaces_upd hi, hsame, Function.update_eq_self]
  exact h

theorem Inv.create {r : Option Nat} (h : Inv s) (hc : processCreate s = some (r, s')) : Inv s' := by
  rw [processCreate] at hc
  split at hc
  · cases hc
    exact h
  · rename_i i hi
    obtain ⟨hrange, hst⟩ := findUnused_spec hi
    have hslot : 1 ≤ i ∧ i < maxProcesses := by
      simp only [maxProcesses] at hrange ⊢
      omega
    have hnone : spaces s.procs i = none := by
      rw [spaces, if_pos hslot, space, if_pos hst]
    rcases Good.create h hnone with ⟨-, hcr⟩ | ⟨r, k₁, -, hal, hcr, hgood⟩
    · rw [hcr] at hc
      cases hc
      exact Inv.setProc (s := { s with nextPid := s.nextPid + 1 }) h hslot
        ((if_pos hst).trans (if_pos hst).symm)
    · rw [hcr] at hc
      simp only [if_neg hal.frame.ne_zero] at hc
      obtain ⟨⟨ok, p, k₂⟩, hm, hres⟩ := Option.map_eq_some_iff.mp hc
      obtain ⟨hgood₂, hproc⟩ := hgood.mapAll (Function.update_self ..) hm
      rw [Function.update_idem] at hgood₂
      cases ok with
      | true =>
        cases hres
        show Good k₂ (spaces (upd _ _ _))
        rw [spaces_upd hslot]
        exact hgood₂
      | false =>
        cases hres
        have hclean := hgood₂.cleanup (p := p) (Function.update_self ..)
        rw [Function.update_idem] at hclean
        show Good (processCleanup p k₂).2 (spaces (upd _ _ _))
        rw [spaces_upd hslot]
        exact hclean

theorem Inv.release (h : Inv s) (hi : live s i) : Inv (release s i) := by
  have hclean := Good.cleanup h (spaces_live hi)
  show Good (processCleanup (s.procs i) s.k).2 (spaces (upd _ _ _))
  rw [spaces_upd (live_iff.mp hi).1]
  exact hclean

theorem Inv.reapSlot (h : Inv s) (hi : 1 ≤ i ∧ i < maxProcesses) : Inv (reapSlot s i) := by
  rw [ProcessMemory.reapSlot]
  split
  · rename_i hc
    have hrel := h.release (live_iff.mpr ⟨hi, by rw [hc.1]; exact nofun⟩)
    exact hrel.setProc hi rfl
  · exact h

theorem Inv.reap (h : Inv s) : Inv (processReapTerminated s) := by
  have hfold : ∀ is : List Nat, (∀ i ∈ is, 1 ≤ i ∧ i < maxProcesses) → ∀ s, Inv s →
      Inv (is.foldl ProcessMemory.reapSlot s) := by
    intro is
    induction is with
    | nil => exact fun _ _ h => h
    | cons i is ih =>
      intro his s h
      exact ih (fun j hj => his j (List.mem_cons_of_mem i hj)) _
        (h.reapSlot (his i List.mem_cons_self))
  exact hfold _ (by decide) s h

/-- **One step.** -/
theorem Inv.pstep {l : PLabel} (h : Inv s) (hs : pstep s l = some s') : Inv s' := by
  cases l with
  | create =>
    obtain ⟨⟨r, s₁⟩, hc, rfl⟩ := Option.map_eq_some_iff.mp hs
    exact h.create hc
  | map i virt flags =>
    obtain ⟨hi, hs⟩ := Option.ite_none_right_eq_some.mp hs
    obtain ⟨⟨ok, p, k⟩, hm, rfl⟩ := Option.map_eq_some_iff.mp hs
    have hmaps := processMapUserPage_cases hm
    have hgood := Good.mapUserPage h (spaces_live hi) hmaps
    obtain ⟨hrange, hst⟩ := live_iff.mp hi
    have hsp : space p = some ⟨p.cr3, p.pages⟩ := by
      rw [hmaps.proc]
      exact if_neg hst
    show Good k (spaces (upd _ _ _))
    rwa [spaces_upd hrange, hsp]
  | store i virt b =>
    obtain ⟨hi, hs⟩ := Option.ite_none_right_eq_some.mp hs
    rw [Bool.and_eq_true, List.all_eq_true] at hi
    obtain ⟨⟨x, u⟩, htr, rfl⟩ := Option.map_eq_some_iff.mp hs
    have ha := spaces_live hi.1
    obtain ⟨f, hf, hframe, htr'⟩ := Good.userPage h ha virt fun e he =>
      has_of_presentUser (hi.2 e he)
    cases Option.mem_unique htr' htr
    have hpage := pageOf_page_add hframe.isPage virt
    exact (Good.write h ha (by rwa [hpage]) 1 fun _ => b).1
  | terminate i =>
    obtain ⟨hi, hs⟩ := Option.ite_none_right_eq_some.mp hs
    cases hs
    obtain ⟨hrange, hst⟩ := live_iff.mp hi
    exact h.setProc hrange ((if_neg nofun).trans (if_neg hst).symm)
  | detach i =>
    obtain ⟨hi, hs⟩ := Option.ite_none_right_eq_some.mp hs
    cases hs
    exact h.setProc (live_iff.mp hi).1 rfl
  | waitpid i =>
    obtain ⟨hi, hs⟩ := Option.ite_none_right_eq_some.mp hs
    cases hs
    rw [Bool.and_eq_true] at hi
    exact h.release hi.1
  | reap =>
    obtain rfl : processReapTerminated s = s' := Option.some.inj hs
    exact h.reap

/-- At boot: the boot loader's tables, and no process but the kernel's.  Which
    frames are free, and what they hold, is not assumed. -/
structure Init (s : PSys) : Prop where
  booted : Booted s.k
  unused : ∀ i, 1 ≤ i → i < maxProcesses → (s.procs i).state = .unused

theorem Inv.of_init (h : Init s) : Inv s := by
  have hnone : ∀ i, spaces s.procs i = none := by
    intro i
    rw [spaces]
    split
    · rename_i hi
      exact if_pos (h.unused i hi.1 hi.2)
    · rfl
  refine ⟨fun _ => none, ⟨h.booted, ?_, nofun, ?_, nofun, nofun, ?_⟩, ?_⟩
  · intro a S p t ha
    cases (hnone a).symm.trans ha
  · intro a S n f ha
    cases (hnone a).symm.trans ha
  · intro a S p t ha
    cases (hnone a).symm.trans ha
  · intro a S ha
    cases (hnone a).symm.trans ha

/-! ## Isolation -/

/-- The tables the hardware goes through on its way to `v`. -/
def walkTables (m : Mem) (cr3 v : Word) : List Word :=
  let e4 := m (addrOf cr3) (pml4Index v)
  let e3 := m (addrOf e4) (pdptIndex v)
  let e2 := m (addrOf e3) (pdIndex v)
  addrOf cr3 ::
    if has e4 ptePresent then addrOf e4 ::
      if has e3 ptePresent then addrOf e3 ::
        if has e2 ptePresent && !has e2 pteHuge then [addrOf e2] else []
      else []
    else []

/-- The table at some path of the process in slot `i`, reached by the pointers
    that are marked as private. -/
def PrivateTable (s : PSys) (i : Nat) (t : Word) : Prop :=
  ∃ p, p.length ≤ 3 ∧ tableAt s.k.mem (s.procs i).cr3 p = some t

/-- The frames of the process in slot `i`: its pages and its private tables. -/
def FrameOf (s : PSys) (i : Nat) (f : Word) : Prop :=
  f ∈ (s.procs i).pages ∨ PrivateTable s i f

/-- The live processes are isolated from each other and from the kernel. -/
structure Isolated (s : PSys) : Prop where
  /-- What user mode can access is a page of the process's list. -/
  userPage : ∀ i v, live s i →
    (∀ e ∈ walk s.k.mem (s.procs i).cr3 v, has e ptePresent ∧ has e pteUser) →
    ∃ f ∈ (s.procs i).pages,
      translate s.k.mem (s.procs i).cr3 v = some (f + (v &&& 0xFFF#64), true)
  /-- The hardware walks through private tables of the process and the kernel's. -/
  walked : ∀ i v, live s i → ∀ t ∈ walkTables s.k.mem (s.procs i).cr3 v,
    PrivateTable s i t ∨ t ∈ kernelTables
  disjoint : ∀ i j f, live s i → live s j → FrameOf s i f → FrameOf s j f → i = j
  pagesTables : ∀ i f, live s i → f ∈ (s.procs i).pages → ¬ PrivateTable s i f
  notKernel : ∀ i f, live s i → FrameOf s i f → f ∉ kernelTables
  /-- The kernel's own translation is the boot loader's. -/
  kernel : ∀ v, translate s.k.mem s.k.kernelPml4 v = translate bootMem 0x1000#64 v

/-- A present pointer leads to a private table, or it is the kernel's own. -/
theorem pointer_cases {p : List Index} (h : Wf k sp own) (ha : sp a = some S) (hp : p.length < 3)
    (i : Index) (hP : has (view k.mem S.root p i) ptePresent)
    (hH : p.length = 2 → has (view k.mem S.root p i) pteHuge = false) :
    tableAt k.mem S.root (p ++ [i]) = some (addrOf (view k.mem S.root p i)) ∨
      (p.length < 2 ∧ tableAt k.mem S.root (p ++ [i]) = none ∧
        view k.mem S.root p i = kernelEntry p i) := by
  rcases h.view_cases ha hp i with ⟨he, hnone⟩ | ⟨c, hc, hchild, -⟩
  · rcases Nat.lt_or_ge p.length 2 with hp2 | hp2
    · exact .inr ⟨hp2, hnone, he⟩
    · -- in its page directories the kernel has 2 MB pages only
      rw [he] at hP hH
      have hp2 : p.length = 2 := by omega
      rcases kernelEntry_huge hp2 i with ⟨h0, -⟩ | ⟨-, hH', -⟩
      · rw [h0] at hP
        cases hP
      · cases (hH hp2).symm.trans hH'
  · rw [(child_eq_some hchild).2.2.2]
    exact .inl hc

/-- The tables on the way to an address: private ones, and those the kernel's own
    pointers lead to. -/
theorem walkTables_cases (h : Wf k sp own) (ha : sp a = some S) (v : Word) {t : Word}
    (ht : t ∈ walkTables k.mem S.root v) : (∃ p, p.length ≤ 3 ∧ tableAt k.mem S.root p = some t) ∨
      ∃ p i, p.length < 2 ∧ tableAt k.mem S.root (p ++ [i]) = none ∧
        has (kernelEntry p i) ptePresent ∧ t = addrOf (kernelEntry p i) := by
  have hw := h.walks ha
  have hl3 : ([] ++ [pml4Index v]).length < 2 := by simp
  have hstep : ∀ {p : List Index} {i : Index}, p.length < 3 →
      has (view k.mem S.root p i) ptePresent →
      (p.length = 2 → has (view k.mem S.root p i) pteHuge = false) →
      (∃ q, q.length ≤ 3 ∧ tableAt k.mem S.root q = some (addrOf (view k.mem S.root p i))) ∨
        ∃ q j, q.length < 2 ∧ tableAt k.mem S.root (q ++ [j]) = none ∧
          has (kernelEntry q j) ptePresent ∧
          addrOf (view k.mem S.root p i) = addrOf (kernelEntry q j) := by
    intro p i hp hP hH
    rcases pointer_cases h ha hp i hP hH with hc | ⟨hp2, hnone, he⟩
    · exact .inl ⟨_, by rw [PointerTree.length_snoc]; omega, hc⟩
    · exact .inr ⟨p, i, hp2, hnone, he ▸ hP, by rw [he]⟩
  rw [walkTables, hw.root, List.mem_cons] at ht
  rcases ht with rfl | ht
  · exact .inl ⟨[], by simp, by rw [show addrOf S.root = S.root from (h.root_frame ha).isPage]; rfl⟩
  · split at ht
    · rename_i hP4
      rw [hw.step (by simp) _ hP4, List.mem_cons] at ht
      rcases ht with rfl | ht
      · exact hstep (by simp) hP4 (by simp)
      · split at ht
        · rename_i hP3
          rw [hw.step hl3 _ hP3, List.mem_cons] at ht
          rcases ht with rfl | ht
          · exact hstep (by simp) hP3 (by simp)
          · split at ht
            · rename_i hP2
              rw [Bool.and_eq_true, Bool.not_eq_true_eq_eq_false] at hP2
              obtain rfl := List.mem_singleton.mp ht
              exact hstep (by simp) hP2.1 fun _ => hP2.2
            · cases ht
        · cases ht
    · cases ht

/-- A frame of a live process has that process as its owner. -/
theorem FrameOf.owner (h : Wf s.k (spaces s.procs) own) (hi : live s i) (hf : FrameOf s i f) :
    OwnedBy own i f := by
  rcases hf with hf | ⟨p, hp, ht⟩
  · obtain ⟨n, hn⟩ := h.page_owned (spaces_live hi) hf
    exact ⟨_, hn, rfl⟩
  · exact ⟨_, h.table_own (spaces_live hi) hp ht, rfl⟩

/-- **What the invariant says about the hardware.** -/
theorem Inv.isolated (h : Inv s) : Isolated s := by
  have hgood : Good s.k (spaces s.procs) := h
  obtain ⟨own, hwf, hleaves⟩ := h
  refine ⟨?_, ?_, ?_, ?_, ?_, ?_⟩
  · intro i v hi hwalk
    obtain ⟨f, hf, -, htr⟩ := hgood.userPage (spaces_live hi) v hwalk
    exact ⟨f, hf, htr⟩
  · intro i v hi t ht
    rcases walkTables_cases hwf (spaces_live hi) v ht with hpriv | ⟨p, j, hp, -, hP, rfl⟩
    · exact .inl hpriv
    · rcases kernelEntry_step hp j with ⟨h0, -⟩ | ⟨-, -, hmem, -⟩
      · rw [h0] at hP
        cases hP
      · exact .inr hmem
  · intro i j f hi hj hfi hfj
    obtain ⟨o, ho, rfl⟩ := hfi.owner hwf hi
    obtain ⟨o', ho', rfl⟩ := hfj.owner hwf hj
    rw [Option.mem_unique ho ho']
  · rintro i f hi hf ⟨p, hp, ht⟩
    exact hwf.page_ne_table (spaces_live hi) hp ht hf rfl
  · intro i f hi hf
    obtain ⟨o, ho, -⟩ := hf.owner hwf hi
    exact (hwf.frame ho).1.not_kernel
  · intro v
    have hboot : Booted { s.k with mem := bootMem, kernelPml4 := 0x1000#64 } :=
      ⟨rfl, fun _ _ => rfl⟩
    rw [hwf.booted.translate_eq v]
    exact (hboot.translate_eq v).symm

/-- **Isolation.**  In every state that is reached from boot by creating
    processes, mapping pages at any address with any flags, and cleaning up, the
    live processes are isolated. -/
theorem isolation {s₀ s : PSys} {ls : List PLabel} (h0 : Init s₀) (hrun : Steps pstep Any s₀ ls s) :
    Isolated s :=
  (hrun.invariant (fun _ _ _ h _ hs => h.pstep hs) (Inv.of_init h0)).isolated

/-- A machine at boot, with the frames from 2 MB on free. -/
def bootSys : PSys where
  k :=
    { mem := bootMem, used := fun n => decide (n < 512), freePages := 0xFFE00,
      kernelPml4 := 0x1000#64 }
  procs := fun i => ⟨0#64, if i = 0 then .running else .unused, false, 0#64, false, []⟩
  nextPid := 1#64
  nx := true

theorem bootSys_init : Init bootSys :=
  ⟨⟨rfl, fun _ _ => rfl⟩, fun i h1 _ => if_neg (by omega)⟩

/-- Two processes, one with a page at 2 MB it writes to; the other one ends and a third takes
    its frames. -/
def bootRun : List PLabel :=
  [.create, .create, .map 1 0x200000#64 pteWritable, .store 1 0x200010#64 0x90#8, .terminate 2,
    .waitpid 2, .create]

/-- At the end of this run two processes are live, and isolated. -/
theorem isolation_bootRun :
    Init bootSys ∧ ∃ s, Steps pstep Any bootSys bootRun s ∧ live s 1 ∧ live s 2 ∧ Isolated s := by
  have hrun : ((runWhile pstep Any bootSys bootRun).map fun s => live s 1 && live s 2) =
      some true := by decide +kernel
  obtain ⟨s, hs, hlive⟩ := Option.map_eq_some_iff.mp hrun
  have hsteps := steps_of_runWhile hs
  rw [Bool.and_eq_true] at hlive
  exact ⟨bootSys_init, s, hsteps, hlive.1, hlive.2, isolation bootSys_init hsteps⟩

end Isolation
