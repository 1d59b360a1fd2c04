import AoOs.Isolation

/-! # Frame plan — which frames a new process gets

    `pmm_alloc_page` hands out the free frames in ascending order.  So it is known
    before a process is created which of its mappings will succeed, which frames
    become its page tables and which addresses its programs will see: a `Plan`
    computes this from the list of free frames alone, and the code follows the
    plan (`Follows.mapUserPage`). -/

namespace FramePlan

open Paging Vmm Process ProcessMemory AddressSpace Isolation UserPointer

variable {k k' : KState} {sp : Nat → Option Space} {own : Word → Option (Owner Nat)} {a : Nat}
  {S : Space} {f : Word} {fs : List Word}

/-! ## The free frames -/

/-- The free frames among the `n` from `i` on. -/
def freeFrom (used : Nat → Bool) (n i : Nat) : List Nat :=
  (List.range' i n).filter fun j => !used j

/-- The free frames, in the order in which they are handed out. -/
def freeFrames (k : KState) : List Word :=
  (freeFrom k.used (maxPages - firstPage) firstPage).map frameAddr

theorem findFree_eq_head (used : Nat → Bool) (n i : Nat) :
    findFree used n i = (freeFrom used n i).head? := by
  induction n generalizing i with
  | zero => rfl
  | succ n ih =>
    rw [findFree, freeFrom, List.range'_succ, List.filter_cons]
    cases hu : used i with
    | true => exact ih (i + 1)
    | false => rfl

/-- Marking the first free frame takes it from the list. -/
theorem freeFrom_mark {used used' : Nat → Bool} {n i j : Nat} {js : List Nat}
    (h : freeFrom used n i = j :: js) (hused : ∀ m, used' m = (m == j || used m)) :
    freeFrom used' n i = js := by
  induction n generalizing i with
  | zero => cases h
  | succ n ih =>
    rw [freeFrom, List.range'_succ, List.filter_cons] at h ⊢
    cases hu : used i with
    | true =>
      rw [hu] at h
      rw [hused i, hu, Bool.or_true]
      exact ih h
    | false =>
      rw [hu] at h
      obtain ⟨rfl, rfl⟩ := List.cons.inj h
      rw [hused i, beq_self_eq_true, Bool.true_or]
      refine List.filter_congr fun m hm => ?_
      have hm : i + 1 ≤ m := (List.mem_range'_1.mp hm).1
      rw [hused m, beq_false_of_ne (by omega), Bool.false_or]

/-- The allocator takes the first free frame. -/
theorem pmmAllocPage_free (k : KState) : (freeFrames k = [] ∧ pmmAllocPage k = (0#64, k)) ∨
      ∃ f fs k', freeFrames k = f :: fs ∧ pmmAllocPage k = (f, k') ∧ Allocates k f k' := by
  have halloc := pmmAllocPage_cases k
  rw [pmmAllocPage, findFree_eq_head] at halloc ⊢
  rw [freeFrames]
  cases hfree : freeFrom k.used (maxPages - firstPage) firstPage with
  | nil => exact .inl ⟨rfl, rfl⟩
  | cons j js =>
    obtain ⟨h1, h2, -⟩ := findFree_spec ((findFree_eq_head ..).trans (congrArg List.head? hfree))
    have hframe : IsFrame (frameAddr j) := ⟨j, h1, by
      simp only [maxPages, firstPage, pageSize] at h2 ⊢
      omega, rfl⟩
    rw [hfree] at halloc
    rcases halloc with h0 | ⟨f, k', heq, hal⟩
    · exact absurd (Prod.mk.inj h0).1 hframe.ne_zero
    · exact .inr ⟨f, js.map frameAddr, k', by rw [← (Prod.mk.inj heq).1]; rfl, heq, hal⟩

/-- After a frame has been taken. -/
theorem freeFrames_taken (h : freeFrames k = f :: fs)
    (hused : ∀ n, k'.used n = (n == frameNum f || k.used n)) : freeFrames k' = fs := by
  rw [freeFrames] at h ⊢
  cases hfree : freeFrom k.used (maxPages - firstPage) firstPage with
  | nil =>
    rw [hfree] at h
    cases h
  | cons j js =>
    rw [hfree] at h
    obtain ⟨rfl, rfl⟩ := List.cons.inj h
    have hj : j < maxPages := by
      have hmem : j ∈ freeFrom k.used (maxPages - firstPage) firstPage := by
        rw [hfree]
        exact List.mem_cons_self
      have := (List.mem_range'_1.mp (List.mem_of_mem_filter hmem)).2
      simp only [maxPages, firstPage, pageSize] at this ⊢
      omega
    rw [frameNum_frameAddr hj] at hused
    rw [freeFrom_mark hfree hused]

/-! ## Plans -/

/-- What is planned for an address space: the frames still free, the frames of
    its private tables by path, and the places of its user pages. -/
structure Plan where
  free : List Word
  tables : List Index → Option Word
  keys : List (List Index)

/-- The place of an address in the tables: its path and its index in the page
    table.  Bits 48 to 63 have no part in it. -/
def keyOf (v : Word) : List Index := pathOf v ++ [ptIndex v]

namespace Plan

/-- The table at a path is there, or takes a frame. -/
def need (P : Plan) (q : List Index) : Option Plan :=
  match P.tables q, P.free with
  | some _, _ => some P
  | none, f :: fs => some { P with free := fs, tables := Function.update P.tables q (some f) }
  | none, [] => none

/-- The tables along a path. -/
def descend (P : Plan) (p : List Index) : List Index → Option Plan
  | [] => some P
  | i :: is => (P.need (p ++ [i])).bind fun P => P.descend (p ++ [i]) is

/-- One page: its frame first, then the tables on the way to it. -/
def mapPage (P : Plan) (v : Word) : Option Plan :=
  if keyOf v ∈ P.keys then some P
  else if processMaxUserPages ≤ P.keys.length then none
  else match P.free with
    | [] => none
    | _ :: fs =>
      ({ P with free := fs }.descend [] (pathOf v)).map fun (P' : Plan) =>
        { P' with keys := keyOf v :: P.keys }

/-- A sequence of pages. -/
def mapPages (P : Plan) : List Word → Option Plan
  | [] => some P
  | v :: vs => (P.mapPage v).bind fun P => P.mapPages vs

/-- A new address space. -/
def create (free : List Word) : Option Plan :=
  match free with
  | [] => none
  | f :: fs => some ⟨fs, fun q => if q = [] then some f else none, []⟩

end Plan

/-! ## The code follows the plan -/

/-- Frames and tables are as planned. -/
structure Tracks (k : KState) (root : Word) (P : Plan) : Prop where
  free : freeFrames k = P.free
  tables : ∀ q, q.length ≤ 3 → tableAt k.mem root q = P.tables q

/-- The whole space is as planned. -/
structure Follows (k : KState) (S : Space) (P : Plan) : Prop extends Tracks k S.root P where
  keys : ∀ q i, q.length = 3 →
    (presentUser (view k.mem S.root q i) ↔ q ++ [i] ∈ P.keys)
  count : S.pages.length = P.keys.length

variable {P : Plan}

/-- One level of the way down. -/
theorem Tracks.level {p : List Index} {i : Index} {r : Option Word} (hT : Tracks k S.root P)
    (hfm : FindsOrMakes k sp a S p i r k') (h : Wf k sp own) (ha : sp a = some S)
    (hp : p.length < 3) : (r = none ∧ P.need (p ++ [i]) = none) ∨
      ∃ c P', r = some c ∧ P.need (p ++ [i]) = some P' ∧ Tracks k' S.root P' := by
  have hlen : (p ++ [i]).length ≤ 3 := by
    rw [PointerTree.length_snoc]
    omega
  have htab := hT.tables _ hlen
  have hfree := hT.free
  rw [Plan.need, ← htab]
  cases hfm with
  | full hfull hnone =>
    rcases pmmAllocPage_free k with ⟨hnil, -⟩ | ⟨f, fs, k', -, halloc, hal⟩
    · rw [hnone, ← hfree, hnil]
      exact .inl ⟨rfl, rfl⟩
    · rw [halloc] at hfull
      exact absurd hfull hal.frame.ne_zero
  | finds hc =>
    rw [hc]
    exact .inr ⟨_, P, rfl, rfl, hT⟩
  | makes hnone hn =>
    rcases pmmAllocPage_free k with ⟨-, halloc⟩ | ⟨f, fs, k₁, hcons, halloc, -⟩
    · exact absurd (congrArg Prod.fst halloc) hn.frame.ne_zero
    · rw [halloc] at hn
      rw [hnone, ← hfree, hcons]
      refine .inr ⟨_, _, rfl, rfl, freeFrames_taken hcons hn.used, fun q hq => ?_⟩
      rw [hn.tableAt h ha hq]
      by_cases hqp : q = p ++ [i]
      · rw [if_pos ⟨rfl, hqp⟩, hqp]
        exact (Function.update_self (p ++ [i]) _ P.tables).symm
      · rw [if_neg fun hc => hqp hc.2, hT.tables q hq]
        exact (Function.update_of_ne hqp _ P.tables).symm

/-- The way down. -/
theorem Tracks.descend {p is : List Index} {r : Option Word} (hT : Tracks k S.root P)
    (hd : Descends sp a S k p is r k') (h : Wf k sp own) (ha : sp a = some S)
    (hp : p.length + is.length ≤ 3) : (r = none ∧ P.descend p is = none) ∨
      ∃ t P', r = some t ∧ P.descend p is = some P' ∧ Tracks k' S.root P' := by
  induction hd generalizing own P with
  | done => exact .inr ⟨_, P, rfl, rfl, hT⟩
  | full hfm =>
    rw [List.length_cons] at hp
    rcases hT.level hfm h ha (by omega) with ⟨-, hneed⟩ | ⟨c, P₁, hc, -⟩
    · rw [Plan.descend, hneed]
      exact .inl ⟨rfl, rfl⟩
    · cases hc
  | next hfm _ ih =>
    rw [List.length_cons] at hp
    rcases hT.level hfm h ha (by omega) with ⟨hc, -⟩ | ⟨c, P₁, -, hneed, hT₁⟩
    · cases hc
    · obtain ⟨⟨own₁, hwf⟩, -, -⟩ := hfm.wf h ha (by omega)
      rw [Plan.descend, hneed]
      exact ih hT₁ hwf (by rw [PointerTree.length_snoc]; omega)

/-- Below the last page of the address space, the test whether a page is mapped
    ends. -/
theorem vmmUserRangeOk_page (m : Mem) (cr3 : Word) {v : Word} (hv : v.toNat < 2 ^ 64 - 4096) :
    vmmUserRangeOk m cr3 (pageOf v) 1#64 = some (vmmUserPageOk m cr3 v) := by
  have hpage := toNat_pageOf v
  have hone : (pageOf v + 1#64).toNat = (pageOf v).toNat + 1 := by
    rw [BitVec.toNat_add, BitVec.toNat_ofNat]
    omega
  have hnext : (pageOf v + BitVec.ofNat 64 pageSize).toNat = (pageOf v).toNat + 4096 := by
    rw [BitVec.toNat_add, BitVec.toNat_ofNat]
    simp only [pageSize]
    omega
  have hidem : pageOf (pageOf v) = pageOf v := by
    apply BitVec.eq_of_toNat_eq
    rw [toNat_pageOf (pageOf v), hpage]
    omega
  have hloop : ∀ n, rangeLoop m cr3 (pageOf v + 1#64) (n + 2) (pageOf v) =
      some (vmmUserPageOk m cr3 (pageOf v)) := by
    intro n
    have hstop : ¬ pageOf v + BitVec.ofNat 64 pageSize < pageOf v + 1#64 := by
      rw [BitVec.lt_def, hone, hnext]
      omega
    rw [rangeLoop, if_pos (by rw [BitVec.lt_def, hone]; omega), rangeLoop, if_neg hstop]
    cases vmmUserPageOk m cr3 (pageOf v) <;> rfl
  rw [vmmUserRangeOk, if_neg (by decide), if_neg (by rw [BitVec.lt_def, hone]; omega), hidem,
    ← vmmUserPageOk_pageOf]
  exact hloop (2 ^ 52 - 1)

/-- **`process_map_user_page` follows the plan**: it succeeds exactly when the
    plan goes on, and leaves the space as planned. -/
theorem Follows.mapUserPage {p : UProc} (hF : Follows k ⟨p.cr3, p.pages⟩ P) (h : Good k sp)
    (ha : sp a = some ⟨p.cr3, p.pages⟩) (hu : p.isUser) (flags : Word) {v : Word}
    (hv : v.toNat < 2 ^ 64 - 4096) :
    ∃ ok p' k', processMapUserPage p v flags k = some (ok, p', k') ∧
      ((ok = false ∧ P.mapPage v = none) ∨
        ∃ P', ok ∧ P.mapPage v = some P' ∧ Follows k' ⟨p'.cr3, p'.pages⟩ P') := by
  obtain ⟨own, hwf, -⟩ := id h
  have hcr3 : (p.cr3 == 0#64) = false := beq_false_of_ne (hwf.root_frame ha).ne_zero
  have huser : has (flags ||| pteUser) pteUser := by
    rw [has_or, show has pteUser pteUser by decide, Bool.or_true]
  rw [processMapUserPage, hu, hcr3, vmmUserRangeOk_page _ _ hv, userPageOk_view hwf ha v,
    Plan.mapPage]
  have hkey : presentUser (view k.mem p.cr3 (pathOf v) (ptIndex v)) ↔ keyOf v ∈ P.keys :=
    hF.keys (pathOf v) (ptIndex v) rfl
  by_cases hmem : keyOf v ∈ P.keys
  · rw [hkey.mpr hmem, if_pos hmem]
    exact ⟨true, p, k, rfl, .inr ⟨P, rfl, rfl, hF⟩⟩
  have hclosed : presentUser (view k.mem p.cr3 (pathOf v) (ptIndex v)) = false :=
    Bool.not_eq_true _ ▸ mt hkey.mp hmem
  have hcount : p.pages.length = P.keys.length := hF.count
  simp only [hclosed, Bool.not_true, Bool.or_self, Bool.false_eq_true, if_false, Option.map_some,
    if_neg hmem, hcount]
  by_cases hmax : processMaxUserPages ≤ P.keys.length
  · exact ⟨false, p, k, by rw [if_pos hmax], .inl ⟨rfl, if_pos hmax⟩⟩
  simp only [if_neg hmax, ← hF.free]
  rcases pmmAllocPage_free k with ⟨hnil, halloc⟩ | ⟨f, fs, k₁, hcons, halloc, hal⟩
  · rw [halloc, hnil]
    exact ⟨false, p, k, rfl, .inl ⟨rfl, rfl⟩⟩
  rw [halloc, hcons]
  simp only [if_neg hal.frame.ne_zero]
  -- the frame is cleared and counted; then the way down follows the plan
  obtain ⟨own₁, hwf₁, hviews₁, htab₁⟩ := h.takePage ha hal
  have hT : Tracks { k₁ with mem := k₁.mem.setPage f fun _ => 0#64 } p.cr3 { P with free := fs } :=
    ⟨freeFrames_taken hcons hal.used, fun q hq => (htab₁ q hq).trans (hF.tables q hq)⟩
  have ha₁ := Function.update_self a (some (⟨p.cr3, p.pages ++ [f]⟩ : Space)) sp
  obtain ⟨r, k₂, hd, hmap⟩ := mapPage_descends hwf₁ ha₁ v f huser
  obtain ⟨⟨own₂, hwf₂⟩, hviews₂, hpath⟩ := hd.wf hwf₁ ha₁ (by simp [pathOf])
  rcases hT.descend hd hwf₁ ha₁ (by simp [pathOf]) with ⟨rfl, hdesc⟩ | ⟨t, P₂, rfl, hdesc, hT₂⟩
  · rw [hmap, hdesc]
    exact ⟨false, p, _, rfl, .inl ⟨rfl, rfl⟩⟩
  · rw [hmap, hdesc]
    refine ⟨true, _, _, rfl, .inr ⟨_, rfl, rfl, ⟨?_, ?_⟩, ?_, ?_⟩⟩
    · exact hT₂.free
    · intro q hq
      have hwf₃ := (hwf₂.storeLeaf (i := ptIndex v) ha₁ (p := pathOf v) rfl (hpath t rfl)
        (leafEntry f (flags ||| pteUser))).1
      exact (hwf₂.tableAt_eq hwf₃ ha₁ ha₁ (fun _ _ _ => Iff.rfl) hq).trans (hT₂.tables q hq)
    · intro q i hq
      have hview := (hwf₂.storeLeaf (i := ptIndex v) ha₁ (p := pathOf v) rfl (hpath t rfl)
        (leafEntry f (flags ||| pteUser))).2 ha₁ q hq i
      have hold : view k₂.mem p.cr3 q = view k.mem p.cr3 q :=
        (hviews₂ a _ ha₁ q hq).trans (hviews₁ a _ ha q hq)
      show presentUser (view (k₂.store t (ptIndex v) _).mem p.cr3 q i) ↔ _
      rw [show view _ p.cr3 q i = _ from hview, List.mem_cons]
      by_cases hplace : q = pathOf v ∧ i = ptIndex v
      · rw [if_pos ⟨rfl, hplace.1, hplace.2⟩, hplace.1, hplace.2]
        exact iff_of_true (leafEntry_opens hal.frame huser).1 (.inl rfl)
      · have hne : q ++ [i] ≠ keyOf v := by
          intro heq
          obtain ⟨hq', hi⟩ := List.append_inj' heq rfl
          exact hplace ⟨hq', List.cons.inj hi |>.1⟩
        rw [if_neg fun hc => hplace hc.2, show view k₂.mem _ q i = _ from congrFun hold i,
          or_iff_right hne]
        exact hF.keys q i hq
    · show (p.pages ++ [f]).length = (keyOf v :: P.keys).length
      rw [List.length_append, hcount]
      rfl

/-- A sequence of pages follows the plan. -/
theorem Follows.mapAll {p : UProc} (hF : Follows k ⟨p.cr3, p.pages⟩ P) (h : Good k sp)
    (ha : sp a = some ⟨p.cr3, p.pages⟩) (hu : p.isUser) (flags : Word) {vs : List Word}
    (hvs : ∀ v ∈ vs, v.toNat < 2 ^ 64 - 4096) :
    ∃ ok p' k', mapAll flags vs p k = some (ok, p', k') ∧
      ((ok = false ∧ P.mapPages vs = none) ∨
        ∃ P', ok ∧ P.mapPages vs = some P' ∧ Follows k' ⟨p'.cr3, p'.pages⟩ P') := by
  induction vs generalizing sp k p P with
  | nil => exact ⟨true, p, k, rfl, .inr ⟨P, rfl, rfl, hF⟩⟩
  | cons v vs ih =>
    obtain ⟨ok, p₁, k₁, hmap, hres⟩ := hF.mapUserPage h ha hu flags
      (hvs v List.mem_cons_self)
    have hmaps := processMapUserPage_cases hmap
    rw [ProcessMemory.mapAll, hmap, Plan.mapPages]
    rcases hres with ⟨rfl, hnone⟩ | ⟨P₁, rfl, hsome, hF₁⟩
    · rw [hnone]
      exact ⟨false, p₁, k₁, rfl, .inl ⟨rfl, rfl⟩⟩
    · rw [hsome]
      exact ih hF₁ (h.mapUserPage ha hmaps) (Function.update_self ..)
        (by rw [hmaps.proc]; exact hu) (fun w hw => hvs w (List.mem_cons_of_mem v hw))

/-! ## A new process -/

/-- The plan of a new process: its slot, and its space with the fixed pages. -/
def planCreate (s : PSys) : Option (Nat × Plan) :=
  (findUnused s.procs (maxProcesses - 1) 1).bind fun i =>
    ((Plan.create (freeFrames s.k)).bind fun P => P.mapPages fixedPages).map fun P => (i, P)

theorem fixedPages_lt : ∀ v ∈ fixedPages, v.toNat < 2 ^ 64 - 4096 := by
  intro v hv
  have hall : fixedPages.all (fun v => v < 0xFFFFFFFFFFFFF000#64) := by decide
  exact BitVec.lt_def.mp (of_decide_eq_true (List.all_eq_true.mp hall v hv))

/-- A fresh space follows the fresh plan. -/
theorem Follows.create {r : Word} {k₁ : KState} (hcons : freeFrames k = r :: fs)
    (hal : Allocates k r k₁) : Follows { k₁ with mem := k₁.mem.setPage r (kernelEntry []) } ⟨r, []⟩
      ⟨fs, fun q => if q = [] then some r else none, []⟩ := by
  have htab := tableAt_kernelRoot (m := k₁.mem.setPage r (kernelEntry [])) (r := r)
    (Mem.setPage_same ..)
  refine ⟨⟨freeFrames_taken hcons hal.used, fun q _ => htab q⟩, ?_, rfl⟩
  intro q i hq
  have hne : q ≠ [] := by
    rintro rfl
    cases hq
  rw [view_of_none ((htab q).trans (if_neg hne)), presentUser_kernelEntry]
  simp

variable {s : PSys}

/-- **`process_create` follows the plan.** -/
theorem processCreate_follows (h : Inv s) : ∃ r s', processCreate s = some (r, s') ∧ s'.nx = s.nx ∧
      ((r = none ∧ planCreate s = none) ∨
        ∃ i P, r = some i ∧ planCreate s = some (i, P) ∧ live s' i ∧
          (s'.procs i).isUser ∧ Follows s'.k ⟨(s'.procs i).cr3, (s'.procs i).pages⟩ P) := by
  rw [processCreate, planCreate]
  cases hslot : findUnused s.procs (maxProcesses - 1) 1 with
  | none => exact ⟨none, s, rfl, rfl, .inl ⟨rfl, rfl⟩⟩
  | some i =>
    obtain ⟨hi, hst⟩ := findUnused_spec hslot
    have hrange : 1 ≤ i ∧ i < maxProcesses := by
      simp only [maxProcesses] at hi ⊢
      omega
    have hnone : spaces s.procs i = none := by
      rw [spaces, if_pos hrange, space, if_pos hst]
    simp only [Option.bind_some]
    rcases Good.create h hnone with ⟨h0, hcr⟩ | ⟨r, k₁, halloc, hal, hcr, hgood⟩
    · rcases pmmAllocPage_free s.k with ⟨hnil, -⟩ | ⟨f, fs, k', -, halloc, hal⟩
      · rw [hcr, hnil]
        exact ⟨none, _, rfl, rfl, .inl ⟨rfl, rfl⟩⟩
      · rw [halloc] at h0
        exact absurd h0 hal.frame.ne_zero
    · rcases pmmAllocPage_free s.k with ⟨-, halloc'⟩ | ⟨f, fs, k', hcons, halloc', -⟩
      · rw [halloc] at halloc'
        exact absurd (Prod.mk.inj halloc').1 hal.frame.ne_zero
      · cases halloc.symm.trans halloc'
        rw [hcr, hcons]
        simp only [if_neg hal.frame.ne_zero]
        obtain ⟨ok, p, k₂, hmap, hres⟩ := (Follows.create hcons hal).mapAll
          (p := ⟨s.nextPid, (s.procs i).state, true, r, false, []⟩)
          hgood (Function.update_self ..) rfl (dataFlags s.nx) fixedPages_lt
        rw [hmap]
        rcases hres with ⟨rfl, hplan⟩ | ⟨P, rfl, hplan, hF⟩
        · refine ⟨none, _, rfl, rfl, .inl ⟨rfl, ?_⟩⟩
          simp only [Plan.create, Option.bind_some, hplan, Option.map_none]
        · have hproc := (hgood.mapAll (Function.update_self ..) hmap).2
          refine ⟨some i, _, rfl, rfl, .inr ⟨i, P, rfl, ?_, ?_, ?_, ?_⟩⟩
          · simp only [Plan.create, Option.bind_some, hplan, Option.map_some]
          · refine live_iff.mpr ⟨hrange, ?_⟩
            show (upd s.procs i { p with state := .loading } i).state ≠ .unused
            rw [upd_same]
            simp
          · show (upd s.procs i { p with state := .loading } i).isUser
            rw [upd_same, hproc]
          · show Follows k₂ ⟨(upd s.procs i { p with state := .loading } i).cr3,
              (upd s.procs i { p with state := .loading } i).pages⟩ P
            rw [upd_same]
            exact hF

end FramePlan
