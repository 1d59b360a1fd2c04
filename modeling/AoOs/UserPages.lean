import AoOs.LoaderPlan
import AoOs.PageBytes

/-! # The user pages of a process — flags and bytes

    What a process can see in user mode is a partial map from page numbers to
    flags, and a byte for every address (`Contents`).  `process_map_user_page` adds
    a page of zeroes, or does nothing when the page is there, whatever flags it is
    called with; the copies into a process write the bytes of their range.  The
    tables, the frames and the memory behind them are related to the contents once
    (`Holds`), and the operations of `process.c` follow it (`Filled.mapUserPage`,
    `Filled.writeLoop`). -/

namespace UserPages

open Paging Vmm ProcessMemory AddressSpace Isolation FramePlan PageBytes UserPointer

variable {k k' : KState} {sp : Nat → Option Space} {own : Word → Option (Owner Nat)} {a : Nat}
  {S : Space}

/-! ## Contents -/

/-- The user pages of an address space by number, with their flags, and the bytes by
    address. -/
structure Contents where
  flags : Nat → Option Word
  byte : Nat → Byte

namespace Contents

/-- Nothing is mapped. -/
def empty : Contents := ⟨fun _ => none, fun _ => 0#8⟩

/-- A page is added, unless it is there. -/
def map (M : Contents) (n : Nat) (fl : Word) : Contents :=
  if M.flags n = none then { M with flags := fun x => if x = n then some fl else M.flags x } else M

/-- The bytes from `lo` to `lo + n` are replaced. -/
def write (M : Contents) (lo n : Nat) (src : Nat → Byte) : Contents :=
  { M with byte := fun x => if lo ≤ x ∧ x < lo + n then src (x - lo) else M.byte x }

theorem write_zero (M : Contents) (lo : Nat) (src : Nat → Byte) : M.write lo 0 src = M := by
  have hbyte : (M.write lo 0 src).byte = M.byte := by
    funext x
    exact if_neg (by omega)
  rw [write] at hbyte ⊢
  exact congrArg (Contents.mk M.flags) hbyte

/-- One range after another is the whole. -/
theorem write_write (M : Contents) (lo n r : Nat) (src : Nat → Byte) :
    (M.write lo n src).write (lo + n) r (fun j => src (n + j)) = M.write lo (n + r) src := by
  rw [write, write, write]
  congr 1
  funext x
  dsimp only
  by_cases hlow : x < lo
  · rw [if_neg (by omega), if_neg (by omega), if_neg (by omega)]
  · by_cases hn : x < lo + n
    · rw [if_neg (by omega), if_pos (by omega), if_pos (by omega)]
    · by_cases hr : x < lo + n + r
      · rw [if_pos (by omega), if_pos (by omega)]
        congr 1
        omega
      · rw [if_neg (by omega), if_neg (by omega), if_neg (by omega)]

end Contents

variable {M : Contents}

/-! ## Contents and tables -/

/-- The entry of an address in its page table. -/
abbrev entryAt (m : Mem) (S : Space) (v : Word) : Word := view m S.root (pathOf v) (ptIndex v)

/-- The entries that lead to private tables are writable and executable. -/
def Uppers (m : Mem) (S : Space) : Prop :=
  ∀ q t i, q.length < 3 → tableAt m S.root q = some t → child (m t i) ≠ none →
    has (m t i) pteWritable ∧ has (m t i) pteNx = false

/-- A space has the contents `M`. -/
structure Holds (m : Mem) (S : Space) (M : Contents) : Prop where
  closed : ∀ v, M.flags (pageNum v) = none → presentUser (entryAt m S v) = false
  opened : ∀ v fl, M.flags (pageNum v) = some fl → has fl pteUser ∧
    ∃ f ∈ S.pages, entryAt m S v = leafEntry f fl ∧
      ∀ j < 4096, pageByte (m f) j = M.byte (pageNum v * 4096 + j)
  /-- No frame is mapped twice. -/
  apart : ∀ v w, presentUser (entryAt m S v) → presentUser (entryAt m S w) →
    addrOf (entryAt m S v) = addrOf (entryAt m S w) → pageNum v = pageNum w
  blank : ∀ x, M.flags (x / 4096) = none → M.byte x = 0#8
  uppers : Uppers m S

/-- Process `p` in slot `a` has the contents `M`, among spaces that are good. -/
def Filled (k : KState) (a : Nat) (p : UProc) (M : Contents) : Prop :=
  ∃ sp, Good k sp ∧ sp a = some ⟨p.cr3, p.pages⟩ ∧ Holds k.mem ⟨p.cr3, p.pages⟩ M

/-! ## The levels of `vmm_map_page_in` -/

/-- The kernel's tables do without the no-execute bit. -/
theorem kernelEntry_nx {q : List Index} (hq : q.length < 2) (i : Index) :
    has (kernelEntry q i) pteNx = false := by
  match q with
  | [] => revert i; decide
  | [b] =>
    rw [kernelEntry]
    split
    · revert i; decide
    · decide
  | _ :: _ :: _ => simp at hq

theorem parentFlags_rights (flags : Word) :
    has (parentFlags flags) pteWritable ∧ has (parentFlags flags) pteNx = false := by
  rw [parentFlags]
  split <;> decide

section Levels

variable {q : List Index} {t c : Word} {i : Index} {flags : Word}

/-- A table that is hung in with an entry of all rights. -/
theorem uppers_hangs {x : Table} {e : Word} (h : Wf k sp own) (ha : sp a = some S)
    (hq : q.length < 3) (ht : tableAt k.mem S.root q = some t) (hh : Hangs k t i c x e k')
    (hn : NewTable k sp a q i c k') (he : has e pteWritable ∧ has e pteNx = false)
    (hu : Uppers k.mem S) : Uppers k'.mem S := by
  have htc : t ≠ c := h.table_fresh ha (by omega) ht hh.free
  intro q' t' j hq' ht' hchild
  rw [hn.tableAt h ha (by omega)] at ht'
  split at ht'
  · -- the new table has entries of the kernel only
    cases ht'
    obtain ⟨S', t₀, v, ha', -, ht₀, -, -, -, hmem⟩ := hn.place
    obtain rfl : S = S' := Option.mem_unique ha ha'
    obtain rfl : t = t₀ := Option.mem_unique ht ht₀
    rw [hmem, Mem.set_table _ _ _ _ htc.symm, Mem.setPage_same, child_kernelEntry] at hchild
    exact absurd rfl hchild
  · have ht'c : t' ≠ c := h.table_fresh ha (by omega) ht' hh.free
    by_cases hplace : t' = t ∧ j = i
    · rw [hplace.1, hplace.2, hh.mem, Mem.set_same]
      exact he
    · have hsame : k'.mem t' j = k.mem t' j := by
        rw [hh.mem, Mem.set, if_neg hplace, Mem.setPage_other _ _ ht'c]
      rw [hsame] at hchild ⊢
      exact hu q' t' j hq' ht' hchild

/-- **A level keeps the rights of the entries and the pages of the space.** -/
theorem level_keeps {last : Bool} {r : Option Word} (h : Wf k sp own) (ha : sp a = some S)
    (hq : q.length = 2 ∧ last ∨ q.length < 2 ∧ last = false) (ht : tableAt k.mem S.root q = some t)
    (hf : has flags pteUser) (hl : Level k S.root flags last t i r k') (hu : Uppers k.mem S) :
    Uppers k'.mem S ∧ ∀ g ∈ S.pages, k'.mem g = k.mem g := by
  have hroot := h.root_ne_kernel ha
  have hfm := hl.findsOrMakes h ha ht hroot hq hf
  -- a table is hung in: its frame was free, and the entry is in a table
  have hhung : ∀ {c x e k'}, Hangs k t i c x e k' → FindsOrMakes k sp a S q i (some c) k' →
      child (k.mem t i) = none → has e pteWritable ∧ has e pteNx = false →
      Uppers k'.mem S ∧ ∀ g ∈ S.pages, k'.mem g = k.mem g := by
    intro c x e k' hh hfm hnone he
    cases hfm with
    | finds hc =>
      rw [tableAt_snoc ht, hnone] at hc
      cases hc
    | makes _ hn =>
      refine ⟨uppers_hangs h ha (by omega) ht hh hn he hu, fun g hg => ?_⟩
      funext j
      rw [hh.mem, Mem.set_table _ _ _ _ (h.page_ne_table ha (by omega) ht hg),
        Mem.setPage_other _ _ (h.page_fresh ha hg hh.free)]
  obtain ⟨hW, hN⟩ := parentFlags_rights flags
  have hmade : ∀ {c}, IsPage c →
      has (madeEntry c flags) pteWritable ∧ has (madeEntry c flags) pteNx = false := by
    intro c hc
    rw [has_madeEntry hc (by decide), has_madeEntry hc (by decide), hW, hN]
    decide
  cases hl with
  | full => exact ⟨hu, fun _ _ => rfl⟩
  | found hP hshare hhuge =>
    obtain ⟨-, hopen⟩ := found_private h ha ht hroot hq hP hshare hhuge
    rw [opened_eq fun _ => (has_of_presentUser hopen).2, KState.store_self]
    exact ⟨hu, fun _ _ => rfl⟩
  | made hP hh => exact hhung hh hfm (by rw [child, hP]; rfl) (hmade hh.frame.isPage)
  | copied hlast _ hP hV hh =>
    have hq2 : q.length < 2 := by
      rcases hq with ⟨-, hq⟩ | ⟨hq, -⟩
      · cases hlast.symm.trans hq
      · exact hq
    have hnone : child (k.mem t i) = none := by
      rw [child, hV, Bool.and_false, Bool.false_and]
      rfl
    have he : k.mem t i = kernelEntry q i :=
      (h.upper ha (by omega) ht i).resolve_right fun hne => hne.1 hnone
    refine hhung hh hfm hnone ?_
    rw [has_copiedEntry hh.frame.isPage (by decide), has_copiedEntry hh.frame.isPage (by decide),
      hW, hN, he, kernelEntry_nx hq2]
    simp
    decide
  | split _ hP hH hh =>
    exact hhung hh hfm (by rw [child, hH, Bool.not_true, Bool.and_false]; rfl)
      (hmade hh.frame.isPage)

end Levels

variable {p : UProc}

theorem Filled.cr3_ne_zero (h : Filled k a p M) : p.cr3 ≠ 0#64 := by
  obtain ⟨sp, ⟨own, hwf, -⟩, ha, -⟩ := h
  exact (hwf.root_frame ha).ne_zero

/-! ## Mapping a page -/

/-- What a `process_map_user_page` that succeeds has done. -/
theorem processMapUserPage_true {p p' : UProc} {v fl : Word} (hv : v.toNat < 2 ^ 64 - 4096)
    (h : processMapUserPage p v fl k = some (true, p', k')) :
    (vmmUserPageOk k.mem p.cr3 v ∧ p' = p ∧ k' = k) ∨
      (vmmUserPageOk k.mem p.cr3 v = false ∧ ∃ f k₁, Allocates k f k₁ ∧
        vmmMapPageIn p.cr3 v f (fl ||| pteUser)
          { k₁ with mem := k₁.mem.setPage f fun _ => 0#64 } = (true, k') ∧
        p' = { p with pages := p.pages ++ [f] }) := by
  rw [processMapUserPage] at h
  split at h
  · cases h
  rw [vmmUserRangeOk_page _ _ hv, Option.map_some] at h
  cases hok : vmmUserPageOk k.mem p.cr3 v with
  | true =>
    rw [hok] at h
    obtain ⟨-, h⟩ := Prod.mk.inj (Option.some.inj h)
    exact .inl ⟨rfl, (Prod.mk.inj h).1.symm, (Prod.mk.inj h).2.symm⟩
  | false =>
    refine .inr ⟨rfl, ?_⟩
    rw [hok] at h
    simp only [Bool.false_eq_true, if_false] at h
    split at h
    · cases h
    · rcases pmmAllocPage_cases k with halloc | ⟨f, k₁, halloc, hal⟩
      · rw [halloc] at h
        cases h
      · rw [halloc] at h
        simp only [if_neg hal.frame.ne_zero] at h
        rcases hmap : vmmMapPageIn p.cr3 v f (fl ||| pteUser)
          { k₁ with mem := k₁.mem.setPage f fun _ => 0#64 } with ⟨_ | _, k₂⟩
        · rw [hmap] at h
          cases h
        · rw [hmap] at h
          obtain ⟨-, h⟩ := Prod.mk.inj (Option.some.inj h)
          cases h
          exact ⟨f, k₁, hal, hmap, rfl⟩

/-- The address in the entry of a page that is open. -/
theorem Holds.addrOf_mem (h : Holds k.mem S M) (hwf : Wf k sp own) (ha : sp a = some S) {v : Word}
    (hv : presentUser (entryAt k.mem S v)) : addrOf (entryAt k.mem S v) ∈ S.pages := by
  cases hfl : M.flags (pageNum v) with
  | none => exact absurd ((h.closed v hfl).symm.trans hv) nofun
  | some fl =>
    obtain ⟨hu, f, hf, he, -⟩ := h.opened v fl hfl
    rw [he, (leafEntry_opens (hwf.page_frame ha hf) hu).2]
    exact hf

theorem pageByte_zero (j : Nat) : pageByte (fun _ => 0#64) j = 0#8 := by
  rw [pageByte, BitVec.zero_ushiftRight]
  rfl

/-- A page of zeroes is mapped where there was none. -/
theorem Holds.map {f v fl : Word} {k₁ k₂ : KState} {t : Word} {S' : Space}
    {sp' : Nat → Option Space} {own₂ : Word → Option (Owner Nat)} (h : Holds k.mem S M)
    (hwf : Wf k sp own) (ha : sp a = some S) (hS' : S' = { S with pages := S.pages ++ [f] })
    (hal : Allocates k f k₁) (hu : has fl pteUser) (hwf₂ : Wf k₂ sp' own₂) (ha' : sp' a = some S')
    (ht : tableAt k₂.mem S.root (pathOf v) = some t)
    (hviews : ∀ q, q.length = 3 → view k₂.mem S.root q = view k.mem S.root q)
    (hpages : ∀ g ∈ S.pages, k₂.mem g = k.mem g) (hf : k₂.mem f = fun _ => 0#64)
    (hup : Uppers k₂.mem S') (hnone : M.flags (pageNum v) = none) :
    Holds (k₂.store t (ptIndex v) (leafEntry f fl)).mem S' (M.map (pageNum v) fl) := by
  subst hS'
  obtain ⟨hwf₃, hview₃⟩ := hwf₂.storeLeaf (i := ptIndex v) ha' (p := pathOf v) rfl ht
    (leafEntry f fl)
  obtain ⟨hopen, haddr⟩ := leafEntry_opens hal.frame hu
  have hfree : f ∉ S.pages := fun hf => hwf.page_fresh ha hf hal.free rfl
  -- the entries afterwards
  have hentry : ∀ w, entryAt (k₂.store t (ptIndex v) (leafEntry f fl)).mem
      { S with pages := S.pages ++ [f] } w =
        if pageNum w = pageNum v then leafEntry f fl else entryAt k.mem S w := by
    intro w
    rw [entryAt, hview₃ ha' (pathOf w) rfl]
    by_cases hw : pageNum w = pageNum v
    · rw [if_pos hw, if_pos ⟨rfl, pageNum_eq_iff.mp hw⟩]
    · rw [if_neg hw, if_neg fun hc => hw (pageNum_eq_iff.mpr hc.2)]
      exact congrFun (hviews (pathOf w) rfl) (ptIndex w)
  have hmem : ∀ g ∈ S.pages ++ [f], (k₂.store t (ptIndex v) (leafEntry f fl)).mem g = k₂.mem g := by
    exact fun g hg => funext fun j =>
      Mem.set_table _ _ _ _ (hwf₂.page_ne_table ha' (by simp [pathOf]) ht hg)
  have hflags : ∀ n, (M.map (pageNum v) fl).flags n =
      if n = pageNum v then some fl else M.flags n := by
    intro n
    rw [Contents.map, if_pos hnone]
  have hbyte : (M.map (pageNum v) fl).byte = M.byte := by
    rw [Contents.map, if_pos hnone]
  refine ⟨?_, ?_, ?_, ?_, ?_⟩
  · intro w hw
    rw [hflags] at hw
    split at hw
    · cases hw
    · rename_i hne
      rw [hentry, if_neg hne]
      exact h.closed w hw
  · intro w g hw
    rw [hflags] at hw
    rw [hentry, hbyte]
    split at hw
    · rename_i heq
      cases hw
      rw [if_pos heq]
      refine ⟨hu, f, List.mem_append_right _ (List.mem_singleton_self f), rfl, fun j hj => ?_⟩
      rw [hmem f (List.mem_append_right _ (List.mem_singleton_self f)), hf, pageByte_zero, heq,
        h.blank]
      rwa [show (pageNum v * 4096 + j) / 4096 = pageNum v by omega]
    · rename_i hne
      rw [if_neg hne]
      obtain ⟨hg, f', hf', he, hbytes⟩ := h.opened w g hw
      refine ⟨hg, f', List.mem_append_left _ hf', he, fun j hj => ?_⟩
      rw [hmem f' (List.mem_append_left _ hf'), hpages f' hf']
      exact hbytes j hj
  · intro w w' hw hw' heq
    rw [hentry] at hw hw' heq
    rw [hentry w'] at heq
    split at hw
    · split at hw'
      · rename_i h1 h2
        exact h1.trans h2.symm
      · -- the frame of another page was not free
        rename_i h1 h2
        rw [if_pos h1, if_neg h2, haddr] at heq
        exact absurd (heq ▸ h.addrOf_mem hwf ha hw') hfree
    · split at hw'
      · rename_i h1 h2
        rw [if_neg h1, if_pos h2, haddr] at heq
        exact absurd (heq ▸ h.addrOf_mem hwf ha hw) hfree
      · rename_i h1 h2
        rw [if_neg h1, if_neg h2] at heq
        exact h.apart w w' hw hw' heq
  · intro x hx
    rw [hflags] at hx
    rw [hbyte]
    split at hx
    · cases hx
    · exact h.blank x hx
  · -- the store is in a page table, below all entries this is about
    intro q u j hq htab hchild
    rw [hwf₂.tableAt_eq hwf₃ ha' ha' (fun _ _ _ => Iff.rfl) (by omega)] at htab
    have hne : u ≠ t := by
      rintro rfl
      rw [(hwf₂.table_inj ha' (by simp [pathOf]) ht ha' (by omega) htab).2] at hq
      exact absurd hq (by simp [pathOf])
    have hsame : (k₂.store t (ptIndex v) (leafEntry f fl)).mem u j = k₂.mem u j :=
      Mem.set_table _ _ _ _ hne
    rw [hsame] at hchild ⊢
    exact hup q u j hq htab hchild

/-- **`process_map_user_page`**: a page of zeroes with the flags it is called with, or
    nothing if the page is there. -/
theorem Filled.mapUserPage {p p' : UProc} {v fl : Word} (h : Filled k a p M)
    (hv : v.toNat < 2 ^ 64 - 4096) (hm : processMapUserPage p v fl k = some (true, p', k')) :
    Filled k' a p' (M.map (pageNum v) (fl ||| pteUser)) := by
  obtain ⟨sp, hgood, ha, hholds⟩ := h
  obtain ⟨own, hwf, -⟩ := id hgood
  have hok := userPageOk_view hwf ha v
  rcases processMapUserPage_true hv hm with ⟨hmapped, rfl, rfl⟩ | ⟨hmapped, f, k₁, hal, hmap, hp'⟩
  · have hsome : M.flags (pageNum v) ≠ none := by
      intro hnone
      rw [hmapped] at hok
      cases hok.trans (hholds.closed v hnone)
    rw [Contents.map, if_neg hsome]
    exact ⟨sp, hgood, ha, hholds⟩
  · have hgood' := hgood.mapUserPage ha (processMapUserPage_cases hm)
    refine ⟨_, hgood', Function.update_self .., ?_⟩
    have hnone : M.flags (pageNum v) = none := by
      cases hfl : M.flags (pageNum v) with
      | none => rfl
      | some g =>
        obtain ⟨hg, f', hf', he, -⟩ := hholds.opened v g hfl
        rw [hmapped, show view _ _ _ _ = _ from he,
          (leafEntry_opens (hwf.page_frame ha hf') hg).1] at hok
        cases hok
    have huser : has (fl ||| pteUser) pteUser := by
      rw [has_or, show has pteUser pteUser by decide, Bool.or_true]
    -- the frame is cleared and counted, then the levels are passed
    obtain ⟨own₁, hwf₁, hviews₁, htab₁⟩ := hgood.takePage ha hal
    have ha₁ := Function.update_self a (some (⟨p.cr3, p.pages ++ [f]⟩ : Space)) sp
    have hpages₁ : ∀ g ∈ p.pages, (k₁.mem.setPage f fun _ => 0#64) g = k.mem g := by
      intro g hg
      rw [Mem.setPage_other _ _ (hwf.page_fresh ha hg hal.free), hal.mem]
    have hup₁ : Uppers (k₁.mem.setPage f fun _ => 0#64) ⟨p.cr3, p.pages ++ [f]⟩ := by
      intro q u j hq htab hchild
      rw [show tableAt _ p.cr3 q = _ from htab₁ q (by omega)] at htab
      rw [Mem.setPage_other _ _ (hwf.table_fresh ha (by omega) htab hal.free), hal.mem] at hchild ⊢
      exact hholds.uppers q u j hq htab hchild
    obtain ⟨r, k₂, hd, ⟨hup₂, hpages₂⟩, hmap₂⟩ := mapPage_levels
      (fun k₂ => Uppers k₂.mem ⟨p.cr3, p.pages ++ [f]⟩ ∧
        ∀ g ∈ p.pages ++ [f], k₂.mem g = (k₁.mem.setPage f fun _ => 0#64) g)
      hwf₁ ha₁ v f huser (fun hwf hq ht hl hI =>
        have hkeeps := level_keeps hwf ha₁ hq ht (by rw [has_not_mask (by decide), huser]) hl hI.1
        ⟨hkeeps.1, fun g hg => (hkeeps.2 g hg).trans (hI.2 g hg)⟩) ⟨hup₁, fun _ _ => rfl⟩
    obtain ⟨⟨own₂, hwf₂⟩, hviews₂, hpath⟩ := hd.wf hwf₁ ha₁ (by simp [pathOf])
    cases r with
    | none => cases hmap₂.symm.trans hmap
    | some t =>
      cases hmap₂.symm.trans hmap
      rw [hp']
      refine hholds.map hwf ha rfl hal huser hwf₂ ha₁ (hpath t rfl) ?_ ?_ ?_ hup₂ hnone
      · intro q hq
        exact (hviews₂ a _ ha₁ q hq).trans (hviews₁ a _ ha q hq)
      · intro g hg
        exact (hpages₂ g (List.mem_append_left _ hg)).trans (hpages₁ g hg)
      · exact (hpages₂ f (List.mem_append_right _ (List.mem_singleton_self f))).trans
          (Mem.setPage_same ..)

/-- The pages of a list, one after the other. -/
def Contents.mapPages (M : Contents) (fl : Word) (vs : List Word) : Contents :=
  vs.foldl (fun M v => M.map (pageNum v) (fl ||| pteUser)) M

theorem Filled.mapAll {p p' : UProc} {fl : Word} {vs : List Word} (h : Filled k a p M)
    (hvs : ∀ v ∈ vs, v.toNat < 2 ^ 64 - 4096) (hm : mapAll fl vs p k = some (true, p', k')) :
    Filled k' a p' (M.mapPages fl vs) := by
  induction vs generalizing p k M with
  | nil =>
    obtain ⟨-, hm⟩ := Prod.mk.inj (Option.some.inj hm)
    cases hm
    exact h
  | cons v vs ih =>
    obtain ⟨⟨ok, p₁, k₁⟩, h₁, hrest⟩ := Option.bind_eq_some_iff.mp hm
    cases ok with
    | false => cases hrest
    | true =>
      exact ih (h.mapUserPage (hvs v List.mem_cons_self) h₁)
        (fun w hw => hvs w (List.mem_cons_of_mem v hw)) hrest

/-- **The first mapping of a page gives it its flags.** -/
theorem mapPages_flags (M : Contents) (fl : Word) (vs : List Word) (n : Nat) :
    (M.mapPages fl vs).flags n =
      if M.flags n = none ∧ n ∈ vs.map pageNum then some (fl ||| pteUser) else M.flags n := by
  induction vs generalizing M with
  | nil => simp [Contents.mapPages]
  | cons v vs ih =>
    rw [Contents.mapPages, List.foldl_cons]
    refine (ih _).trans ?_
    have hflags : (M.map (pageNum v) (fl ||| pteUser)).flags n =
        if M.flags n = none ∧ n = pageNum v then some (fl ||| pteUser) else M.flags n := by
      rw [Contents.map]
      by_cases hn : n = pageNum v
      · subst hn
        by_cases hnone : M.flags (pageNum v) = none
        · simp [hnone]
        · simp [hnone]
      · split <;> simp [hn]
    rw [hflags]
    by_cases hnone : M.flags n = none
    · by_cases hn : n = pageNum v
      · subst hn
        simp [hnone]
      · simp [hnone, hn]
    · simp [hnone]

theorem mapPages_byte (M : Contents) (fl : Word) (vs : List Word) :
    (M.mapPages fl vs).byte = M.byte := by
  induction vs generalizing M with
  | nil => rfl
  | cons v vs ih =>
    rw [Contents.mapPages, List.foldl_cons]
    refine (ih _).trans ?_
    rw [Contents.map]
    split <;> rfl

/-! ## Copies -/

/-- The address as a number below 2^48. -/
theorem low_eq (v : Word) : v.toNat % 2 ^ 48 = pageNum v * 4096 + v.toNat % 4096 := by
  rw [pageNum]
  omega

/-- Where a user page is. -/
theorem Filled.physical {v fl : Word} (hwf : Wf k sp own) (ha : sp a = some ⟨p.cr3, p.pages⟩)
    (h : Holds k.mem ⟨p.cr3, p.pages⟩ M) (hv : M.flags (pageNum v) = some fl) :
    ∃ f ∈ p.pages, IsFrame f ∧ entryAt k.mem ⟨p.cr3, p.pages⟩ v = leafEntry f fl ∧
      vmmGetPhysicalIn k.mem p.cr3 v = f + (v &&& 0xFFF#64) ∧
      ∀ j < 4096, pageByte (k.mem f) j = M.byte (pageNum v * 4096 + j) := by
  obtain ⟨hu, f, hf, he, hbytes⟩ := h.opened v fl hv
  have hframe := hwf.page_frame ha hf
  obtain ⟨hopen, haddr⟩ := leafEntry_opens hframe hu
  refine ⟨f, hf, hframe, he, ?_, hbytes⟩
  rw [vmmGetPhysicalIn_eq _ (hwf.addrOf_root_ne_zero ha), translate_view hwf ha v, viewTranslate,
    show view _ _ _ _ = _ from he, if_pos (has_of_presentUser hopen).1, haddr]
  rfl

/-- A copy into the page of `v`, which is in frame `f`. -/
theorem Holds.copy {f v fl : Word} {n : Nat} (h : Holds k.mem S M) (hwf : Wf k sp own)
    (ha : sp a = some S) (hfl : M.flags (pageNum v) = some fl) (hf : f ∈ S.pages)
    (hframe : IsFrame f) (hentry : entryAt k.mem S v = leafEntry f fl)
    (hbytes : ∀ j < 4096, pageByte (k.mem f) j = M.byte (pageNum v * 4096 + j))
    (hn : v.toNat % 4096 + n ≤ 4096) (src : Nat → Byte) {m : Mem}
    (hm : m = copyBytes k.mem (f + (v &&& 0xFFF#64)) n src)
    (hviews : ∀ q, q.length = 3 → view m S.root q = view k.mem S.root q)
    (htab : ∀ q, q.length ≤ 3 → tableAt m S.root q = tableAt k.mem S.root q) :
    Holds m S (M.write (v.toNat % 2 ^ 48) n src) := by
  have hpage := pageOf_page_add hframe.isPage v
  have hoff := toNat_page_add_mod hframe.isPage v
  have hlow := low_eq v
  have hother : ∀ {g : Word}, g ≠ f → m g = k.mem g := by
    intro g hg
    rw [hm]
    exact copyBytes_other _ _ _ (by rwa [hpage])
  have hsame : ∀ w, entryAt m S w = entryAt k.mem S w := fun w =>
    congrFun (hviews (pathOf w) rfl) (ptIndex w)
  obtain ⟨hopen, haddr⟩ := leafEntry_opens hframe (h.opened v fl hfl).1
  refine ⟨?_, ?_, ?_, ?_, ?_⟩
  · intro w hw
    rw [hsame]
    exact h.closed w hw
  · intro w g hw
    rw [hsame]
    obtain ⟨hg, f', hf', he, hbytes'⟩ := h.opened w g hw
    obtain ⟨hopen', haddr'⟩ := leafEntry_opens (hwf.page_frame ha hf') hg
    refine ⟨hg, f', hf', he, fun j hj => ?_⟩
    by_cases hpn : pageNum w = pageNum v
    · -- the page that is written to
      obtain ⟨hpath, hidx⟩ := pageNum_eq_iff.mp hpn
      obtain rfl : f' = f := by
        rw [← haddr, ← haddr', ← he, ← hentry, entryAt, entryAt, hpath, hidx]
      have hpatch := pageByte_copyBytes k.mem (f' + (v &&& 0xFFF#64)) n src hj
      rw [hpage, hoff, hbytes j hj, ← hm] at hpatch
      rw [hpatch, hpn, Contents.write, hlow]
      dsimp only
      by_cases hr : v.toNat % 4096 ≤ j ∧ j < v.toNat % 4096 + n
      · rw [if_pos hr, if_pos (by omega)]
        congr 1
        omega
      · rw [if_neg hr, if_neg (by omega)]
    · have hne : f' ≠ f := by
        rintro rfl
        refine hpn (h.apart w v ?_ ?_ ?_)
        · rw [he]
          exact hopen'
        · rw [hentry]
          exact hopen
        · rw [he, hentry, haddr, haddr']
      rw [hother hne, hbytes' j hj, Contents.write, hlow]
      dsimp only
      rw [if_neg (by omega)]
  · intro w w' hw hw' heq
    rw [hsame] at hw hw' heq
    rw [hsame] at heq
    exact h.apart w w' hw hw' heq
  · intro x hx
    have hx' : M.flags (x / 4096) = none := hx
    rw [Contents.write]
    dsimp only
    rw [if_neg, h.blank x hx']
    rintro ⟨hle, hlt⟩
    rw [show x / 4096 = pageNum v by omega, hfl] at hx'
    cases hx'
  · intro q u j hq hu hchild
    rw [htab q (by omega)] at hu
    rw [hother (hwf.page_ne_table ha (by omega) hu hf).symm] at hchild ⊢
    exact h.uppers q u j hq hu hchild

/-- **A copy within a page.** -/
theorem Filled.copy {v : Word} {n : Nat} (h : Filled k a p M) (hv : M.flags (pageNum v) ≠ none)
    (hn : v.toNat % 4096 + n ≤ 4096) (src : Nat → Byte) :
    vmmGetPhysicalIn k.mem p.cr3 v ≠ 0#64 ∧
      Filled { k with mem := copyBytes k.mem (vmmGetPhysicalIn k.mem p.cr3 v) n src } a p
        (M.write (v.toNat % 2 ^ 48) n src) := by
  obtain ⟨sp, hgood, ha, hholds⟩ := h
  obtain ⟨own, hwf, -⟩ := id hgood
  obtain ⟨fl, hfl⟩ := Option.ne_none_iff_exists'.mp hv
  obtain ⟨f, hf, hframe, hentry, hphys, hbytes⟩ := Filled.physical hwf ha hholds hfl
  have hpage := pageOf_page_add hframe.isPage v
  rw [hphys]
  refine ⟨fun hzero => ?_, ?_⟩
  · -- the frame would be the zero page
    rw [hzero] at hpage
    exact hframe.ne_zero (hpage.symm.trans (by decide))
  · have hin : pageOf (f + (v &&& 0xFFF#64)) ∈ p.pages := by rwa [hpage]
    obtain ⟨hgood', hviews, htab⟩ := hgood.write ha hin n src
    exact ⟨sp, hgood', ha, hholds.copy hwf ha hfl hf hframe hentry hbytes hn src rfl
      (hviews a _ ha) (htab a _ ha)⟩

/-- **`process_write_user` and `process_zero_user` write the bytes of their range.** -/
theorem Filled.writeLoop (h : Filled k a p M) (src : Nat → Byte) (virt size : Word)
    (hlow : size ≠ 0#64 → virt.toNat + size.toNat ≤ 2 ^ 48)
    (hflags : ∀ j < size.toNat, M.flags (pageNum (virt + BitVec.ofNat 64 j)) ≠ none) :
    ∃ k', writeLoop p.cr3 src size.toNat virt 0 size k = (true, k') ∧
      Filled k' a p (M.write virt.toNat size.toNat src) := by
  refine writeLoop_rule (fun d k => Filled k a p (M.write virt.toNat d src))
    (fun {k d n} h hn hd hpage => ?_) (by rwa [Contents.write_zero])
  have hlow := hlow (by rintro rfl; exact absurd hd (by simp; omega))
  have haddr : (virt + BitVec.ofNat 64 d).toNat % 2 ^ 48 = virt.toNat + d := by
    rw [BitVec.toNat_add, BitVec.toNat_ofNat]
    omega
  have hcopy := h.copy (hflags d (by omega)) hpage fun j => src (d + j)
  rwa [haddr, Contents.write_write] at hcopy

/-! ## What ring 3 sees -/

/-- The walk to a page that is open: three entries that lead to private tables, and
    the entry of the page. -/
theorem walk_open (h : Wf k sp own) (ha : sp a = some S) {v : Word}
    (hv : presentUser (entryAt k.mem S v)) :
    ∃ e4 e3 e2, walk k.mem S.root v = [e4, e3, e2, entryAt k.mem S v] ∧
      ∀ e ∈ [e4, e3, e2], ∃ q t i, q.length < 3 ∧ tableAt k.mem S.root q = some t ∧
        k.mem t i = e ∧ child e ≠ none := by
  have hpage : addrOf S.root = S.root := (h.root_frame ha).isPage
  -- a level whose table is missing closes the page
  have hlevel : ∀ {q : List Index} {t : Word} (i : Index), q.length < 3 →
      tableAt k.mem S.root q = some t → tableAt k.mem S.root (q ++ [i]) ≠ none →
      ∃ c, tableAt k.mem S.root (q ++ [i]) = some c ∧ addrOf (k.mem t i) = c ∧
        has (k.mem t i) pteHuge = false ∧ child (k.mem t i) ≠ none := by
    intro q t i hq ht hne
    obtain ⟨c, hc⟩ := Option.ne_none_iff_exists'.mp hne
    have hchild := (tableAt_snoc ht).symm.trans hc
    obtain ⟨-, -, hH, haddr⟩ := child_eq_some hchild
    exact ⟨c, hc, haddr, hH, by rw [hchild]; exact nofun⟩
  have hpath : tableAt k.mem S.root (pathOf v) ≠ none := fun hnone => by
    rw [entryAt, view_absent hnone] at hv
    cases hv
  have h3 : tableAt k.mem S.root ([] ++ [pml4Index v] ++ [pdptIndex v]) ≠ none :=
    fun hnone => hpath (tableAt_none_snoc hnone)
  have h4 : tableAt k.mem S.root ([] ++ [pml4Index v]) ≠ none :=
    fun hnone => h3 (tableAt_none_snoc hnone)
  have h0 : tableAt k.mem S.root [] = some S.root := rfl
  obtain ⟨t3, ht3, ha4, -, hc4⟩ := hlevel (pml4Index v) (by simp) h0 h4
  obtain ⟨t2, ht2, ha3, -, hc3⟩ := hlevel (pdptIndex v) (by simp) ht3 h3
  obtain ⟨t1, ht1, ha2, hH, hc2⟩ := hlevel (pdIndex v) (by simp) ht2 hpath
  refine ⟨k.mem S.root (pml4Index v), k.mem t3 (pdptIndex v), k.mem t2 (pdIndex v), ?_, ?_⟩
  · simp only [walk, hpage, ha4, ha3, ha2, hH, Bool.false_eq_true, if_false]
    rw [entryAt, show view k.mem S.root (pathOf v) = k.mem t1 from view_of_some ht1]
  · intro e he
    simp only [List.mem_cons, List.not_mem_nil, or_false] at he
    rcases he with rfl | rfl | rfl
    · exact ⟨_, _, _, by simp, h0, rfl, hc4⟩
    · exact ⟨_, _, _, by simp, ht3, rfl, hc3⟩
    · exact ⟨_, _, _, by simp, ht2, rfl, hc2⟩

/-- The flags of the entry of a page are those it was mapped with. -/
theorem has_leafEntry {f fl g : Word} (hf : IsFrame f) (hg : IsFlags g)
    (hp : has ptePresent g = false) : has (leafEntry f fl) g = has fl g := by
  rw [leafEntry, has_or, has_or, show addrOf f = f from hf.isPage, has_page hf.isPage hg,
    has_not_mask hg, hp, Bool.false_or, Bool.or_false]

section Access

variable {p : UProc} {v fl : Word}

variable (h : Filled k a p M)

include h

/-- **Ring 3 has access to the pages of the contents.** -/
theorem Filled.access_iff :
    Ring3Access k.mem p.cr3 v ↔ Canonical v ∧ M.flags (pageNum v) ≠ none := by
  obtain ⟨sp, hgood, ha, hholds⟩ := h
  obtain ⟨own, hwf, -⟩ := id hgood
  have hok := vmmUserPageOk_iff k.mem p.cr3 v
  rw [userPageOk_view hwf ha v, and_iff_right (hwf.addrOf_root_ne_zero ha)] at hok
  rw [Ring3Access, ← hok]
  refine and_congr_right fun _ => ?_
  cases hfl : M.flags (pageNum v) with
  | none => exact iff_of_false (fun hc => nomatch (hholds.closed v hfl).symm.trans hc) (· rfl)
  | some fl =>
    obtain ⟨hu, f, hf, he, -⟩ := hholds.opened v fl hfl
    rw [show view _ _ _ _ = _ from he]
    exact iff_of_true (leafEntry_opens (hwf.page_frame ha hf) hu).1 nofun

/-- What the walk to a page grants is what its flags grant. -/
theorem Filled.walk_iff (hfl : M.flags (pageNum v) = some fl) :
    ((∀ e ∈ walk k.mem p.cr3 v, has e pteWritable) ↔ has fl pteWritable) ∧
      ((∀ e ∈ walk k.mem p.cr3 v, has e pteNx = false) ↔ has fl pteNx = false) := by
  obtain ⟨sp, ⟨own, hwf, -⟩, ha, hholds⟩ := h
  obtain ⟨hu, f, hf, he, -⟩ := hholds.opened v fl hfl
  have hframe := hwf.page_frame ha hf
  obtain ⟨e4, e3, e2, hwalk, hupper⟩ := walk_open hwf ha (v := v) (by
    rw [he]
    exact (leafEntry_opens hframe hu).1)
  have hrights : ∀ e ∈ [e4, e3, e2], has e pteWritable ∧ has e pteNx = false := by
    intro e hmem
    obtain ⟨q, t, i, hq, ht, rfl, hchild⟩ := hupper e hmem
    exact hholds.uppers q t i hq ht hchild
  rw [show walk k.mem p.cr3 v = [e4, e3, e2] ++ [leafEntry f fl] from he ▸ hwalk]
  simp only [List.forall_mem_append, List.forall_mem_singleton, has_leafEntry hframe
    (show IsFlags pteWritable by decide) (by decide), has_leafEntry hframe
    (show IsFlags pteNx by decide) (by decide)]
  exact ⟨and_iff_right fun e hmem => (hrights e hmem).1,
    and_iff_right fun e hmem => (hrights e hmem).2⟩

/-- **A byte that ring 3 reads is the byte of the contents.** -/
theorem Filled.loadByte (hv : M.flags (pageNum v) ≠ none) :
    loadByte k.mem p.cr3 v = M.byte (v.toNat % 2 ^ 48) := by
  obtain ⟨sp, ⟨own, hwf, -⟩, ha, hholds⟩ := h
  obtain ⟨fl, hfl⟩ := Option.ne_none_iff_exists'.mp hv
  obtain ⟨f, -, hframe, -, hphys, hbytes⟩ := Filled.physical hwf ha hholds hfl
  rw [loadByte_physical hframe.isPage hphys, hbytes _ (Nat.mod_lt _ (by decide)), low_eq]

end Access

end UserPages
