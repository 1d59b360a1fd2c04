import AoOs.PageTree
import AoOs.MapPage

/-! # Mapping a page changes exactly that page

    `vmm_map_page_in` goes down three levels and stores one entry.  The levels
    change no page's entry in any hierarchy that has the tables on the way at
    the same paths, its own and those that share tables with it (`Walk.keeps`);
    the last store changes one.  A process's mapping stays away from the
    kernel's tables as long as these are the boot loader's and the private marks
    tell the truth (`Walk.kernel`). -/

namespace PageTree

open Paging Vmm PointerTree AddressSpace

variable {res : Option Word} {e v : Word} {is : List Index}

variable {k k' : KState} {cr3 flags r r' t c : Word} {p q : List Index} {i : Index} {last : Bool}

/-! ## One level -/

/-- What a level does not touch, and that it frees nothing. -/
theorem level_rest (hl : Level k cr3 flags last t i res k') :
    (∀ u, Taken k u → u ≠ t → k'.mem u = k.mem u) ∧
      (∀ n, k.used n → k'.used n) ∧ k'.kernelPml4 = k.kernelPml4 := by
  have hhang : ∀ {c x e k'}, Hangs k t i c x e k' →
      (∀ u, Taken k u → u ≠ t → k'.mem u = k.mem u) ∧
        (∀ n, k.used n → k'.used n) ∧ k'.kernelPml4 = k.kernelPml4 := by
    intro c x e k' hh
    refine ⟨fun u hu hut => ?_, hh.grows, hh.kernel⟩
    funext j
    rw [hh.mem, Mem.set_table _ _ _ _ hut, Mem.setPage_other _ _ (hu c hh.frame hh.free)]
  cases hl with
  | full => exact ⟨fun _ _ _ => rfl, fun _ => id, rfl⟩
  | found => exact ⟨fun u _ hut => funext fun j => Mem.set_table _ _ _ _ hut, fun _ => id, rfl⟩
  | made _ hh => exact hhang hh
  | copied _ _ _ _ hh => exact hhang hh
  | split _ _ _ hh => exact hhang hh

theorem link_madeEntry (hc : IsPage c) (flags : Word) : link (madeEntry c flags) = some c := by
  obtain ⟨-, hP, -, hH, -⟩ := has_parentFlags flags
  refine link_eq_some.mpr ⟨?_, ?_, addrOf_madeEntry hc flags⟩
  · rw [has_madeEntry hc (by decide), hP]
    rfl
  · rw [has_madeEntry hc (by decide), hH]
    decide

theorem link_copiedEntry (hc : IsPage c) (flags : Word) (hP : has e ptePresent)
    (hH : has e pteHuge = false) : link (copiedEntry c flags e) = some c := by
  obtain ⟨-, -, -, hH', -⟩ := has_parentFlags flags
  refine link_eq_some.mpr ⟨?_, ?_, addrOf_copiedEntry hc flags e⟩
  · rw [has_copiedEntry hc (by decide), hP]
    rfl
  · rw [has_copiedEntry hc (by decide), hH, hH']
    decide

/-- The user mark is all that opening an entry can change. -/
theorem has_opened_other {f : Word} (hf : has pteUser f = false) :
    has (opened flags e) f = has e f := by
  rw [has_opened, hf, Bool.and_false, Bool.or_false]

/-- What a level stores: the place points to a table that holds what was below
    it. -/
structure Stores (k k' : KState) (t : Word) (i : Index) (c : Word) : Prop where
  points : link (k'.mem t i) = some c
  body : k'.mem c = below k.mem (k.mem t i)
  rest : ∀ u j, u ≠ c → (u ≠ t ∨ j ≠ i) → k'.mem u j = k.mem u j

theorem hangs_stores {x : Table} (hh : Hangs k t i c x e k') (hct : c ≠ t)
    (hx : x = below k.mem (k.mem t i)) (hlink : link e = some c) : Stores k k' t i c := by
  refine ⟨by rw [hh.mem, Mem.set_same, hlink], ?_, ?_⟩
  · funext j
    rw [hh.mem, Mem.set_table _ _ _ _ hct, Mem.setPage_same, hx]
  · intro u j huc huj
    rw [hh.mem, hung_other huc huj]

section Level

variable (hl : Level k cr3 flags last t i (some c) k')

include hl

/-- **What a level stores**, above the page tables where no 2 MB page is. -/
theorem level_stores (hct : c ≠ t)
    (hupper : last = false → has (k.mem t i) ptePresent → has (k.mem t i) pteHuge = false) :
    Stores k k' t i c := by
  cases hl with
  | found hP hshare hhuge =>
    have hH : has (k.mem t i) pteHuge = false := by
      cases last with
      | true => exact hhuge rfl
      | false => exact hupper rfl hP
    refine ⟨?_, ?_, ?_⟩
    · rw [KState.store_same]
      exact link_eq_some.mpr ⟨by rw [has_opened_other (by decide), hP],
        by rw [has_opened_other (by decide), hH], addrOf_opened flags _⟩
    · rw [below_table (link_eq_some.mpr ⟨hP, hH, rfl⟩)]
      exact funext fun j => Mem.set_table _ _ _ _ hct
    · intro u j _ huj
      exact if_neg fun hc => huj.elim (· hc.1) (· hc.2)
  | made hP hh =>
    exact hangs_stores hh hct (below_absent hP).symm (link_madeEntry hh.frame.isPage _)
  | copied hlast _ hP _ hh =>
    have hH := hupper hlast hP
    exact hangs_stores hh hct (below_table (link_eq_some.mpr ⟨hP, hH, rfl⟩)).symm
      (link_copiedEntry hh.frame.isPage _ hP hH)
  | split _ hP hH hh =>
    exact hangs_stores hh hct (below_huge hP hH).symm (link_madeEntry hh.frame.isPage _)

/-- Where the table of a level comes from: it was there, or it is a fresh frame,
    marked private. -/
theorem level_origin
    (hupper : last = false → has (k.mem t i) ptePresent → has (k.mem t i) pteHuge = false) :
    (link (k.mem t i) = some c ∧
      has (k'.mem t i) ptePrivateTable = has (k.mem t i) ptePrivateTable ∧
      (last = false → addrOf cr3 = k.kernelPml4 ∨ has (k.mem t i) ptePrivateTable)) ∨
    (IsFrame c ∧ k.used (frameNum c) = false ∧ k'.used (frameNum c) ∧
      has (k'.mem t i) ptePrivateTable ∧
      (link (k.mem t i) = none ∨ last = false ∧ addrOf cr3 ≠ k.kernelPml4 ∧
        has (k.mem t i) ptePresent ∧ has (k.mem t i) ptePrivateTable = false)) := by
  cases hl with
  | found hP hshare hhuge =>
    have hH : has (k.mem t i) pteHuge = false := by
      cases last with
      | true => exact hhuge rfl
      | false => exact hupper rfl hP
    refine .inl ⟨link_eq_some.mpr ⟨hP, hH, rfl⟩, ?_, hshare⟩
    rw [KState.store_same, has_opened_other (by decide)]
  | made hP hh =>
    refine .inr ⟨hh.frame, hh.free, hh.self, ?_, .inl (link_absent hP)⟩
    rw [hh.mem, Mem.set_same, has_madeEntry hh.frame.isPage (by decide)]
    simp [show has ptePrivateTable ptePrivateTable by decide]
  | copied hlast hne hP hV hh =>
    refine .inr ⟨hh.frame, hh.free, hh.self, ?_, .inr ⟨hlast, hne, hP, hV⟩⟩
    rw [hh.mem, Mem.set_same, has_copiedEntry hh.frame.isPage (by decide)]
    simp [show has ptePrivateTable ptePrivateTable by decide]
  | split _ hP hH hh =>
    refine .inr ⟨hh.frame, hh.free, hh.self, ?_, .inl (by rw [link, hP, hH]; rfl)⟩
    rw [hh.mem, Mem.set_same, has_madeEntry hh.frame.isPage (by decide)]
    simp [show has ptePrivateTable ptePrivateTable by decide]

/-- A level takes no right away. -/
theorem level_rights (hlink : link (k.mem t i) ≠ none) (hU : has (k.mem t i) pteUser) :
    has (k'.mem t i) pteUser := by
  cases hl with
  | found =>
    rw [KState.store_same, has_opened, hU]
    rfl
  | made hP => exact absurd (link_absent hP) hlink
  | copied _ _ _ _ hh =>
    rw [hh.mem, Mem.set_same, has_copiedEntry hh.frame.isPage (by decide), hU]
    rfl
  | split _ hP hH =>
    rw [link, hP, hH] at hlink
    exact absurd rfl hlink

omit hl in
/-- Above the page directories no entry is a 2 MB page. -/
theorem WellFormed.not_huge (h : WellFormed k r)
    (hp : AtLevel p last) (ht : tableOf k.mem r p = some t) (i : Index) :
    last = false → has (k.mem t i) ptePresent → has (k.mem t i) pteHuge = false := by
  rintro rfl
  exact h.upper hp.upper ht i

/-- **A level rewires one place.** -/
theorem level_rewires (h : WellFormed k r) (hp : AtLevel p last)
    (ht : tableOf k.mem r p = some t) : Rewires k k' r p t i c := by
  have hp3 := hp.inside
  have hlen := length_snoc_le hp3 (i := i)
  have hupper := h.not_huge hp ht i
  obtain ⟨-, hused, -⟩ := level_rest hl
  have horigin := level_origin hl hupper
  -- the table was there, or in no hierarchy
  have hnew : link (k.mem t i) = some c ∨
      ∀ q u, q.length ≤ 3 → tableOf k.mem r q = some u → u ≠ c := by
    rcases horigin with ⟨hc, -⟩ | ⟨hfr, hfree, -⟩
    · exact .inl hc
    · exact .inr fun q u hq hu => h.fresh hq hu c hfr hfree
  have hct : c ≠ t := by
    rcases hnew with hc | hnew
    · exact h.ne_of_length (by omega) hlen ht ((tableOf_snoc ht i).trans hc)
        (by rw [length_snoc]; omega)
    · exact (hnew p t (by omega) ht).symm
  obtain ⟨hpoints, hbody, hrest⟩ := level_stores hl hct hupper
  refine ⟨h, hp3, ht, hpoints, hbody, hrest, hnew, level_rights hl, hused, ?_⟩
  rcases horigin with ⟨hc, -⟩ | ⟨-, -, hus, -⟩
  · exact (h.fresh hlen ((tableOf_snoc ht i).trans hc)).mono hused
  · rintro d - hfree rfl
    cases hus.symm.trans hfree

/-- After a level for a page that is open to user mode the place is. -/
theorem level_open (hf : has flags pteUser) : has (k'.mem t i) pteUser := by
  cases hl with
  | found =>
    rw [KState.store_same, has_opened, hf, Bool.true_and, Bool.or_eq_true]
    exact .inr (by decide)
  | made _ hh =>
    rw [hh.mem, Mem.set_same, has_madeEntry hh.frame.isPage (by decide),
      (has_parentFlags flags).2.2.1, hf]
    rfl
  | copied _ _ _ _ hh =>
    rw [hh.mem, Mem.set_same, has_copiedEntry hh.frame.isPage (by decide),
      (has_parentFlags flags).2.2.1, hf, Bool.or_true]
    rfl
  | split _ _ _ hh =>
    rw [hh.mem, Mem.set_same, has_madeEntry hh.frame.isPage (by decide),
      (has_parentFlags flags).2.2.1, hf]
    rfl

/-! ## Other hierarchies -/

/-- A table that two hierarchies have in common is at one path in both. -/
def SamePlaces (k : KState) (r r' : Word) : Prop :=
  ∀ p q t, p.length ≤ 3 → q.length ≤ 3 → tableOf k.mem r p = some t →
    tableOf k.mem r' q = some t → q = p

omit hl in
theorem WellFormed.samePlaces (h : WellFormed k r) : SamePlaces k r r :=
  fun _ _ _ hp hq ht hu => h.tree hq hp hu ht

/-- A level on one hierarchy, seen from another: nothing, or the same place. -/
theorem level_elsewhere (h' : WellFormed k r')
    (hp : AtLevel p last)
    (hplace : ∀ q, q.length ≤ 3 → tableOf k.mem r' q = some t → q = p) :
    Keeps k k' r' ∧ ∀ q, q.length ≤ 3 → tableOf k'.mem r' q =
      if tableOf k.mem r' p = some t ∧ q = p ++ [i] then some c else tableOf k.mem r' q := by
  by_cases ht : tableOf k.mem r' p = some t
  · have hr := level_rewires hl h' hp ht
    refine ⟨hr.keeps, fun q hq => ?_⟩
    rw [hr.tables hq]
    simp [ht]
  · obtain ⟨hrest, hused, -⟩ := level_rest hl
    have hmem : ∀ q u, q.length ≤ 3 → tableOf k.mem r' q = some u → k'.mem u = k.mem u := by
      intro q u hq hu
      refine hrest u (h'.fresh hq hu) ?_
      rintro rfl
      exact ht (hplace q hq hu ▸ hu)
    obtain ⟨hkeeps, htab⟩ := h'.congr hmem fun q u hq hu => (h'.fresh hq hu).mono hused
    refine ⟨hkeeps, fun q hq => ?_⟩
    rw [htab q hq, if_neg fun hc => ht hc.1]

/-- Tables in common stay at one path. -/
theorem level_samePlaces (h : WellFormed k r) (h' : WellFormed k r') (hs : SamePlaces k r r')
    (hp : AtLevel p last) (ht : tableOf k.mem r p = some t) :
    SamePlaces k' r r' := by
  have hr := level_rewires hl h hp ht
  obtain ⟨-, htab'⟩ := level_elsewhere hl h' hp fun q hq hu => hs p q t hp.inside.le hq ht hu
  have hlen := length_snoc_le hp.inside (i := i)
  have hupper := h.not_huge hp ht i
  -- the new table is the old one, or in no hierarchy
  have hnew : ∀ {r} q, WellFormed k r → q.length ≤ 3 → tableOf k.mem r q = some c →
      link (k.mem t i) = some c := by
    intro r q hw hq hc
    rcases level_origin hl hupper with ⟨hlink, -⟩ | ⟨hfr, hfree, -⟩
    · exact hlink
    · exact absurd rfl (hw.fresh hq hc c hfr hfree)
  intro x y u hx hy hxu hyu
  rw [hr.tables hx] at hxu
  rw [htab' y hy] at hyu
  split at hxu
  · rename_i hxp
    cases hxu
    split at hyu
    · rename_i hyp
      rw [hxp, hyp.2]
    · rw [hxp]
      exact hs (p ++ [i]) y _ hlen hy ((tableOf_snoc ht i).trans (hnew y h' hy hyu)) hyu
  · rename_i hxp
    split at hyu
    · cases hyu
      exact absurd (h.tree hx hlen hxu ((tableOf_snoc ht i).trans (hnew x h hx hxu))) hxp
    · exact hs x y u hx hy hxu hyu

/-! ## The way down -/

/-- A level for a page that is open to user mode opens the path so far. -/
theorem level_opened (h : WellFormed k r) (hp : AtLevel p last)
    (ht : tableOf k.mem r p = some t) (hf : has flags pteUser) (hopen : Opened k.mem r p) :
    Opened k'.mem r (p ++ [i]) := by
  have hr := level_rewires hl h hp ht
  have hp3 := hp.inside
  intro q j s u hq hu
  rcases List.eq_nil_or_concat s with rfl | ⟨s, x, rfl⟩
  · obtain ⟨rfl, rfl⟩ := List.append_singleton_inj.mp hq
    rw [hr.tables hp3.le, if_neg (by simp), ht] at hu
    cases hu
    exact level_open hl hf
  · rw [List.concat_eq_append, ← List.cons_append, ← List.append_assoc] at hq
    obtain ⟨hq, -⟩ := List.append_singleton_inj.mp hq
    exact hr.opened hp3.le ht hopen q j s u hq hu

end Level

/-- **The way down changes no page's entry**, in its own hierarchy or in another,
    and opens the path if the page is to be open. -/
theorem Walk.keeps (hw : Walk cr3 flags k t is res k') (h : WellFormed k r)
    (ht : tableOf k.mem r p = some t) (hlen : p.length + is.length = 3) :
    (∀ r', WellFormed k r' → SamePlaces k r r' → Keeps k k' r' ∧ SamePlaces k' r r') ∧
      ∀ u, res = some u → tableOf k'.mem r (p ++ is) = some u ∧
        (has flags pteUser → Opened k.mem r p → Opened k'.mem r (p ++ is)) := by
  induction hw generalizing p with
  | done =>
    refine ⟨fun r' h' hs => ⟨.refl h', hs⟩, ?_⟩
    rintro u ⟨rfl⟩
    rw [List.append_nil]
    exact ⟨ht, fun _ ho => ho⟩
  | full hl =>
    cases hl with
    | full => exact ⟨fun r' h' hs => ⟨.refl h', hs⟩, nofun⟩
  | next hl _ ih =>
    have hp := level_depth hlen
    have hr := level_rewires hl h hp ht
    rw [List.length_cons] at hlen
    obtain ⟨hkeeps, htab⟩ := ih hr.wf hr.table_new (by rw [length_snoc]; omega)
    constructor
    · intro r' h' hs
      obtain ⟨hk, -⟩ := level_elsewhere hl h' hp fun q hq hu => hs p q _ hp.inside.le hq ht hu
      obtain ⟨hk', hs'⟩ := hkeeps r' hk.wf (level_samePlaces hl h h' hs hp ht)
      exact ⟨hk.trans hk', hs'⟩
    · intro u hu
      obtain ⟨htu, hopen⟩ := htab u hu
      rw [List.append_assoc, List.singleton_append] at htu hopen
      exact ⟨htu, fun hf ho => hopen hf (level_opened hl h hp ht hf ho)⟩

/-! ## The boot loader's tables -/

/-- The tables below a root that is the boot loader's, or a copy of it. -/
theorem boot_tables (hb : Booted k) (hroot : k.mem r = kernelEntry [])
    (ht : tableOf k.mem r q = some t) :
    (q = [] ∧ t = r ∨ q = [0#9] ∧ t = 0x2000#64 ∨ q = [0#9, 0#9] ∧ t = 0x3000#64 ∨
      q = [0#9, 1#9] ∧ t = 0x4000#64) ∧ k.mem t = kernelEntry q := by
  induction q using List.reverseRecOn generalizing t with
  | nil =>
    cases ht
    exact ⟨.inl ⟨rfl, rfl⟩, hroot⟩
  | append_singleton q i ih =>
    obtain ⟨u, hu, hl⟩ := nodeAt_parent ht
    obtain ⟨hplace, hmem⟩ := ih hu
    rw [hmem] at hl
    obtain ⟨hP, hH, haddr⟩ := link_eq_some.mp hl
    have hq : q.length < 2 ∨ q.length = 2 := by
      rcases hplace with ⟨rfl, -⟩ | ⟨rfl, -⟩ | ⟨rfl, -⟩ | ⟨rfl, -⟩ <;> simp
    rcases hq with hq | hq
    · rcases kernelEntry_step hq i with ⟨h0, -⟩ | ⟨-, -, hker, hboot⟩
      · rw [h0] at hP
        exact absurd hP (by decide)
      · rw [haddr] at hker hboot
        refine ⟨?_, (hb.tables t hker).trans hboot⟩
        rcases hplace with ⟨rfl, -⟩ | ⟨rfl, -⟩ | ⟨rfl, -⟩ | ⟨rfl, -⟩
        · by_cases hi : i = 0#9
          · subst hi
            exact .inr (.inl ⟨rfl, haddr.symm.trans (by decide)⟩)
          · rw [show kernelEntry [] i = 0#64 by simp [kernelEntry, bootMem, hi]] at hP
            exact absurd hP (by decide)
        · by_cases hi : i = 0#9
          · subst hi
            exact .inr (.inr (.inl ⟨rfl, haddr.symm.trans (by decide)⟩))
          · by_cases hi1 : i = 1#9
            · subst hi1
              exact .inr (.inr (.inr ⟨rfl, haddr.symm.trans (by decide)⟩))
            · rw [show kernelEntry [0#9] i = 0#64 by simp [kernelEntry, bootMem, hi, hi1]] at hP
              exact absurd hP (by decide)
        · exact absurd hq (by simp)
        · exact absurd hq (by simp)
    · -- a page directory of the kernel points to no table
      rcases kernelEntry_huge hq i with ⟨h0, -⟩ | ⟨-, hH', -⟩
      · rw [h0] at hP
        exact absurd hP (by decide)
      · cases hH.symm.trans hH'

/-- A 2 MB page of the kernel is aligned and closed to user mode. -/
theorem kernelEntry_aligned (hq : q.length = 2) (hP : has (kernelEntry q i) ptePresent) :
    (addrOf (kernelEntry q i)).toNat % 2 ^ 21 = 0 := by
  match q with
  | [a, b] =>
    rw [kernelEntry] at hP ⊢
    rcases kernelPd_cases a b i with h0 | ⟨n, -, hb, hn, haddr, -⟩
    · rw [h0] at hP
      exact absurd hP (by decide)
    · rw [haddr, BitVec.toNat_ofNat]
      omega

/-- **The boot loader's hierarchy, and that of a new address space, are well
    formed.** -/
theorem boot_wellFormed (hb : Booted k) (hroot : k.mem r = kernelEntry [])
    (hne : r ∉ [0x2000#64, 0x3000#64, 0x4000#64]) (hfresh : Taken k r) : WellFormed k r := by
  simp only [List.mem_cons, List.not_mem_nil, or_false, not_or] at hne
  have hkernel : ∀ {u}, u ∈ kernelTables → Taken k u := by
    rintro u hu d hd - rfl
    exact hd.not_kernel hu
  refine ⟨?_, ?_, ?_, ?_, ?_⟩
  · intro p q t _ _ hp hq
    obtain ⟨hp, -⟩ := boot_tables hb hroot hp
    obtain ⟨hq, -⟩ := boot_tables hb hroot hq
    rcases hp with ⟨rfl, rfl⟩ | ⟨rfl, rfl⟩ | ⟨rfl, rfl⟩ | ⟨rfl, rfl⟩ <;>
      rcases hq with ⟨rfl, h⟩ | ⟨rfl, h⟩ | ⟨rfl, h⟩ | ⟨rfl, h⟩ <;>
      first
        | rfl
        | exact absurd h (by decide)
        | exact absurd h hne.1
        | exact absurd h hne.2.1
        | exact absurd h hne.2.2
        | exact absurd h.symm hne.1
        | exact absurd h.symm hne.2.1
        | exact absurd h.symm hne.2.2
  · intro p t _ ht
    obtain ⟨ht, -⟩ := boot_tables hb hroot ht
    rcases ht with ⟨-, rfl⟩ | ⟨-, rfl⟩ | ⟨-, rfl⟩ | ⟨-, rfl⟩
    · exact hfresh
    · exact hkernel (by decide)
    · exact hkernel (by decide)
    · exact hkernel (by decide)
  · intro p t hp ht i hP
    rw [(boot_tables hb hroot ht).2] at hP ⊢
    rcases kernelEntry_step hp i with ⟨h0, -⟩ | ⟨-, hH, -⟩
    · rw [h0] at hP
      exact absurd hP (by decide)
    · exact hH
  · intro p t hp ht i hP hH
    rw [(boot_tables hb hroot ht).2] at hP ⊢
    exact ⟨kernelEntry_aligned hp hP, (kernelEntry_flags p i).1⟩
  · intro p t hp ht
    obtain ⟨ht, -⟩ := boot_tables hb hroot ht
    rcases ht with ⟨rfl, -⟩ | ⟨rfl, -⟩ | ⟨rfl, -⟩ | ⟨rfl, -⟩ <;> exact absurd hp (by decide)

theorem booted_root (hb : Booted k) : k.mem k.kernelPml4 = kernelEntry [] := by
  rw [hb.root, hb.tables _ (by decide)]
  rfl

theorem booted_wellFormed (hb : Booted k) : WellFormed k k.kernelPml4 := by
  refine boot_wellFormed hb (booted_root hb) (by rw [hb.root]; decide) ?_
  rintro d hd - hk
  exact hd.not_kernel (by rw [← hk, hb.root]; decide)

/-- Each of the kernel's tables has a place above the page tables. -/
theorem booted_place (hb : Booted k) (ht : t ∈ kernelTables) :
    ∃ q, q.length ≤ 2 ∧ tableOf k.mem k.kernelPml4 q = some t := by
  have h0 : tableOf k.mem k.kernelPml4 [] = some 0x1000#64 := by rw [hb.root]; rfl
  have h1 : tableOf k.mem k.kernelPml4 [0#9] = some 0x2000#64 := by
    rw [show [0#9] = [] ++ [0#9] from rfl, tableOf_snoc h0, hb.tables _ (by decide)]
    decide
  have h2 : ∀ j u, link (bootMem 0x2000#64 j) = some u →
      tableOf k.mem k.kernelPml4 [0#9, j] = some u := by
    intro j u hj
    rw [show [0#9, j] = [0#9] ++ [j] from rfl, tableOf_snoc h1, hb.tables _ (by decide), hj]
  simp only [kernelTables, List.mem_cons, List.not_mem_nil, or_false] at ht
  rcases ht with rfl | rfl | rfl | rfl
  · exact ⟨[], by decide, h0⟩
  · exact ⟨[0#9], by decide, h1⟩
  · exact ⟨[0#9, 0#9], by decide, h2 _ _ (by decide)⟩
  · exact ⟨[0#9, 1#9], by decide, h2 _ _ (by decide)⟩

/-! ## Away from the kernel -/

/-- The tables an address space has to itself: its root, and those it reaches
    through a private mark. -/
def Owned (k : KState) (r t : Word) : Prop :=
  t = r ∨ ∃ q u i, q.length < 3 ∧ tableOf k.mem r q = some u ∧ link (k.mem u i) = some t ∧
    has (k.mem u i) ptePrivateTable

/-- The private marks tell the truth about the kernel's tables. -/
def Private (k : KState) (r : Word) : Prop := ∀ t, Owned k r t → t ∉ kernelTables

/-- A level of a process keeps its marks true, leaves the kernel's tables alone,
    and above the page tables goes on in a table of the process. -/
theorem level_private (hl : Level k cr3 flags last t i (some c) k') (h : WellFormed k r)
    (hp : AtLevel p last) (ht : tableOf k.mem r p = some t)
    (hcr3 : addrOf cr3 ≠ k.kernelPml4) (hown : Private k r) (htk : t ∉ kernelTables) :
    Private k' r ∧ (∀ u ∈ kernelTables, k'.mem u = k.mem u) ∧
      (last = false → c ∉ kernelTables) := by
  have hp3 := hp.inside
  have hr := level_rewires hl h hp ht
  obtain ⟨hrest, -, -⟩ := level_rest hl
  have hlink : link (k.mem t i) = some c → has (k.mem t i) ptePrivateTable →
      c ∉ kernelTables := fun hc hV => hown c (.inr ⟨p, t, i, hp3, ht, hc, hV⟩)
  have hupper := h.not_huge hp ht i
  -- what the place points to afterwards, if it is marked
  have hplace : (has (k'.mem t i) ptePrivateTable → c ∉ kernelTables) ∧
      (last = false → c ∉ kernelTables) := by
    rcases level_origin hl hupper with ⟨hc, hmark, hshare⟩ | ⟨hfr, -⟩
    · rw [hmark]
      exact ⟨hlink hc, fun hlast => hlink hc ((hshare hlast).resolve_left hcr3)⟩
    · exact ⟨fun _ => hfr.not_kernel, fun _ => hfr.not_kernel⟩
  refine ⟨?_, fun u hu => hrest u ?_ ?_, hplace.2⟩
  · rintro d (rfl | ⟨q, u, j, hq, hu, hd, hV⟩)
    · exact hown d (.inl rfl)
    · rcases hr.replace.value_cases (by omega) hu j with
        ⟨s, hs, heq⟩ | ⟨rfl, rfl, rfl⟩ | ⟨rfl, rfl, hs⟩
      · rw [heq] at hd hV
        exact hown d (.inr ⟨q, s, j, hq, hs, hd, hV⟩)
      · cases hr.points.symm.trans hd
        exact hplace.1 hV
      · rw [length_snoc] at hq
        rw [hr.body_empty (by omega) hs] at hd
        cases (link_absent absent_zero).symm.trans hd
  · rintro d hd - rfl
    exact hd.not_kernel hu
  · rintro rfl
    exact htk hu

/-- **A process's way down leaves the kernel's tables alone.** -/
theorem Walk.kernel (hw : Walk cr3 flags k t is res k') (h : WellFormed k r)
    (ht : tableOf k.mem r p = some t) (hlen : p.length + is.length = 3)
    (hcr3 : addrOf cr3 ≠ k.kernelPml4) (hown : Private k r) (htk : is ≠ [] → t ∉ kernelTables) :
    (∀ u ∈ kernelTables, k'.mem u = k.mem u) ∧ k'.kernelPml4 = k.kernelPml4 := by
  induction hw generalizing p with
  | done => exact ⟨fun _ _ => rfl, rfl⟩
  | full hl =>
    cases hl with
    | full => exact ⟨fun _ _ => rfl, rfl⟩
  | next hl _ ih =>
    have hp := level_depth hlen
    have hr := level_rewires hl h hp ht
    obtain ⟨-, -, hker⟩ := level_rest hl
    obtain ⟨hown', hmem, hc⟩ := level_private hl h hp ht hcr3 hown (htk (by simp))
    rw [List.length_cons] at hlen
    obtain ⟨hmem', hker'⟩ := ih hr.wf hr.table_new (by rw [length_snoc]; omega) (by rwa [hker])
      hown' fun hne => hc (by simpa using hne)
    exact ⟨fun u hu => (hmem' u hu).trans (hmem u hu), hker'.trans hker⟩

/-! ## The store of the entry -/

/-- The store of an entry in a page table: the entry of one page changes. -/
theorem WellFormed.storeEntry (h : WellFormed k r) (ht : tableOf k.mem r (pathOf v) = some t)
    (hopen : presentUser e → Opened k.mem r (pathOf v)) :
    WellFormed (k.store t (ptIndex v) e) r ∧ ∀ a, entryOf (k.store t (ptIndex v) e).mem r a =
      if pathOf a = pathOf v ∧ ptIndex a = ptIndex v then e else entryOf k.mem r a := by
  have hv : (pathOf v).length = 3 := rfl
  -- tables above the page tables are not touched
  have hmem : ∀ {q u}, q.length < 3 → tableOf k.mem r q = some u →
      (k.store t (ptIndex v) e).mem u = k.mem u := by
    intro q u hq hu
    exact funext fun j => Mem.set_table _ _ _ _
      (h.ne_of_length (by omega) (by omega) ht hu (by omega))
  have htab : ∀ {q}, q.length ≤ 3 →
      tableOf (k.store t (ptIndex v) e).mem r q = tableOf k.mem r q := by
    intro q hq
    refine nodeAt_congr (fun q u hq hu j => ?_) hq
    rw [hmem hq hu]
  refine ⟨⟨?_, ?_, ?_, ?_, ?_⟩, ?_⟩
  · intro p q u hp hq hpu hqu
    rw [htab hp] at hpu
    rw [htab hq] at hqu
    exact h.tree hp hq hpu hqu
  · intro p u hp hu
    rw [htab hp] at hu
    exact h.fresh hp hu
  · intro p u hp hu j
    rw [htab (by omega)] at hu
    rw [hmem (by omega) hu]
    exact h.upper hp hu j
  · intro p u hp hu j
    rw [htab (by omega)] at hu
    rw [hmem (by omega) hu]
    exact h.huge hp hu j
  · intro p u hp hu j huser q i s w hpq hq
    have hlen : q.length < 3 := by
      rw [← hp, hpq, List.length_append, List.length_cons]
      omega
    rw [htab (by omega)] at hu hq
    rw [hmem hlen hq]
    by_cases hplace : u = t ∧ j = ptIndex v
    · obtain ⟨rfl, rfl⟩ := hplace
      rw [KState.store_same] at huser
      obtain rfl := h.tree (by omega) (by omega) hu ht
      exact hopen huser q i s w hpq hq
    · rw [show (k.store t (ptIndex v) e).mem u j = k.mem u j from if_neg hplace] at huser
      exact h.user hp hu j huser q i s w hpq hq
  · intro a
    have hpath : pathOf a = [pml4Index a, pdptIndex a] ++ [pdIndex a] := rfl
    rw [entryOf, entryOf]
    cases hu : tableOf k.mem r [pml4Index a, pdptIndex a] with
    | none =>
      rw [pages_of_none hu, pages_of_none ((htab (by simp)).trans hu), if_neg]
      rintro ⟨heq, -⟩
      rw [← heq, hpath, tableOf_snoc_none hu] at ht
      cases ht
    | some u =>
      rw [pages_of_some hu, pages_of_some ((htab (by simp)).trans hu), hmem (by simp) hu]
      cases hl : link (k.mem u (pdIndex a)) with
      | none =>
        rw [if_neg]
        · rw [below_congr (m := k.mem) fun c hc => by cases hl.symm.trans hc]
        · rintro ⟨heq, -⟩
          rw [← heq, hpath, tableOf_snoc hu, hl] at ht
          cases ht
      | some c =>
        rw [below_table hl, below_table hl]
        have hc := (tableOf_snoc hu (pdIndex a)).trans hl
        by_cases hplace : c = t ∧ ptIndex a = ptIndex v
        · obtain ⟨rfl, hi⟩ := hplace
          have heq := h.tree (by simp) (by omega) hc ht
          rw [if_pos ⟨hpath.trans heq, hi⟩, hi, KState.store_same]
        · rw [if_neg]
          · exact if_neg hplace
          · rintro ⟨heq, hi⟩
            rw [← heq, hpath, hc] at ht
            exact hplace ⟨Option.some.inj ht, hi⟩

/-! ## Exactly one page -/

/-- An address has the translation and the user accessibility it had. -/
def SameAt (k k' : KState) (cr3 a : Word) : Prop :=
  vmmGetPhysicalIn k'.mem cr3 a = vmmGetPhysicalIn k.mem cr3 a ∧
    vmmUserPageOk k'.mem cr3 a = vmmUserPageOk k.mem cr3 a

theorem sameAt_of_entry (h : WellFormed k (addrOf cr3)) (h' : WellFormed k' (addrOf cr3)) {a : Word}
    (he : entryOf k'.mem (addrOf cr3) a = entryOf k.mem (addrOf cr3) a) : SameAt k k' cr3 a := by
  by_cases h0 : addrOf cr3 = 0#64
  · rw [SameAt, vmmGetPhysicalIn, vmmGetPhysicalIn, vmmUserPageOk, vmmUserPageOk]
    simp only [if_pos h0]
    exact ⟨trivial, trivial⟩
  · rw [SameAt, getPhysical_eq h h0, getPhysical_eq h' h0, userPageOk_eq h h0, userPageOk_eq h' h0,
      he]
    exact ⟨rfl, rfl⟩

theorem Keeps.sameAt (hk : Keeps k k' (addrOf cr3)) (h : WellFormed k (addrOf cr3)) (a : Word) :
    SameAt k k' cr3 a :=
  sameAt_of_entry h hk.wf (congrFun (hk.pages _ _ rfl) _)

/-- With the boot loader's tables the kernel's address space is the same. -/
theorem booted_sameAt (hb : Booted k) (hb' : Booted k') (a : Word) :
    SameAt k k' k.kernelPml4 a := by
  have hpage : addrOf k.kernelPml4 = k.kernelPml4 := by rw [hb.root]; decide
  have hroot : k'.kernelPml4 = k.kernelPml4 := hb'.root.trans hb.root.symm
  have hwf := booted_wellFormed hb
  have hwf' := booted_wellFormed hb'
  have hmem : ∀ q t, q.length ≤ 3 → tableOf k.mem k.kernelPml4 q = some t → k'.mem t = k.mem t := by
    intro q t _ ht
    have hmem : t ∈ kernelTables := by
      obtain ⟨hplace, -⟩ := boot_tables hb (booted_root hb) ht
      rw [hb.root] at hplace
      rcases hplace with ⟨-, rfl⟩ | ⟨-, rfl⟩ | ⟨-, rfl⟩ | ⟨-, rfl⟩ <;> decide
    rw [hb.tables t hmem, hb'.tables t hmem]
  obtain ⟨-, hpages⟩ := pages_congr hmem
  rw [hroot] at hwf'
  rw [← hpage] at hwf hwf' hpages
  exact sameAt_of_entry hwf hwf' (congrFun (hpages _ _ rfl) _)

/-- What mapping the page `v` to the frame `f` has to do. -/
structure Exact (cr3 v f flags : Word) (k : KState) (ok : Bool) (k' : KState) : Prop where
  /-- The page is mapped, with the access of the flags. -/
  mapped : ok → (∀ o < 4096, vmmGetPhysicalIn k'.mem cr3 (v + BitVec.ofNat 64 o) =
    f + BitVec.ofNat 64 o) ∧ vmmUserPageOk k'.mem cr3 v = has flags pteUser
  others : ∀ a, pageNum a ≠ pageNum v → SameAt k k' cr3 a
  /-- A mapping that fails changes nothing, in this address space or another. -/
  failed : ok = false → ∀ r, WellFormed k (addrOf r) → SamePlaces k (addrOf cr3) (addrOf r) →
    ∀ a, SameAt k k' r a
  kernel : addrOf cr3 ≠ k.kernelPml4 → Booted k → Private k (addrOf cr3) →
    SamePlaces k (addrOf cr3) k.kernelPml4 → ∀ a, SameAt k k' k.kernelPml4 a

/-- The entry of a page says what was asked for. -/
theorem leafEntry_spec {f : Word} (hf : IsPage f) (flags : Word) :
    has (leafEntry f flags) ptePresent ∧ addrOf (leafEntry f flags) = f ∧
      has (leafEntry f flags) pteUser = has flags pteUser := by
  have hfl := (addrOf_not_mask flags).or (show IsFlags ptePresent by decide)
  rw [leafEntry, show addrOf f = f from hf, BitVec.or_assoc]
  refine ⟨?_, addrOf_page_or hf hfl, ?_⟩
  · rw [has_or, has_or, show has ptePresent ptePresent by decide, Bool.or_true, Bool.or_true]
  · rw [has_or, has_or, has_page hf (by decide), has_not_mask (by decide),
      show has ptePresent pteUser = false by decide, Bool.or_false, Bool.false_or]

/-- An address within a page. -/
theorem page_add (hv : v &&& 0xFFF#64 = 0#64) {o : Nat} (ho : o < 4096) :
    pathOf (v + BitVec.ofNat 64 o) = pathOf v ∧ ptIndex (v + BitVec.ofNat 64 o) = ptIndex v ∧
      (v + BitVec.ofNat 64 o) &&& 0xFFF#64 = BitVec.ofNat 64 o := by
  have hmod := congrArg BitVec.toNat hv
  rw [toNat_offset] at hmod
  have hlt := v.isLt
  have hadd : (v + BitVec.ofNat 64 o).toNat = v.toNat + o := by
    rw [BitVec.toNat_add, BitVec.toNat_ofNat]
    simp only [BitVec.toNat_ofNat, Nat.zero_mod] at hmod
    omega
  simp only [BitVec.toNat_ofNat, Nat.zero_mod] at hmod
  obtain ⟨hpath, hpt⟩ := pageNum_eq_iff.mp
    (show (v + BitVec.ofNat 64 o).toNat / 4096 % 2 ^ 36 = v.toNat / 4096 % 2 ^ 36 by omega)
  refine ⟨hpath, hpt, ?_⟩
  apply BitVec.eq_of_toNat_eq
  rw [toNat_offset, hadd, BitVec.toNat_ofNat]
  omega

/-- **Mapping a page changes exactly that page.** -/
theorem mapPageIn_exact {v f : Word} (flags : Word) (h : WellFormed k (addrOf cr3))
    (hv : v &&& 0xFFF#64 = 0#64) (hf : IsPage f) :
    Exact cr3 v f flags k (vmmMapPageIn cr3 v f flags k).1 (vmmMapPageIn cr3 v f flags k).2 := by
  by_cases h0 : addrOf cr3 = 0#64
  · have heq : vmmMapPageIn cr3 v f flags k = (false, k) := by
      rw [vmmMapPageIn]
      simp only [if_pos h0]
    rw [heq]
    exact ⟨fun h => (by cases h), fun _ _ => ⟨rfl, rfl⟩, fun _ _ _ _ _ => ⟨rfl, rfl⟩,
      fun _ _ _ _ _ => ⟨rfl, rfl⟩⟩
  obtain ⟨res, k₁, hw, hmap⟩ := mapPageIn_walk h0 v f flags k
  have hroot : tableOf k.mem (addrOf cr3) [] = some (addrOf cr3) := rfl
  obtain ⟨hkeeps, hend⟩ := Walk.keeps hw h hroot rfl
  have hself := (hkeeps _ h h.samePlaces).1
  -- the kernel's tables on the way down
  have hkernel : addrOf cr3 ≠ k.kernelPml4 → Booted k → Private k (addrOf cr3) →
      Booted k₁ ∧ k₁.kernelPml4 = k.kernelPml4 := by
    intro hne hb hown
    obtain ⟨hmem, hker⟩ := Walk.kernel hw h hroot rfl
      (by rwa [show addrOf (addrOf cr3) = addrOf cr3 from isPage_addrOf cr3]) hown
      fun _ => hown _ (.inl rfl)
    exact ⟨hb.of_mem hker hmem, hker⟩
  cases res with
  | none =>
    rw [hmap]
    exact ⟨fun h => (by cases h), fun a _ => hself.sameAt h a,
      fun _ r hr hs => (hkeeps _ hr hs).1.sameAt hr,
      fun hne hb hown _ => booted_sameAt hb (hkernel hne hb hown).1⟩
  | some t =>
    obtain ⟨ht, hopen⟩ := hend t rfl
    obtain ⟨hP, haddr, hU⟩ := leafEntry_spec hf flags
    have hpath : Opened k.mem (addrOf cr3) [] := fun q i s u hq => by simp at hq
    obtain ⟨hwf, hentry⟩ := hself.wf.storeEntry (v := v) (e := leafEntry f flags) ht (by
      intro hu
      refine hopen ?_ hpath
      rw [has_not_mask (by decide), ← hU]
      exact (has_of_presentUser hu).2)
    rw [hmap]
    refine ⟨fun _ => ⟨fun o ho => ?_, ?_⟩, fun a ha => ?_, fun h => (by cases h),
      fun hne hb hown hs => ?_⟩
    · obtain ⟨hp, hi, hoff⟩ := page_add hv ho
      rw [getPhysical_eq hwf h0, hentry, if_pos ⟨hp, hi⟩, physOf, if_pos hP, haddr, hoff]
    · rw [userPageOk_eq hwf h0, hentry, if_pos ⟨rfl, rfl⟩, presentUser_eq, hP, hU, Bool.true_and]
    · refine sameAt_of_entry h hwf ?_
      rw [hentry, if_neg fun hc => ha (pageNum_eq_iff.mpr hc)]
      exact congrFun (hself.pages _ _ rfl) _
    · obtain ⟨hb₁, hker⟩ := hkernel hne hb hown
      -- a page table of the process is at a path that no table of the kernel has
      have htk : t ∉ kernelTables := by
        intro hmem
        obtain ⟨q, hq, hqt⟩ := booted_place hb₁ hmem
        rw [hker] at hqt
        have heq := (hkeeps _ (booted_wellFormed hb) hs).2 _ q t (by simp [pathOf]) (by omega) ht
          hqt
        rw [heq] at hq
        exact absurd hq (by simp [pathOf])
      refine booted_sameAt hb (hb₁.of_mem rfl fun u hu => ?_)
      refine funext fun j => Mem.set_table _ _ _ _ ?_
      rintro rfl
      exact htk hu

/-- The boot loader's tables and one new address space, with root 1 MB. -/
def newSpace : KState where
  mem := bootMem.setPage 0x100000#64 (bootMem 0x1000#64)
  used n := n == 0x100
  freePages := 0#64
  kernelPml4 := 0x1000#64

theorem newSpace_booted : Booted newSpace := by
  refine ⟨rfl, fun t ht => Mem.setPage_other _ _ ?_⟩
  rintro rfl
  exact absurd ht (by decide)

theorem newSpace_root : newSpace.mem 0x100000#64 = kernelEntry [] := by
  show bootMem.setPage 0x100000#64 (bootMem 0x1000#64) 0x100000#64 = _
  rw [Mem.setPage_same]
  rfl

theorem newSpace_wellFormed : WellFormed newSpace 0x100000#64 := by
  refine boot_wellFormed newSpace_booted newSpace_root (by decide) ?_
  rintro d - hfree rfl
  exact absurd hfree (by decide)

theorem newSpace_private : Private newSpace 0x100000#64 := by
  rintro t (rfl | ⟨q, u, i, -, hu, -, hV⟩)
  · decide
  · rw [(boot_tables newSpace_booted newSpace_root hu).2, (kernelEntry_flags q i).2] at hV
    cases hV

theorem newSpace_samePlaces : SamePlaces newSpace 0x100000#64 newSpace.kernelPml4 := by
  intro p q t _ _ hp hq
  obtain ⟨hp, -⟩ := boot_tables newSpace_booted newSpace_root hp
  obtain ⟨hq, -⟩ := boot_tables newSpace_booted (booted_root newSpace_booted) hq
  rcases hp with ⟨rfl, rfl⟩ | ⟨rfl, rfl⟩ | ⟨rfl, rfl⟩ | ⟨rfl, rfl⟩ <;>
    rcases hq with ⟨rfl, h⟩ | ⟨rfl, h⟩ | ⟨rfl, h⟩ | ⟨rfl, h⟩ <;>
    first
      | rfl
      | exact absurd h (by decide)

/-- A user page of the new space at 4 MB, in the middle of a 2 MB page of the
    kernel that has to be split. -/
theorem mapPageIn_exact_newSpace :
    (vmmMapPageIn 0x100000#64 0x401000#64 0x300000#64 (pteWritable ||| pteUser) newSpace).1 ∧
      Exact 0x100000#64 0x401000#64 0x300000#64 (pteWritable ||| pteUser) newSpace
        (vmmMapPageIn 0x100000#64 0x401000#64 0x300000#64 (pteWritable ||| pteUser) newSpace).1
        (vmmMapPageIn 0x100000#64 0x401000#64 0x300000#64 (pteWritable ||| pteUser) newSpace).2 ∧
      Booted newSpace ∧ Private newSpace 0x100000#64 ∧
      SamePlaces newSpace 0x100000#64 newSpace.kernelPml4 :=
  ⟨by decide, mapPageIn_exact _ newSpace_wellFormed (by decide) (by decide),
    newSpace_booted, newSpace_private, newSpace_samePlaces⟩

end PageTree
