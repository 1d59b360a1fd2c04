import AoOs.DestroySpace

/-! # Owned frames — pages and spaces come and go

    How the ownership map and the spaces change together: a fresh frame is
    filled, becomes a page of a space's list, is given up again, or becomes the
    root of a new space. -/

namespace AddressSpace

open Paging Vmm PointerTree

variable {ι : Type} {k k' : KState} {sp : ι → Option Space} {own : Word → Option (Owner ι)}
  {a : ι} {S : Space} {f : Word}

/-- What is well formed stays so while its tables, the kernel's and the bits of
    its frames stay. -/
theorem Wf.congr (h : Wf k sp own) (hker : k'.kernelPml4 = k.kernelPml4)
    (htables : ∀ t ∈ kernelTables, k'.mem t = k.mem t)
    (hmem : ∀ t b q, own t = some (.table b q) → k'.mem t = k.mem t)
    (hused : ∀ f o, own f = some o → k'.used (frameNum f)) : Wf k' sp own ∧ SameViews sp k k' := by
  have htab : ∀ {b S}, sp b = some S → ∀ {q : List Index}, q.length ≤ 3 →
      tableAt k'.mem S.root q = tableAt k.mem S.root q := by
    intro b S hb q hq
    refine nodeAt_congr (fun q u hq hu i => ?_) hq
    rw [hmem u b q (h.table_own hb (by omega) hu)]
  refine ⟨⟨h.booted.of_mem hker htables, ?_, ?_, h.page_own, h.own_page, ?_, ?_⟩, ?_⟩
  · intro b S q t hb hq ht
    rw [htab hb hq] at ht
    exact h.table_own hb hq ht
  · intro b q t ht
    obtain ⟨hq, S, hb, ht⟩ := h.own_table ht
    exact ⟨hq, S, hb, by rwa [htab hb hq]⟩
  · intro g o ho
    exact ⟨(h.frame ho).1, hused g o ho⟩
  · intro b S q t hb hq ht i
    rw [htab hb (by omega)] at ht
    rw [hmem t b q (h.table_own hb (by omega) ht)]
    exact h.upper hb hq ht i
  · intro b S hb q hq
    rw [view, view, htab hb (by omega)]
    cases ht : tableAt k.mem S.root q with
    | none => rfl
    | some t => exact hmem t b q (h.table_own hb (by omega) ht)

/-- Filling a fresh frame is noticed by nobody. -/
theorem Wf.fill (h : Wf k sp own) (hal : Allocates k f k') (p : Table) :
    Wf { k' with mem := k'.mem.setPage f p } sp own ∧
      SameViews sp k { k' with mem := k'.mem.setPage f p } := by
  have hnone := h.own_free hal.free
  have hmem : ∀ t, t ≠ f → k'.mem.setPage f p t = k.mem t := by
    intro t ht
    rw [Mem.setPage_other _ _ ht, hal.mem]
  refine h.congr hal.kernel (fun t ht => hmem t ?_) (fun t b q ht => hmem t ?_) (fun g o ho => ?_)
  · rintro rfl
    exact hal.frame.not_kernel ht
  · rintro rfl
    cases ht.symm.trans hnone
  · show k'.used (frameNum g)
    exact hal.grows _ (h.frame ho).2

/-- The owners determine the tables. -/
theorem Wf.tableAt_eq {sp' : ι → Option Space} {own' : Word → Option (Owner ι)} {S' : Space}
    (h : Wf k sp own) (h' : Wf k' sp' own') (ha : sp a = some S) (ha' : sp' a = some S')
    (hown : ∀ t b q, own' t = some (.table b q) ↔ own t = some (.table b q)) {q : List Index}
    (hq : q.length ≤ 3) : tableAt k'.mem S'.root q = tableAt k.mem S.root q := by
  apply Option.ext
  intro t
  constructor
  · intro ht
    obtain ⟨-, T, hT, hres⟩ := h.own_table ((hown t a q).mp (h'.table_own ha' hq ht))
    rwa [Option.mem_unique ha hT]
  · intro ht
    obtain ⟨-, T, hT, hres⟩ := h'.own_table ((hown t a q).mpr (h.table_own ha hq ht))
    rwa [Option.mem_unique ha' hT]

/-- The same roots with other page lists: only the pages' owners have to be
    checked. -/
theorem Wf.repage {sp' : ι → Option Space} {own' : Word → Option (Owner ι)} (h : Wf k sp own)
    (hroots : ∀ b, (sp' b).map Space.root = (sp b).map Space.root)
    (htab : ∀ t b q, own' t = some (.table b q) ↔ own t = some (.table b q))
    (hpage : ∀ b S n g, sp' b = some S → S.pages[n]? = some g → own' g = some (.page b n))
    (hown : ∀ b n g, own' g = some (.page b n) → ∃ S, sp' b = some S ∧ S.pages[n]? = some g)
    (hframe : ∀ g o, own' g = some o → IsFrame g ∧ k.used (frameNum g)) : Wf k sp' own' := by
  have hto : ∀ {b S'}, sp' b = some S' → ∃ S, sp b = some S ∧ S.root = S'.root := by
    intro b S' hb
    have hr := hroots b
    rw [hb] at hr
    exact Option.map_eq_some_iff.mp hr.symm
  have hfrom : ∀ {b S}, sp b = some S → ∃ S', sp' b = some S' ∧ S'.root = S.root := by
    intro b S hb
    have hr := hroots b
    rw [hb] at hr
    exact Option.map_eq_some_iff.mp hr
  refine ⟨h.booted, ?_, ?_, fun {b S n g} => hpage b S n g, fun {b n g} => hown b n g,
    fun {g o} => hframe g o, ?_⟩
  · intro b S' q t hb hq ht
    obtain ⟨S, hb, hr⟩ := hto hb
    rw [← hr] at ht
    exact (htab t b q).mpr (h.table_own hb hq ht)
  · intro b q t ht
    obtain ⟨hq, S, hb, ht⟩ := h.own_table ((htab t b q).mp ht)
    obtain ⟨S', hb', hr⟩ := hfrom hb
    exact ⟨hq, S', hb', by rwa [hr]⟩
  · intro b S' q t hb hq ht i
    obtain ⟨S, hb, hr⟩ := hto hb
    rw [← hr] at ht
    exact h.upper hb hq ht i

/-- The entries of a list with one more at its end. -/
theorem getElem?_snoc {α : Type} {l : List α} {x y : α} {n : Nat} :
    (l ++ [x])[n]? = some y ↔ l[n]? = some y ∨ (n = l.length ∧ y = x) := by
  rcases Nat.lt_trichotomy n l.length with hlt | rfl | hgt
  · rw [List.getElem?_append_left hlt]
    simp [Nat.ne_of_lt hlt]
  · simp [eq_comm]
  · rw [List.getElem?_eq_none (by simpa using hgt), List.getElem?_eq_none (Nat.le_of_lt hgt)]
    simp [Nat.ne_of_gt hgt]

variable [DecidableEq ι]

/-- The spaces after one has changed. -/
theorem update_cases {b : ι} {S' : Space} (h : Function.update sp a (some S) b = some S') :
    b = a ∧ S = S' ∨ b ≠ a ∧ sp b = some S' := by
  by_cases hb : b = a
  · rw [hb, Function.update_self] at h
    exact .inl ⟨hb, Option.some.inj h⟩
  · rw [Function.update_of_ne hb] at h
    exact .inr ⟨hb, h⟩

/-- A frame without owner becomes the last page of a space. -/
theorem Wf.addPage (h : Wf k sp own) (ha : sp a = some S) (hfree : own f = none) (hfr : IsFrame f)
    (hus : k.used (frameNum f)) :
    Wf k (Function.update sp a (some { S with pages := S.pages ++ [f] }))
      (addOwner own f (.page a S.pages.length)) := by
  refine h.repage ?_ ?_ ?_ ?_ ?_
  · intro b
    by_cases hb : b = a
    · rw [hb, Function.update_self, ha]
      rfl
    · rw [Function.update_of_ne hb]
  · intro t b q
    refine ⟨fun ht => ?_, addOwner_old hfree⟩
    rcases addOwner_cases ht with ⟨-, ho⟩ | ht
    · cases ho
    · exact ht
  · intro b S' n g hb hn
    rcases update_cases hb with ⟨rfl, rfl⟩ | ⟨-, hb⟩
    · rcases getElem?_snoc.mp hn with hn | ⟨rfl, rfl⟩
      · exact addOwner_old hfree (h.page_own ha hn)
      · exact if_pos rfl
    · exact addOwner_old hfree (h.page_own hb hn)
  · intro b n g hg
    rcases addOwner_cases hg with ⟨rfl, ho⟩ | hg
    · cases ho
      exact ⟨_, Function.update_self .., getElem?_snoc.mpr (.inr ⟨rfl, rfl⟩)⟩
    · obtain ⟨S', hb, hn⟩ := h.own_page hg
      by_cases hba : b = a
      · subst hba
        obtain rfl : S = S' := Option.mem_unique ha hb
        exact ⟨_, Function.update_self .., getElem?_snoc.mpr (.inl hn)⟩
      · exact ⟨S', by rwa [Function.update_of_ne hba], hn⟩
  · intro g o ho
    rcases addOwner_cases ho with ⟨rfl, -⟩ | ho
    · exact ⟨hfr, hus⟩
    · exact h.frame ho

/-- The last page of a space is given up. -/
theorem Wf.dropPage (h : Wf k (Function.update sp a (some { S with pages := S.pages ++ [f] }))
    own) :
    Wf k (Function.update sp a (some S)) (fun g => if g = f then none else own g) := by
  have hlast : own f = some (.page a S.pages.length) :=
    h.page_own (Function.update_self ..) (getElem?_snoc.mpr (.inr ⟨rfl, rfl⟩))
  refine h.repage ?_ ?_ ?_ ?_ ?_
  · intro b
    by_cases hb : b = a
    · rw [hb, Function.update_self, Function.update_self]
      rfl
    · rw [Function.update_of_ne hb, Function.update_of_ne hb]
  · intro t b q
    constructor
    · intro ht
      split at ht
      · cases ht
      · exact ht
    · intro ht
      refine (if_neg ?_).trans ht
      rintro rfl
      cases hlast.symm.trans ht
  · intro b S' n g hb hn
    have hg : own g = some (.page b n) := by
      rcases update_cases hb with ⟨rfl, rfl⟩ | ⟨hba, hb⟩
      · exact h.page_own (Function.update_self ..) (getElem?_snoc.mpr (.inl hn))
      · exact h.page_own (by rwa [Function.update_of_ne hba]) hn
    refine (if_neg ?_).trans hg
    rintro rfl
    -- the frame given up is the last one, not one of those that stay
    cases hlast.symm.trans hg
    rw [Function.update_self] at hb
    cases hb
    exact absurd (List.getElem?_eq_some_iff.mp hn).1 (by omega)
  · intro b n g hg
    split at hg
    · cases hg
    · rename_i hgf
      obtain ⟨S', hb, hn⟩ := h.own_page hg
      rcases update_cases hb with ⟨rfl, rfl⟩ | ⟨hba, hb⟩
      · rcases getElem?_snoc.mp hn with hn | ⟨-, hgf'⟩
        · exact ⟨S, Function.update_self .., hn⟩
        · exact absurd hgf' hgf
      · exact ⟨S', by rwa [Function.update_of_ne hba], hn⟩
  · intro g o ho
    split at ho
    · cases ho
    · exact h.frame ho

omit [DecidableEq ι] in
/-- A copy of the kernel's root has no private table below it. -/
theorem tableAt_kernelRoot {m : Mem} {r : Word} (h : m r = kernelEntry []) (q : List Index) :
    tableAt m r q = if q = [] then some r else none := by
  cases q with
  | nil => rfl
  | cons i q =>
    rw [AddressSpace.tableAt, nodeAt, h, child_kernelEntry]
    rfl

/-- A new space with the kernel's root table. -/
theorem Wf.addSpace (h : Wf k sp own) (ha : sp a = none) (hfree : own f = none) (hfr : IsFrame f)
    (hus : k.used (frameNum f)) (hroot : k.mem f = kernelEntry []) :
    Wf k (Function.update sp a (some ⟨f, []⟩)) (addOwner own f (.table a [])) := by
  have hnew : ∀ {q t}, tableAt k.mem f q = some t → q = [] ∧ t = f := by
    intro q t ht
    rw [tableAt_kernelRoot hroot] at ht
    split at ht
    · exact ⟨‹_›, (Option.some.inj ht).symm⟩
    · cases ht
  have hsp : ∀ {b S}, sp b = some S → b ≠ a := by
    rintro b S hb rfl
    cases ha.symm.trans hb
  refine ⟨h.booted, ?_, ?_, ?_, ?_, ?_, ?_⟩
  · intro b S q t hb hq ht
    rcases update_cases hb with ⟨rfl, rfl⟩ | ⟨-, hb⟩
    · obtain ⟨rfl, rfl⟩ := hnew ht
      exact if_pos rfl
    · exact addOwner_old hfree (h.table_own hb hq ht)
  · intro b q t ht
    rcases addOwner_cases ht with ⟨rfl, ho⟩ | ht
    · cases ho
      exact ⟨Nat.zero_le _, _, Function.update_self .., rfl⟩
    · obtain ⟨hq, S, hb, ht⟩ := h.own_table ht
      exact ⟨hq, S, by rwa [Function.update_of_ne (hsp hb)], ht⟩
  · intro b S n g hb hn
    rcases update_cases hb with ⟨rfl, rfl⟩ | ⟨-, hb⟩
    · cases hn
    · exact addOwner_old hfree (h.page_own hb hn)
  · intro b n g hg
    rcases addOwner_cases hg with ⟨-, ho⟩ | hg
    · cases ho
    · obtain ⟨S, hb, hn⟩ := h.own_page hg
      exact ⟨S, by rwa [Function.update_of_ne (hsp hb)], hn⟩
  · intro g o ho
    rcases addOwner_cases ho with ⟨rfl, -⟩ | ho
    · exact ⟨hfr, hus⟩
    · exact h.frame ho
  · intro b S q t hb hq ht i
    rcases update_cases hb with ⟨rfl, rfl⟩ | ⟨-, hb⟩
    · obtain ⟨rfl, rfl⟩ := hnew ht
      exact .inl (by rw [hroot])
    · exact h.upper hb hq ht i

end AddressSpace
