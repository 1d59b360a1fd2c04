import AoOs.MapPage

/-! # Destroying an address space — `vmm_destroy_address_space`

    Freeing the private tables of a space follows its pointers while it clears
    them.  Whatever it stores is in a table of that space, and whatever it frees
    is a frame of that space (`Frees`); so for every other space, and for the
    kernel, nothing has happened, and taking the space out of the ownership map
    leaves the others well formed (`Wf.remove`). -/

namespace AddressSpace

open Paging Vmm PointerTree

variable {t : Word}

variable {ι : Type} {k k' k'' : KState} {sp : ι → Option Space} {own : Word → Option (Owner ι)}
  {a : ι}

/-- The space an owner belongs to. -/
def Owner.space : Owner ι → ι
  | .table a _ => a
  | .page a _ => a

/-- The frame `f` belongs to the space `a`. -/
def OwnedBy (own : Word → Option (Owner ι)) (a : ι) (f : Word) : Prop :=
  ∃ o, own f = some o ∧ o.space = a

/-- From `k` to `k'` only frames of the space `a` have been freed, and only
    entries of its tables stored, as zeroes. -/
structure Frees (own : Word → Option (Owner ι)) (a : ι) (k k' : KState) : Prop where
  mem : ∀ t, ¬ OwnedBy own a t → k'.mem t = k.mem t
  entry : ∀ t i, k'.mem t i = k.mem t i ∨ k'.mem t i = 0#64
  used : ∀ n, (∀ f, OwnedBy own a f → frameNum f ≠ n) → k'.used n = k.used n
  kernel : k'.kernelPml4 = k.kernelPml4

theorem pmmFreePage_spec (f : Word) (k : KState) :
    (pmmFreePage f k).mem = k.mem ∧ (pmmFreePage f k).kernelPml4 = k.kernelPml4 ∧
      ∀ n, n ≠ frameNum f → (pmmFreePage f k).used n = k.used n := by
  rw [pmmFreePage]
  split
  · exact ⟨rfl, rfl, fun _ _ => rfl⟩
  · split
    · exact ⟨rfl, rfl, fun n hn => if_neg hn⟩
    · exact ⟨rfl, rfl, fun _ _ => rfl⟩

namespace Frees

theorem refl (own : Word → Option (Owner ι)) (a : ι) (k : KState) : Frees own a k k :=
  ⟨fun _ _ => rfl, fun _ _ => .inl rfl, fun _ _ => rfl, rfl⟩

theorem trans (h : Frees own a k k') (h' : Frees own a k' k'') : Frees own a k k'' := by
  refine ⟨fun t ht => (h'.mem t ht).trans (h.mem t ht), ?_,
    fun n hn => (h'.used n hn).trans (h.used n hn), h'.kernel.trans h.kernel⟩
  intro t i
  rcases h'.entry t i with he | he
  · rw [he]
    exact h.entry t i
  · exact .inr he

/-- Freeing a frame of the space. -/
theorem freePage {f : Word} (hf : OwnedBy own a f) (k : KState) :
    Frees own a k (pmmFreePage f k) := by
  obtain ⟨hmem, hker, hused⟩ := pmmFreePage_spec f k
  exact ⟨fun t _ => by rw [hmem], fun t i => .inl (by rw [hmem]),
    fun n hn => hused n fun h => hn f hf h.symm, hker⟩

/-- Clearing an entry of one of the space's tables. -/
theorem clear (ht : OwnedBy own a t) (i : Index) (k : KState) :
    Frees own a k (k.store t i 0#64) := by
  refine ⟨?_, ?_, fun _ _ => rfl, rfl⟩
  · intro u hu
    funext j
    refine Mem.set_table _ _ _ _ ?_
    rintro rfl
    exact hu ht
  · intro u j
    by_cases h : u = t ∧ j = i
    · exact .inr (if_pos h)
    · exact .inl (if_neg h)

end Frees

/-- Every private pointer in a table of the space leads to a table of the
    space. -/
def Closed (own : Word → Option (Owner ι)) (a : ι) (k : KState) : Prop :=
  ∀ p t, own t = some (.table a p) → p.length < 3 → ∀ i c, child (k.mem t i) = some c →
    own c = some (.table a (p ++ [i]))

theorem Closed.of_frees (h : Closed own a k) (hf : Frees own a k k') : Closed own a k' := by
  intro p t ht hp i c hc
  rcases hf.entry t i with he | he
  · rw [he] at hc
    exact h p t ht hp i c hc
  · rw [he, show child 0#64 = none by decide] at hc
    cases hc

theorem Wf.closed (h : Wf k sp own) (a : ι) : Closed own a k := by
  intro p t ht hp i c hc
  obtain ⟨-, S, ha, htab⟩ := h.own_table ht
  exact h.table_own ha (by rw [length_snoc]; omega)
    ((tableAt_snoc htab).trans hc)

/-- An entry the loop does not skip is a private pointer. -/
theorem child_of_not_skipped {e : Word}
    (h : ¬ (!has e ptePresent || !has e ptePrivateTable || has e pteHuge)) :
    child e = some (addrOf e) := by
  simp only [Bool.or_eq_true, Bool.not_eq_true', not_or, Bool.not_eq_false, Bool.not_eq_true] at h
  rw [child, h.1.1, h.1.2, h.2]
  rfl

/-- A call frees frames of the space only, and changes nothing else. -/
def FreesOwn (own : Word → Option (Owner ι)) (a : ι) (k : KState) (r : List Word × KState) :
    Prop := Frees own a k r.2 ∧ ∀ f ∈ r.1, OwnedBy own a f

/-- The loop over the entries of one table. -/
theorem freeEntries_frees {freeChild : Word → KState → List Word × KState} {p : List Index}
    (ht : own t = some (.table a p)) (hp : p.length < 3)
    (hchild : ∀ i c k, own c = some (.table a (p ++ [i])) → Closed own a k →
      FreesOwn own a k (freeChild c k)) (is : List Index) (hk : Closed own a k) :
    FreesOwn own a k (freeEntries freeChild t is k) := by
  induction is generalizing k with
  | nil => exact ⟨Frees.refl own a k, nofun⟩
  | cons i is ih =>
    rw [freeEntries]
    dsimp only
    split
    · exact ih hk
    · rename_i hskip
      have hc := hk p t ht hp i _ (child_of_not_skipped hskip)
      obtain ⟨h1, hbelow⟩ := hchild i _ k hc hk
      have h2 := h1.trans (Frees.freePage ⟨_, hc, rfl⟩ _)
      have h3 := h2.trans (Frees.clear ⟨_, ht, rfl⟩ i _)
      obtain ⟨h4, hrest⟩ := ih (hk.of_frees h3)
      refine ⟨h3.trans h4, fun f hf => ?_⟩
      rcases List.mem_append.mp hf with hf | hf
      · exact hbelow f hf
      · rcases List.mem_cons.mp hf with rfl | hf
        · exact ⟨_, hc, rfl⟩
        · exact hrest f hf

/-- **`free_private_tables` stays inside its space.** -/
theorem freePrivateTables_frees (level : Nat) {p : List Index} (ht : own t = some (.table a p))
    (hp : p.length + level = 3) (hk : Closed own a k) :
    FreesOwn own a k (freePrivateTables level t k) := by
  induction level generalizing p t k with
  | zero => exact ⟨Frees.refl own a k, nofun⟩
  | succ level ih =>
    refine freeEntries_frees ht (by omega) ?_ allIndices hk
    intro i c k hc hk
    exact ih hc (by rw [length_snoc]; omega) hk

theorem vmmDestroyAddressSpace_frees {S : Space} (h : Wf k sp own) (ha : sp a = some S)
    (hf : Frees own a k k') : Frees own a k' (vmmDestroyAddressSpace S.root k') := by
  have hfr := h.root_frame ha
  have hne : ¬ (S.root = 0#64 ∨ S.root = k'.kernelPml4) := by
    rintro (h0 | hker)
    · exact hfr.ne_zero h0
    · rw [hf.kernel, h.booted.root] at hker
      exact hfr.not_kernel (hker ▸ by decide)
  rw [vmmDestroyAddressSpace]
  simp only [show addrOf S.root = S.root from hfr.isPage, if_neg hne]
  exact (freePrivateTables_frees 3 (h.root_own ha) rfl ((h.closed a).of_frees hf)).1.trans
    (Frees.freePage ⟨_, h.root_own ha, rfl⟩ _)

/-! ## The spaces that remain -/

variable [DecidableEq ι]

/-- The spaces without `a`. -/
def without (sp : ι → Option Space) (a : ι) : ι → Option Space :=
  fun b => if b = a then none else sp b

/-- The ownership map without `a`. -/
def disown (own : Word → Option (Owner ι)) (a : ι) : Word → Option (Owner ι) :=
  fun f => (own f).filter fun o => o.space ≠ a

theorem disown_eq_some {f : Word} {o : Owner ι} :
    disown own a f = some o ↔ own f = some o ∧ o.space ≠ a := by
  rw [disown, Option.filter_eq_some_iff, decide_eq_true_iff]

theorem without_eq_some {b : ι} {S : Space} : without sp a b = some S ↔ b ≠ a ∧ sp b = some S := by
  rw [without]
  split <;> simp_all

/-- **After a space's frames have been freed the others are well formed**, and
    map what they did. -/
theorem Wf.remove (h : Wf k sp own) (hf : Frees own a k k') :
    Wf k' (without sp a) (disown own a) ∧ SameViews (without sp a) k k' := by
  -- a frame with another owner is not touched
  have hother : ∀ {f o}, own f = some o → o.space ≠ a → ¬ OwnedBy own a f := by
    rintro f o ho hne ⟨o', ho', ha⟩
    obtain rfl : o = o' := Option.mem_unique ho ho'
    exact hne ha
  have hmem : ∀ {b S q t}, b ≠ a → sp b = some S → q.length ≤ 3 →
      tableAt k.mem S.root q = some t → k'.mem t = k.mem t := by
    intro b S q t hba hb hq ht
    exact hf.mem t (hother (h.table_own hb hq ht) hba)
  have htab : ∀ {b S}, b ≠ a → sp b = some S → ∀ {q : List Index}, q.length ≤ 3 →
      tableAt k'.mem S.root q = tableAt k.mem S.root q := by
    intro b S hba hb q hq
    refine nodeAt_congr (fun q u hq hu i => ?_) hq
    rw [hmem hba hb (by omega) hu]
  refine ⟨⟨?_, ?_, ?_, ?_, ?_, ?_, ?_⟩, ?_⟩
  · refine h.booted.of_mem hf.kernel fun t ht => hf.mem t ?_
    rintro ⟨o, ho, -⟩
    exact (h.frame ho).1.not_kernel ht
  · intro b S q t hb hq ht
    obtain ⟨hba, hb⟩ := without_eq_some.mp hb
    rw [htab hba hb hq] at ht
    exact disown_eq_some.mpr ⟨h.table_own hb hq ht, hba⟩
  · intro b q t ht
    obtain ⟨ht, hba⟩ := disown_eq_some.mp ht
    obtain ⟨hq, S, hb, ht⟩ := h.own_table ht
    exact ⟨hq, S, without_eq_some.mpr ⟨hba, hb⟩, by rwa [htab hba hb hq]⟩
  · intro b S n f hb hn
    obtain ⟨hba, hb⟩ := without_eq_some.mp hb
    exact disown_eq_some.mpr ⟨h.page_own hb hn, hba⟩
  · intro b n f hn
    obtain ⟨hn, hba⟩ := disown_eq_some.mp hn
    obtain ⟨S, hb, hn⟩ := h.own_page hn
    exact ⟨S, without_eq_some.mpr ⟨hba, hb⟩, hn⟩
  · intro f o ho
    obtain ⟨ho, hne⟩ := disown_eq_some.mp ho
    obtain ⟨hfr, hus⟩ := h.frame ho
    refine ⟨hfr, ?_⟩
    rw [hf.used, hus]
    rintro g hg hnum
    -- frames with one number are one frame
    obtain ⟨o', ho', hsp⟩ := hg
    obtain rfl := (h.frame ho').1.num_inj hfr hnum
    exact hother ho hne ⟨o', ho', hsp⟩
  · intro b S q t hb hq ht i
    obtain ⟨hba, hb⟩ := without_eq_some.mp hb
    rw [htab hba hb (by omega)] at ht
    rw [hmem hba hb (by omega) ht]
    exact h.upper hb hq ht i
  · intro b S hb q hq
    obtain ⟨hba, hb⟩ := without_eq_some.mp hb
    rw [view, view, htab hba hb (by omega)]
    cases ht : tableAt k.mem S.root q with
    | none => rfl
    | some t => exact hmem hba hb (by omega) ht

end AddressSpace
