import Mathlib.Tactic

/-! # Lists of blocks behind headers

    A region cut into blocks, each a header of `h` bytes and a payload, used or free.
    Adjacent free blocks are joined from the left, the header between them becoming
    payload. -/

namespace BlockList

variable {a : Nat}

structure Block where
  size : Nat
  free : Bool
  deriving DecidableEq, Repr

variable {bs : List Block}

section Measures

variable (h : Nat)

/-- Bytes of the blocks with their headers. -/
def span : List Block → Nat
  | [] => 0
  | b :: bs => h + b.size + span bs

/-- Bytes of the used blocks with their headers. -/
def usedBytes : List Block → Nat
  | [] => 0
  | b :: bs => (if b.free then 0 else b.size + h) + usedBytes bs

/-- Start and size of the payloads of the used blocks, the first header at `a`. -/
def payloads : Nat → List Block → List (Nat × Nat)
  | _, [] => []
  | a, b :: bs =>
    if b.free then payloads (a + h + b.size) bs
    else (a + h, b.size) :: payloads (a + h + b.size) bs

/-- No two neighbours are free. -/
def Separate (bs : List Block) : Prop :=
  bs.IsChain fun x y => ¬ (x.free ∧ y.free)

/-- The blocks from `b` on with free neighbours joined. -/
def mergeInto : Block → List Block → List Block
  | b, [] => [b]
  | b, b' :: bs =>
    if b.free && b'.free then mergeInto ⟨b.size + h + b'.size, true⟩ bs
    else b :: mergeInto b' bs

end Measures

variable {h : Nat}

theorem span_append (xs ys : List Block) : span h (xs ++ ys) = span h xs + span h ys := by
  induction xs with
  | nil => exact (Nat.zero_add _).symm
  | cons b bs ih =>
    rw [List.cons_append, span, span, ih]
    omega

theorem usedBytes_append (xs ys : List Block) :
    usedBytes h (xs ++ ys) = usedBytes h xs + usedBytes h ys := by
  induction xs with
  | nil => exact (Nat.zero_add _).symm
  | cons b bs ih => rw [List.cons_append, usedBytes, usedBytes, ih, Nat.add_assoc]

theorem usedBytes_le_span (bs : List Block) : usedBytes h bs ≤ span h bs := by
  induction bs with
  | nil => exact Nat.le_refl 0
  | cons b bs ih =>
    rw [usedBytes, span]
    split <;> omega

theorem payloads_append (a : Nat) (xs ys : List Block) :
    payloads h a (xs ++ ys) = payloads h a xs ++ payloads h (a + span h xs) ys := by
  induction xs generalizing a with
  | nil => rfl
  | cons b bs ih =>
    have hshift : a + h + b.size + span h bs = a + span h (b :: bs) := by
      rw [span]
      omega
    rw [List.cons_append, payloads, payloads, ih, hshift]
    split <;> rfl

/-! ## Payloads -/

theorem payloads_bounds {p : Nat × Nat} (hp : p ∈ payloads h a bs) :
    a + h ≤ p.1 ∧ p.1 + p.2 ≤ a + span h bs := by
  induction bs generalizing a with
  | nil => cases hp
  | cons b bs ih =>
    rw [payloads] at hp
    rw [span]
    split at hp
    · have := ih hp
      omega
    · rcases List.mem_cons.mp hp with rfl | hp
      · simp only
        omega
      · have := ih hp
        omega

/-- The payloads come in order and do not overlap. -/
theorem payloads_pairwise (a : Nat) (bs : List Block) :
    (payloads h a bs).Pairwise fun x y => x.1 + x.2 + h ≤ y.1 := by
  induction bs generalizing a with
  | nil => exact .nil
  | cons b bs ih =>
    rw [payloads]
    split
    · exact ih _
    · refine .cons (fun p hp => ?_) (ih _)
      have := (payloads_bounds hp).1
      simp only
      omega

theorem payloads_apart : ∀ x ∈ payloads h a bs, ∀ y ∈ payloads h a bs,
    x = y ∨ x.1 + x.2 ≤ y.1 ∨ y.1 + y.2 ≤ x.1 := by
  intro x hx y hy
  refine List.Pairwise.forall_of_forall_of_flip
    (R := fun x y => x = y ∨ x.1 + x.2 ≤ y.1 ∨ y.1 + y.2 ≤ x.1) (fun _ _ => .inl rfl)
    ((payloads_pairwise a bs).imp fun hxy => .inr (.inl ?_))
    ((payloads_pairwise a bs).imp fun hxy => .inr (.inr ?_)) hx hy
  · omega
  · omega

/-- Different blocks have different payloads. -/
theorem payloads_nodup (hpos : 0 < h) (a : Nat) (bs : List Block) :
    ((payloads h a bs).map Prod.fst).Nodup := by
  refine List.pairwise_map.mpr ((payloads_pairwise a bs).imp fun hxy heq => ?_)
  omega

/-- The block of a payload. -/
theorem exists_of_mem_payloads {p : Nat × Nat} (hp : p ∈ payloads h a bs) :
    ∃ pre b post, bs = pre ++ b :: post ∧ b.free = false ∧ p = (a + span h pre + h, b.size) := by
  induction bs generalizing a with
  | nil => cases hp
  | cons b bs ih =>
    have hrest : p ∈ payloads h (a + h + b.size) bs → ∃ pre b' post, b :: bs = pre ++ b' :: post ∧
        b'.free = false ∧ p = (a + span h pre + h, b'.size) := by
      intro hp
      obtain ⟨pre, b', post, rfl, hused, rfl⟩ := ih hp
      refine ⟨b :: pre, b', post, rfl, hused, ?_⟩
      rw [span]
      congr 1
      omega
    rw [payloads] at hp
    split at hp
    · exact hrest hp
    · rename_i hfree
      rcases List.mem_cons.mp hp with rfl | hp
      · exact ⟨[], b, bs, rfl, Bool.eq_false_iff.mpr hfree, rfl⟩
      · exact hrest hp

/-! ## Separation -/

/-- Another first block that is free only if the old one was. -/
theorem Separate.head {b c : Block} (hs : Separate (b :: bs)) (hc : c.free → b.free) :
    Separate (c :: bs) := by
  cases bs with
  | nil => exact .singleton c
  | cons b' bs =>
    obtain ⟨hne, hrest⟩ := List.isChain_cons_cons.mp hs
    exact .cons_cons (fun hboth => hne ⟨hc hboth.1, hboth.2⟩) hrest

/-- Other blocks from a used one on. -/
theorem Separate.splice {pre ys zs : List Block} {c : Block} (hs : Separate (pre ++ ys))
    (hc : c.free = false) (hnew : Separate (c :: zs)) : Separate (pre ++ c :: zs) := by
  refine List.isChain_append.mpr ⟨(List.isChain_append.mp hs).1, hnew, fun x _ y hy hboth => ?_⟩
  cases hy
  cases hc.symm.trans hboth.2

/-! ## Joining -/

theorem payloads_mergeInto (a : Nat) (b : Block) (bs : List Block) :
    payloads h a (mergeInto h b bs) = payloads h a (b :: bs) := by
  induction bs generalizing a b with
  | nil => rfl
  | cons b' bs ih =>
    rw [mergeInto]
    by_cases hfree : (b.free && b'.free)
    · obtain ⟨hb, hb'⟩ := Bool.and_eq_true_iff.mp hfree
      rw [if_pos hfree, ih, payloads, payloads, payloads, if_pos rfl, if_pos hb, if_pos hb']
      congr 1
      simp only
      omega
    · rw [if_neg hfree, payloads, ih]
      rfl

theorem usedBytes_mergeInto (b : Block) (bs : List Block) :
    usedBytes h (mergeInto h b bs) = usedBytes h (b :: bs) := by
  induction bs generalizing b with
  | nil => rfl
  | cons b' bs ih =>
    rw [mergeInto]
    by_cases hfree : (b.free && b'.free)
    · obtain ⟨hb, hb'⟩ := Bool.and_eq_true_iff.mp hfree
      rw [if_pos hfree, ih, usedBytes, usedBytes, usedBytes, if_pos rfl, if_pos hb, if_pos hb',
        Nat.zero_add, Nat.zero_add]
    · rw [if_neg hfree, usedBytes, ih]
      rfl

/-- The first block keeps its state. -/
theorem mergeInto_head (b : Block) (bs : List Block) :
    ∃ c cs, mergeInto h b bs = c :: cs ∧ c.free = b.free := by
  induction bs generalizing b with
  | nil => exact ⟨b, [], rfl, rfl⟩
  | cons b' bs ih =>
    rw [mergeInto]
    by_cases hfree : (b.free && b'.free)
    · obtain ⟨c, cs, heq, hc⟩ := ih ⟨b.size + h + b'.size, true⟩
      rw [if_pos hfree]
      exact ⟨c, cs, heq, hc.trans (Bool.and_eq_true_iff.mp hfree).1.symm⟩
    · rw [if_neg hfree]
      exact ⟨b, _, rfl, rfl⟩

theorem separate_mergeInto (b : Block) (bs : List Block) : Separate (mergeInto h b bs) := by
  induction bs generalizing b with
  | nil => exact .singleton b
  | cons b' bs ih =>
    rw [mergeInto]
    by_cases hfree : (b.free && b'.free)
    · rw [if_pos hfree]
      exact ih _
    · obtain ⟨c, cs, heq, hc⟩ := mergeInto_head (h := h) b' bs
      have hrest := ih b'
      rw [if_neg hfree]
      rw [heq] at hrest ⊢
      refine .cons_cons (fun hboth => hfree ?_) hrest
      rw [hboth.1, ← hc, hboth.2]
      rfl

/-- Without used blocks only one block is left. -/
theorem single_of_separate {b : Block} (hs : Separate (b :: bs))
    (hnone : payloads h a (b :: bs) = []) : bs = [] ∧ b.free := by
  have hfree : ∀ (a : Nat) (c : Block) (cs : List Block), payloads h a (c :: cs) = [] →
      c.free ∧ payloads h (a + h + c.size) cs = [] := by
    intro a c cs hn
    rw [payloads] at hn
    split at hn
    · rename_i hc
      exact ⟨hc, hn⟩
    · cases hn
  obtain ⟨hb, hrest⟩ := hfree a b bs hnone
  cases bs with
  | nil => exact ⟨rfl, hb⟩
  | cons b' bs => exact absurd ⟨hb, (hfree _ b' bs hrest).1⟩ (List.isChain_cons_cons.mp hs).1

end BlockList
