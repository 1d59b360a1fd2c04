import AoOs.BlockIO

/-! # Triples with a footprint

    `Triple ok P pre p post`: started on a disk with `pre`, the program writes only
    sectors in `P`, and its result and the disk it leaves satisfy `post`.  Unlike
    `WritesIn` this looks at the disk: which sectors a driver writes may depend on
    what it has read there. -/

namespace BlockHoare

open BlockIO BlockM

variable {α β : Type}

def Triple (ok : Nat → Bool) (P : Nat → Prop) (pre : Disk → Prop) (p : BlockM α)
    (post : α → Disk → Prop) : Prop :=
  ∀ d, pre d → (∀ lba ∈ written ok p d, P lba) ∧ post (run ok p d).1 (run ok p d).2

variable {ok : Nat → Bool} {P : Nat → Prop} {pre : Disk → Prop} {post : α → Disk → Prop}
  {p : BlockM α}

theorem triple_pure {a : α} (h : ∀ d, pre d → post a d) : Triple ok P pre (pure a) post :=
  fun d hd => ⟨fun _ hl => (nomatch hl), h d hd⟩

theorem triple_skip (a : α) : Triple ok P pre (pure a) fun _ => pre := triple_pure fun _ hd => hd

theorem triple_bind {f : α → BlockM β} {mid : α → Disk → Prop} {post : β → Disk → Prop}
    (hp : Triple ok P pre p mid) (hf : ∀ a, Triple ok P (mid a) (f a) post) :
    Triple ok P pre (p >>= f) post := by
  intro d hd
  obtain ⟨hw, hmid⟩ := hp d hd
  obtain ⟨hw', hpost⟩ := hf _ _ hmid
  rw [run_bind, written_bind]
  refine ⟨fun lba hl => ?_, hpost⟩
  rcases List.mem_append.mp hl with hl | hl
  · exact hw lba hl
  · exact hw' lba hl

theorem triple_ite {c : Prop} [Decidable c] {p q : BlockM α} (hp : c → Triple ok P pre p post)
    (hq : ¬ c → Triple ok P pre q post) : Triple ok P pre (if c then p else q) post := by
  by_cases h : c
  · rw [if_pos h]; exact hp h
  · rw [if_neg h]; exact hq h

theorem Triple.mono {P' : Nat → Prop} {pre' : Disk → Prop} {post post' : α → Disk → Prop}
    (h : Triple ok P pre p post) (hP : ∀ lba, P lba → P' lba) (hpre : ∀ d, pre' d → pre d)
    (hpost : ∀ a d, post a d → post' a d) : Triple ok P' pre' p post' := by
  intro d hd
  obtain ⟨hw, hq⟩ := h d (hpre d hd)
  exact ⟨fun lba hl => hP lba (hw lba hl), hpost _ _ hq⟩

theorem Triple.of_left {R : Disk → Prop} (h : Triple ok P pre p post) :
    Triple ok P (fun d => pre d ∧ R d) p post :=
  h.mono (fun _ h => h) (fun _ h => h.1) fun _ _ h => h

/-- A condition that does not mention the disk is a hypothesis. -/
theorem triple_fact {φ : Prop} (h : φ → Triple ok P pre p post) :
    Triple ok P (fun d => pre d ∧ φ) p post :=
  fun d hd => h hd.2 d hd.1

/-- A program that only reads: the disk is the same, the result is what it reads. -/
theorem triple_noWrites (hp : NoWrites p) :
    Triple ok P pre p fun a d => pre d ∧ a = (run ok p d).1 := by
  intro d hd
  rw [hp.readOnly ok d, hp ok d]
  exact ⟨fun _ hl => (nomatch hl), hd, rfl⟩

/-- Reading first does not matter. -/
theorem triple_after_read {f : α → BlockM β} {post : β → Disk → Prop} (hp : NoWrites p)
    (hf : ∀ a, Triple ok P pre (f a) post) : Triple ok P pre (p >>= f) post :=
  triple_bind (triple_noWrites hp) fun a => (hf a).of_left

end BlockHoare
