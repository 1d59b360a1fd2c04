import AoOs.BlockIO

/-! # Loop programs — sector programs whose loops need not end

    A `BlockM` tree is finite on every path, so whatever it models returns.  A
    driver with a `while` loop in it may not.  Here such a program is the family
    of its finite unfoldings: `upTo n` allows every loop `n` rounds and gives
    `none` when that was not enough.  The field `steady` says that the family
    hangs together: once there is a result, more rounds do not change it.

    `Yields` is then the big-step meaning of a program, with one rule per
    construct; a program that yields nothing runs forever. -/

namespace LoopIO

open BlockIO BlockM

variable {d : Disk}

variable {α β σ : Type}

/-- A sector program with loops. -/
structure LoopM (α : Type) where
  upTo : Nat → BlockM (Option α)
  steady : ∀ ok d n m, n ≤ m → (run ok (upTo n) d).1.isSome →
    run ok (upTo m) d = run ok (upTo n) d

/-- At most `n` rounds of a loop whose body is `b`. -/
def rounds (b : σ → BlockM (Option (σ ⊕ α))) : Nat → σ → BlockM (Option α)
  | 0, _ => pure none
  | n + 1, s => do
      match ← b s with
      | none => pure none
      | some (.inl s') => rounds b n s'
      | some (.inr a) => pure (some a)

theorem rounds_steady {ok : Nat → Bool} {b b' : σ → BlockM (Option (σ ⊕ α))}
    (hb : ∀ s d, (run ok (b s) d).1.isSome → run ok (b' s) d = run ok (b s) d) :
    ∀ n m, n ≤ m → ∀ s d, (run ok (rounds b n s) d).1.isSome →
      run ok (rounds b' m s) d = run ok (rounds b n s) d := by
  intro n
  induction n with
  | zero =>
    intro m _ s d h
    cases h
  | succ n ih =>
    intro m hm s d h
    obtain ⟨m, rfl⟩ := Nat.exists_eq_add_of_le' (Nat.le_of_add_left_le hm)
    rw [rounds, run_bind] at h ⊢
    rw [rounds, run_bind]
    cases hr : run ok (b s) d with
    | mk o d' =>
      cases o with
      | none =>
        rw [hr] at h
        cases h
      | some q =>
        rw [hb s d (by rw [hr]; rfl), hr]
        rw [hr] at h
        cases q with
        | inl s' => exact ih m (by omega) s' d' h
        | inr a => rfl

namespace LoopM

/-- A program without loops. -/
def lift (p : BlockM α) : LoopM α where
  upTo _ := do
    let a ← p
    pure (some a)
  steady _ _ _ _ _ _ := rfl

protected def pure (a : α) : LoopM α where
  upTo _ := pure (some a)
  steady _ _ _ _ _ _ := rfl

protected def bind (p : LoopM α) (f : α → LoopM β) : LoopM β where
  upTo n := do
    match ← p.upTo n with
    | none => pure none
    | some a => (f a).upTo n
  steady ok d n m hnm h := by
    rw [run_bind] at h ⊢
    rw [run_bind]
    cases hr : run ok (p.upTo n) d with
    | mk o d' =>
      rw [hr] at h
      cases o with
      | none => cases h
      | some a =>
        rw [p.steady ok d n m hnm (by rw [hr]; rfl), hr]
        exact (f a).steady ok d' n m hnm h

instance : Monad LoopM where
  pure := LoopM.pure
  bind := LoopM.bind

instance : MonadLift BlockM LoopM := ⟨lift⟩

/-- `while (1)`: the body goes on with a new state, or leaves with a result. -/
def loop (body : σ → LoopM (σ ⊕ α)) (s : σ) : LoopM α where
  upTo n := rounds (fun s => (body s).upTo n) n s
  steady ok d n m hnm h :=
    rounds_steady (fun s d hs => (body s).steady ok d n m hnm hs) n m hnm s d h

end LoopM

open LoopM

variable (ok : Nat → Bool)

/-- The program returns `r.1` and leaves the disk `r.2` behind. -/
def Yields (p : LoopM α) (d : Disk) (r : α × Disk) : Prop :=
  ∃ n, run ok (p.upTo n) d = (some r.1, r.2)

/-- The program returns. -/
def Halts (p : LoopM α) (d : Disk) : Prop := ∃ r, Yields ok p d r

variable {ok} {f : α → LoopM β} {p : LoopM α} {body : σ → LoopM (σ ⊕ α)} {r : α × Disk}
  {t : BlockM α}

/-- A result stays the result. -/
theorem Yields.stays {n : Nat} (h : run ok (p.upTo n) d = (some r.1, r.2)) {m : Nat} (hm : n ≤ m) :
    run ok (p.upTo m) d = (some r.1, r.2) := by
  rw [p.steady ok d n m hm (by rw [h]; rfl), h]

theorem Yields.unique {r r' : α × Disk} (h : Yields ok p d r) (h' : Yields ok p d r') : r = r' := by
  obtain ⟨n, hn⟩ := h
  obtain ⟨m, hm⟩ := h'
  have heq := (Yields.stays hn (Nat.le_max_left n m)).symm.trans
    (Yields.stays hm (Nat.le_max_right n m))
  rw [Prod.mk.injEq, Option.some.injEq] at heq
  exact Prod.ext heq.1 heq.2

@[simp] theorem yields_pure_iff {a : α} : Yields ok (pure a : LoopM α) d r ↔ r = (a, d) := by
  constructor
  · rintro ⟨_, h⟩
    exact Prod.ext (Option.some.inj (congrArg Prod.fst h)).symm (congrArg Prod.snd h).symm
  · rintro rfl
    exact ⟨0, rfl⟩

@[simp] theorem yields_lift_iff {p : BlockM α} :
    Yields ok (liftM p : LoopM α) d r ↔ r = run ok p d := by
  have hrun : ∀ n, run ok ((liftM p : LoopM α).upTo n) d =
      (some (run ok p d).1, (run ok p d).2) := by
    intro n
    show run ok (p >>= fun a => pure (some a)) d = _
    rw [run_bind]
    rfl
  constructor
  · rintro ⟨n, h⟩
    rw [hrun] at h
    exact Prod.ext (Option.some.inj (congrArg Prod.fst h)).symm (congrArg Prod.snd h).symm
  · rintro rfl
    exact ⟨0, hrun 0⟩

theorem yields_bind_iff {r : β × Disk} :
    Yields ok (p >>= f) d r ↔ ∃ q, Yields ok p d q ∧ Yields ok (f q.1) q.2 r := by
  have hbind : ∀ n, run ok ((p >>= f).upTo n) d =
      run ok (match (run ok (p.upTo n) d).1 with
        | none => pure none
        | some a => (f a).upTo n) (run ok (p.upTo n) d).2 :=
    fun n => run_bind ok _ _ d
  constructor
  · rintro ⟨n, h⟩
    rw [hbind] at h
    cases hr : run ok (p.upTo n) d with
    | mk o d' =>
      rw [hr] at h
      cases o with
      | none => cases congrArg Prod.fst h
      | some a => exact ⟨(a, d'), ⟨n, hr⟩, ⟨n, h⟩⟩
  · rintro ⟨q, ⟨n, hn⟩, ⟨m, hm⟩⟩
    refine ⟨max n m, ?_⟩
    rw [hbind, Yields.stays hn (Nat.le_max_left n m)]
    exact Yields.stays hm (Nat.le_max_right n m)

/-- A program without loops in front of another. -/
theorem yields_lift_bind_iff {p : BlockM α} {r : β × Disk} :
    Yields ok (liftM p >>= f) d r ↔ Yields ok (f (run ok p d).1) (run ok p d).2 r := by
  rw [yields_bind_iff]
  constructor
  · rintro ⟨q, hq, h⟩
    rw [yields_lift_iff] at hq
    rw [← hq]
    exact h
  · intro h
    exact ⟨_, yields_lift_iff.mpr rfl, h⟩

/-- The rule of loops: one round, then the rest. -/
theorem yields_loop_iff {s : σ} :
    Yields ok (loop body s) d r ↔
      ∃ q, Yields ok (body s) d q ∧
        ((∃ s', q.1 = .inl s' ∧ Yields ok (loop body s') q.2 r) ∨
          (q.1 = .inr r.1 ∧ q.2 = r.2)) := by
  constructor
  · rintro ⟨n, h⟩
    cases n with
    | zero => cases congrArg Prod.fst h
    | succ n =>
      change run ok (rounds (fun s => (body s).upTo (n + 1)) (n + 1) s) d = _ at h
      rw [rounds, run_bind] at h
      cases hr : run ok ((body s).upTo (n + 1)) d with
      | mk o d' =>
        rw [hr] at h
        cases o with
        | none => cases congrArg Prod.fst h
        | some q =>
          refine ⟨(q, d'), ⟨n + 1, hr⟩, ?_⟩
          cases q with
          | inl s' =>
            refine .inl ⟨s', rfl, n + 1, ?_⟩
            have hsome : (run ok (rounds (fun s => (body s).upTo (n + 1)) n s') d').1.isSome := by
              rw [show run ok (rounds (fun s => (body s).upTo (n + 1)) n s') d' = _ from h]
              rfl
            exact (rounds_steady (fun _ _ _ => rfl) n (n + 1) (Nat.le_succ n) s' d' hsome).trans h
          | inr a =>
            exact .inr ⟨congrArg Sum.inr (Option.some.inj (congrArg Prod.fst h)),
              congrArg Prod.snd h⟩
  · rintro ⟨⟨q, d'⟩, ⟨n, hn⟩, hcase⟩
    have hround : ∀ m, n ≤ m + 1 → run ok ((loop body s).upTo (m + 1)) d =
        run ok (match some q with
          | none => pure none
          | some (.inl s') => rounds (fun s => (body s).upTo (m + 1)) m s'
          | some (.inr a) => pure (some a)) d' := by
      intro m hm
      change run ok (rounds (fun s => (body s).upTo (m + 1)) (m + 1) s) d = _
      rw [rounds, run_bind, Yields.stays hn hm]
    rcases hcase with ⟨s', hq, ⟨k, hk⟩⟩ | ⟨hq, hd⟩
    · change q = .inl s' at hq
      subst hq
      refine ⟨max n k + 1, ?_⟩
      rw [hround _ (by omega)]
      have hsome : (run ok ((loop body s').upTo k) d').1.isSome := by
        rw [hk]
        rfl
      exact (rounds_steady (fun t e he => (body t).steady ok e k _ (by omega) he) k _ (by omega)
        s' d' hsome).trans hk
    · change q = .inr r.1 at hq
      change d' = r.2 at hd
      subst hq hd
      exact ⟨n + 1, hround n (by omega)⟩

/-- A loop whose rounds keep `I` and never leave runs forever. -/
theorem loop_endless (I : σ → Disk → Prop)
    (hround : ∀ s d, I s d → ∃ s' d', Yields ok (body s) d (.inl s', d') ∧ I s' d') :
    ∀ s d, I s d → ¬ Halts ok (loop body s) d := by
  rintro s d hI ⟨r, n, hn⟩
  have hnone : ∀ b k s d, I s d →
      (run ok (rounds (fun s => (body s).upTo b) k s) d).1 = none := by
    intro b k
    induction k with
    | zero => intro s d _; rfl
    | succ k ih =>
      intro s d hI
      obtain ⟨s', d', ⟨j, hj⟩, hI'⟩ := hround s d hI
      rw [rounds, run_bind]
      cases hr : run ok ((body s).upTo b) d with
      | mk o e =>
        cases o with
        | none => rfl
        | some q =>
          -- whatever the round gives is what it always gives
          have hq : Yields ok (body s) d (q, e) := ⟨b, hr⟩
          obtain ⟨rfl, rfl⟩ := Prod.mk.inj (hq.unique ⟨j, hj⟩)
          exact ih s' e hI'
  have := hnone n n s d hI
  rw [show run ok (rounds (fun s => (body s).upTo n) n s) d = _ from hn] at this
  cases this

/-! ## Loop programs and the trees they amount to -/

/-- On the disk `d` the program returns, and does what the tree `t` does. -/
def Agrees (ok : Nat → Bool) (p : LoopM α) (t : BlockM α) (d : Disk) : Prop :=
  Yields ok p d (run ok t d)

theorem Agrees.halts (h : Agrees ok p t d) : Halts ok p d := ⟨_, h⟩

theorem agrees_pure (a : α) (d : Disk) : Agrees ok (pure a) (pure a) d :=
  yields_pure_iff.mpr rfl

theorem agrees_lift (t : BlockM α) (d : Disk) : Agrees ok (liftM t) t d :=
  yields_lift_iff.mpr rfl

theorem agrees_bind {g : α → BlockM β} (hp : Agrees ok p t d)
    (hf : Agrees ok (f (run ok t d).1) (g (run ok t d).1) (run ok t d).2) :
    Agrees ok (p >>= f) (t >>= g) d := by
  rw [Agrees, run_bind]
  exact yields_bind_iff.mpr ⟨_, hp, hf⟩

theorem agrees_ite {c : Prop} [Decidable c] {p q : LoopM α} {t u : BlockM α}
    (hp : c → Agrees ok p t d) (hq : ¬ c → Agrees ok q u d) :
    Agrees ok (if c then p else q) (if c then t else u) d := by
  by_cases h : c
  · rw [if_pos h, if_pos h]
    exact hp h
  · rw [if_neg h, if_neg h]
    exact hq h

/-- A bounded recursion `t` that unrolls as the loop does, started with more
    rounds than the measure allows. -/
theorem loop_agrees {t : Nat → σ → BlockM α} (I : σ → Disk → Prop) (μ : σ → Disk → Nat) (hround :
    ∀ n s d, I s d → ∃ q, Yields ok (body s) d q ∧ ((∃ s', q.1 = .inl s' ∧ I s' q.2 ∧ μ s' q.2 <
      μ s d ∧ run ok (t (n + 1) s) d = run ok (t n s') q.2) ∨ ∃ a, q.1 = .inr a ∧
      run ok (t (n + 1) s) d = (a, q.2))) : ∀ n s d, I s d → μ s d < n →
      Agrees ok (loop body s) (t n s) d := by
  intro n
  induction n with
  | zero => intro s d _ h; cases h
  | succ n ih =>
    intro s d hI hμ
    obtain ⟨q, hq, ⟨s', hs', hI', hlt, hrun⟩ | ⟨a, ha, hrun⟩⟩ := hround n s d hI
    · refine yields_loop_iff.mpr ⟨q, hq, .inl ⟨s', hs', ?_⟩⟩
      rw [hrun]
      exact ih s' q.2 hI' (by omega)
    · refine yields_loop_iff.mpr ⟨q, hq, .inr ?_⟩
      rw [hrun]
      exact ⟨ha, rfl⟩

/-- What never returns does not return with more to do. -/
theorem not_halts_bind (h : ¬ Halts ok p d) : ¬ Halts ok (p >>= f) d := by
  rintro ⟨r, hr⟩
  obtain ⟨q, hq, _⟩ := yields_bind_iff.mp hr
  exact h ⟨q, hq⟩

theorem halts_lift_bind_iff :
    Halts ok (liftM t >>= f) d ↔ Halts ok (f (run ok t d).1) (run ok t d).2 :=
  exists_congr fun _ => yields_lift_bind_iff

end LoopIO
