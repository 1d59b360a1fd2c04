import Mathlib.Tactic

/-! # Guarded runs of a labelled step function

    A system is a partial step function on states, driven by labels.  A run may
    be asked to meet a condition at every step it takes; `Steps.invariant` is the
    one induction behind every "in every state reached" statement: whatever a
    step under the condition preserves, a run under the condition preserves. -/

namespace StepSystem

variable {S L : Type}

/-- A run from one state to another along a list of labels, each step of it
    enabled and meeting the condition `C` in the state it is taken from. -/
inductive Steps (step : S → L → Option S) (C : S → L → Prop) : S → List L → S → Prop where
  | nil (s : S) : Steps step C s [] s
  | cons {s s₁ s' : S} {l : L} {ls : List L} :
      step s l = some s₁ → C s l → Steps step C s₁ ls s' → Steps step C s (l :: ls) s'

/-- The condition that asks for nothing. -/
def Any : S → L → Prop := fun _ _ => True

variable {step : S → L → Option S} {C : S → L → Prop}

/-- **The invariant rule.** -/
theorem Steps.invariant {I : S → Prop} (hstep : ∀ s l s', I s → C s l → step s l = some s' → I s')
    {s s' : S} {ls : List L} (h : Steps step C s ls s') (h0 : I s) : I s' := by
  induction h with
  | nil s => exact h0
  | cons hs hc _ ih => exact ih (hstep _ _ _ h0 hc hs)

/-- **The simulation rule**: what every step keeps between the state and an abstract one
    that follows the labels, a run keeps. -/
theorem Steps.simulates {A : Type} {next : A → L → A} {R : S → A → Prop}
    (hstep : ∀ s l s' a, R s a → C s l → step s l = some s' → R s' (next a l)) {s s' : S}
    {ls : List L} (h : Steps step C s ls s') {a : A} (h0 : R s a) : R s' (ls.foldl next a) := by
  induction h generalizing a with
  | nil s => exact h0
  | cons hs hc _ ih => exact ih (hstep _ _ _ _ h0 hc hs)

/-- A run whose labels all satisfy `P` is a run under `P`. -/
theorem Steps.of_labels {P : L → Prop} {s s' : S} {ls : List L} (h : Steps step C s ls s')
    (hls : ∀ l ∈ ls, P l) : Steps step (fun _ l => P l) s ls s' := by
  induction h with
  | nil s => exact .nil s
  | cons hs _ _ ih =>
    exact .cons hs (hls _ List.mem_cons_self)
      (ih fun l hl => hls l (List.mem_cons_of_mem _ hl))

/-- The run along a list of labels, if every step is enabled and meets `C`. -/
def runWhile (step : S → L → Option S) (C : S → L → Prop) [∀ s l, Decidable (C s l)] (s : S) :
    List L → Option S
  | [] => some s
  | l :: ls => if C s l then (step s l).bind (fun s₁ => runWhile step C s₁ ls) else none

instance (s : S) (l : L) : Decidable (Any s l) := isTrue trivial

/-- What `runWhile` computes is a run. -/
theorem steps_of_runWhile [∀ s l, Decidable (C s l)] {s s' : S} {ls : List L}
    (h : runWhile step C s ls = some s') : Steps step C s ls s' := by
  induction ls generalizing s with
  | nil =>
    cases h
    exact .nil _
  | cons l ls ih =>
    rw [runWhile] at h
    split at h
    · obtain ⟨s₁, hs, hrest⟩ := Option.bind_eq_some_iff.mp h
      exact .cons hs (by assumption) (ih hrest)
    · cases h

end StepSystem
