import Mathlib.Tactic

/-! # Areas with checked access

    A program that works on buffers through bare pointers has no bounds checks.  Here
    every access carries one: an area knows how many cells it has, and reading, storing
    or copying outside it, or a subtraction of lengths that would wrap, stops the
    computation with the fault.  A computation that returns has therefore stayed inside
    all its areas; each operation has one rule that says when it returns, and with
    what. -/

namespace CheckedArea

variable {β : Type} {i : Nat}

/-- What stops a computation. -/
inductive Fault where
  | outside (i size : Nat)
  | wraps (a b : Nat)
  deriving DecidableEq

/-- `n` cells; what the function says beyond them is never seen. -/
structure Area (α : Type) (n : Nat) where
  cell : Nat → α

variable {α : Type} {n m : Nat}

def Area.get (a : Area α n) (i : Nat) : Except Fault α :=
  if i < n then .ok (a.cell i) else .error (.outside i n)

def Area.put (a : Area α n) (i : Nat) (v : α) : Except Fault (Area α n) :=
  if i < n then .ok ⟨fun k => if k = i then v else a.cell k⟩ else .error (.outside i n)

/-- `len` cells of `src` from `j` on into `dst` from `i` on. -/
def Area.copy (dst : Area α n) (i : Nat) (src : Area α m) (j len : Nat) :
    Except Fault (Area α n) :=
  if n < i + len then .error (.outside (i + len) n)
  else if m < j + len then .error (.outside (j + len) m)
  else .ok ⟨fun k => if i ≤ k ∧ k < i + len then src.cell (j + (k - i)) else dst.cell k⟩

/-- A difference of lengths. -/
def sub (a b : Nat) : Except Fault Nat :=
  if b ≤ a then .ok (a - b) else .error (.wraps a b)

theorem ok_bind {γ : Type} (x : β) (f : β → Except Fault γ) :
    (Except.ok x : Except Fault β) >>= f = f x := rfl

theorem Area.get_ok (a : Area α n) (h : i < n) : a.get i = .ok (a.cell i) := if_pos h

theorem Area.put_ok (a : Area α n) (v : α) (h : i < n) :
    a.put i v = .ok ⟨fun k => if k = i then v else a.cell k⟩ := if_pos h

theorem Area.copy_ok (dst : Area α n) (src : Area α m) {j len : Nat} (h : i + len ≤ n)
    (h' : j + len ≤ m) : dst.copy i src j len =
      .ok ⟨fun k => if i ≤ k ∧ k < i + len then src.cell (j + (k - i)) else dst.cell k⟩ := by
  rw [copy, if_neg (by omega), if_neg (by omega)]

theorem sub_ok {a b : Nat} (h : b ≤ a) : sub a b = .ok (a - b) := if_pos h

/-- The computation returns, and with a value that has the property. -/
def Returns {β : Type} (c : Except Fault β) (P : β → Prop) : Prop := ∃ x, c = .ok x ∧ P x

theorem Returns.ok {P : β → Prop} {x : β} (h : P x) :
    Returns (.ok x : Except Fault β) P := ⟨x, rfl, h⟩

theorem Returns.bind {γ : Type} {c : Except Fault β} {f : β → Except Fault γ} {P : β → Prop}
    {Q : γ → Prop} (hc : Returns c P) (hf : ∀ x, P x → Returns (f x) Q) : Returns (c >>= f) Q := by
  obtain ⟨x, rfl, hx⟩ := hc
  exact hf x hx

theorem Returns.mono {c : Except Fault β} {P Q : β → Prop} (hc : Returns c P) (h : ∀ x, P x → Q x) :
    Returns c Q := by
  obtain ⟨x, hx, hP⟩ := hc
  exact ⟨x, hx, h x hP⟩

end CheckedArea
