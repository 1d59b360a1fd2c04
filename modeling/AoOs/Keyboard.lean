import AoOs.RingQueue
import AoOs.StepSystem

/-! # The keyboard buffer — `keyboard.c`

    The interrupt handler puts characters into a ring of 256 cells, `keyboard_getchar`
    takes them out.  The handler runs as a whole, but between any two memory accesses of
    `keyboard_getchar`: the consumer is a state machine with one access a step, and the
    two indices of the comparison are read in either order.  The machine also lists what
    the handler has accepted and what `keyboard_getchar` has returned. -/

namespace Keyboard

open RingQueue StepSystem

/-- `KB_BUFFER_SIZE`. -/
def kbBufferSize : Nat := 256

/-- Where the consumer is, with what it has read. -/
inductive Pc where
  | idle
  -- `kb_tail != kb_head`, one index read
  | tailRead (tail : Nat)
  | headRead (head : Nat)
  -- `ch = kb_buffer[kb_tail]`
  | fetch
  | index (tail : Nat)
  -- `kb_tail = (kb_tail + 1) % KB_BUFFER_SIZE`
  | char (ch : UInt8)
  | advance (ch : UInt8) (tail : Nat)

structure Sys where
  kbBuffer : Nat → UInt8
  kbHead : Nat
  kbTail : Nat
  pc : Pc
  accepted : List UInt8
  returned : List UInt8

variable {s : Sys}

/-- After `keyboard_init`, with anything in the buffer. -/
def start (buffer : Nat → UInt8) : Sys := ⟨buffer, 0, 0, .idle, [], []⟩

/-- `keyboard_irq_handler`, for which `translate_scancode` has returned `ch`. -/
def keyboardIrqHandler (s : Sys) (ch : UInt8) : Sys :=
  if ch ≠ 0 then
    let next := (s.kbHead + 1) % kbBufferSize
    if next ≠ s.kbTail then
      { s with
        kbBuffer := fun i => if i = s.kbHead then ch else s.kbBuffer i
        kbHead := next
        accepted := s.accepted ++ [ch] }
    else s
  else s

/-- `keyboard_getchar` returns; a 0 stands for no character. -/
def Sys.ret (s : Sys) (ch : UInt8) : Sys :=
  { s with pc := .idle, returned := if ch ≠ 0 then s.returned ++ [ch] else s.returned }

/-- The next access of `keyboard_getchar`; a call starts with either index. -/
def keyboardGetchar (headFirst : Bool) (s : Sys) : Sys :=
  match s.pc with
  | .idle => { s with pc := if headFirst then .headRead s.kbHead else .tailRead s.kbTail }
  | .tailRead tail => if tail ≠ s.kbHead then { s with pc := .fetch } else s.ret 0
  | .headRead head => if s.kbTail ≠ head then { s with pc := .fetch } else s.ret 0
  | .fetch => { s with pc := .index s.kbTail }
  | .index tail => { s with pc := .char (s.kbBuffer tail) }
  | .char ch => { s with pc := .advance ch s.kbTail }
  | .advance ch tail => { s with kbTail := (tail + 1) % kbBufferSize }.ret ch

inductive Label where
  | key (ch : UInt8)
  | access (headFirst : Bool)

def step (s : Sys) : Label → Option Sys
  | .key ch => some (keyboardIrqHandler s ch)
  | .access headFirst => some (keyboardGetchar headFirst s)

/-! ## The invariant -/

/-- The characters in the buffer that have not been returned. -/
def unread (s : Sys) : List UInt8 := contents kbBufferSize s.kbBuffer s.kbTail s.kbHead

/-- What the consumer has read is still so: only it moves the tail, and the handler does not
    touch the cell at the tail. -/
def PcOk (s : Sys) : Prop :=
  match s.pc with
  | .idle => True
  | .tailRead tail => tail = s.kbTail
  | .headRead head => head < kbBufferSize ∧ (s.kbTail ≠ head → s.kbTail ≠ s.kbHead)
  | .fetch => s.kbTail ≠ s.kbHead
  | .index tail => s.kbTail ≠ s.kbHead ∧ tail = s.kbTail
  | .char ch => s.kbTail ≠ s.kbHead ∧ ch = s.kbBuffer s.kbTail
  | .advance ch tail => s.kbTail ≠ s.kbHead ∧ ch = s.kbBuffer s.kbTail ∧ tail = s.kbTail

structure Inv (s : Sys) : Prop where
  head : s.kbHead < kbBufferSize
  tail : s.kbTail < kbBufferSize
  fifo : s.returned ++ unread s = s.accepted
  nonzero : ∀ ch ∈ s.accepted, ch ≠ 0
  pc : PcOk s

theorem next_eq {i : Nat} (h : i < kbBufferSize) :
    (i + 1) % kbBufferSize = wrap kbBufferSize (i + 1) :=
  mod_eq_wrap (by have : kbBufferSize = 256 := rfl; omega)

section Inv

variable (h : Inv s)

include h

/-- **The handler**: a character is accepted behind the unread ones, or the buffer is full. -/
theorem irq_cases (ch : UInt8) :
    (keyboardIrqHandler s ch = s ∧ (ch = 0 ∨ (unread s).length = kbBufferSize - 1)) ∨
    (ch ≠ 0 ∧ (keyboardIrqHandler s ch).accepted = s.accepted ++ [ch] ∧
      (keyboardIrqHandler s ch).returned = s.returned ∧
      (keyboardIrqHandler s ch).pc = s.pc ∧ (keyboardIrqHandler s ch).kbTail = s.kbTail ∧
      (keyboardIrqHandler s ch).kbHead < kbBufferSize ∧
      (keyboardIrqHandler s ch).kbHead ≠ s.kbTail ∧
      (∀ i ≠ s.kbHead, (keyboardIrqHandler s ch).kbBuffer i = s.kbBuffer i) ∧
      unread (keyboardIrqHandler s ch) = unread s ++ [ch]) := by
  rw [keyboardIrqHandler]
  by_cases h0 : ch = 0
  · rw [if_neg (not_not.mpr h0)]
    exact .inl ⟨rfl, .inl h0⟩
  rw [if_pos h0]
  dsimp only
  rw [next_eq h.head]
  by_cases hfull : wrap kbBufferSize (s.kbHead + 1) = s.kbTail
  · rw [if_neg (not_not.mpr hfull)]
    refine .inl ⟨rfl, .inr ?_⟩
    rw [unread, length_contents, size_full h.tail h.head hfull]
  · rw [if_pos hfull]
    exact .inr ⟨h0, rfl, rfl, rfl, rfl, wrap_lt h.head, hfull, fun i hi => if_neg hi,
      contents_push h.tail h.head s.kbBuffer ch hfull⟩

theorem Inv.irq (ch : UInt8) : Inv (keyboardIrqHandler s ch) := by
  rcases irq_cases h ch with ⟨heq, _⟩ | ⟨h0, hacc, hret, hpc, htail, hhead, hne, hcell, hun⟩
  · rw [heq]
    exact h
  refine ⟨hhead, htail ▸ h.tail, ?_, ?_, ?_⟩
  · rw [hret, hun, hacc, ← List.append_assoc, h.fifo]
  · rw [hacc]
    intro x hx
    rcases List.mem_append.mp hx with hx | hx
    · exact h.nonzero x hx
    · exact List.mem_singleton.mp hx ▸ h0
  · -- the new head is not the tail, and the cell at the tail is not the one written
    have hcase := h.pc
    have hkeep : s.kbTail ≠ s.kbHead →
        (keyboardIrqHandler s ch).kbBuffer s.kbTail = s.kbBuffer s.kbTail := hcell _
    rw [PcOk] at hcase ⊢
    rw [hpc, htail]
    cases hp : s.pc with
    | idle => trivial
    | tailRead tail =>
      rw [hp] at hcase
      exact hcase
    | headRead head =>
      rw [hp] at hcase
      exact ⟨hcase.1, fun _ => Ne.symm hne⟩
    | fetch => exact Ne.symm hne
    | index tail =>
      rw [hp] at hcase
      exact ⟨Ne.symm hne, hcase.2⟩
    | char c =>
      rw [hp] at hcase
      exact ⟨Ne.symm hne, hcase.2.trans (hkeep hcase.1).symm⟩
    | advance c tail =>
      rw [hp] at hcase
      exact ⟨Ne.symm hne, hcase.2.1.trans (hkeep hcase.1).symm, hcase.2.2⟩

/-- The consumer returns without a character. -/
theorem Inv.ret_none : Inv (s.ret 0) := by
  refine ⟨h.head, h.tail, ?_, h.nonzero, trivial⟩
  rw [Sys.ret, if_neg (by decide)]
  exact h.fifo

/-- The access that moves the tail takes the first unread character. -/
theorem Inv.taken (hne : s.kbTail ≠ s.kbHead) :
    Inv ({ s with kbTail := (s.kbTail + 1) % kbBufferSize }.ret (s.kbBuffer s.kbTail)) := by
  have hpop := contents_pop h.tail h.head s.kbBuffer hne
  have hfifo := h.fifo
  rw [unread, hpop] at hfifo
  have hnz : s.kbBuffer s.kbTail ≠ 0 := by
    refine h.nonzero _ ?_
    rw [← hfifo]
    simp
  rw [Sys.ret, if_pos hnz]
  refine ⟨h.head, Nat.mod_lt _ (by decide), ?_, h.nonzero, trivial⟩
  show (s.returned ++ [s.kbBuffer s.kbTail]) ++
    contents kbBufferSize s.kbBuffer ((s.kbTail + 1) % kbBufferSize) s.kbHead = s.accepted
  rw [next_eq h.tail, List.append_assoc, List.singleton_append, hfifo]

theorem Inv.getchar (headFirst : Bool) : Inv (keyboardGetchar headFirst s) := by
  have hcase := h.pc
  rw [PcOk] at hcase
  -- most accesses only move the program counter
  have hmove : ∀ pc, PcOk { s with pc := pc } → Inv { s with pc := pc } :=
    fun pc hpc => ⟨h.head, h.tail, h.fifo, h.nonzero, hpc⟩
  rw [keyboardGetchar]
  cases hp : s.pc with
  | idle =>
    cases headFirst with
    | false => exact hmove _ rfl
    | true => exact hmove _ ⟨h.head, fun hne => hne⟩
  | tailRead tail =>
    rw [hp] at hcase
    dsimp only at hcase ⊢
    subst hcase
    split
    · exact hmove _ ‹_›
    · exact h.ret_none
  | headRead head =>
    rw [hp] at hcase
    dsimp only at hcase ⊢
    split
    · exact hmove _ (hcase.2 ‹_›)
    · exact h.ret_none
  | fetch =>
    rw [hp] at hcase
    exact hmove _ ⟨hcase, rfl⟩
  | index tail =>
    rw [hp] at hcase
    exact hmove _ ⟨hcase.1, by rw [hcase.2]⟩
  | char ch =>
    rw [hp] at hcase
    exact hmove _ ⟨hcase.1, hcase.2, rfl⟩
  | advance ch tail =>
    rw [hp] at hcase
    obtain ⟨hne, rfl, rfl⟩ := hcase
    exact h.taken hne

theorem Inv.step {s' : Sys} {l : Label} (hs : Keyboard.step s l = some s') : Inv s' := by
  cases l with
  | key ch => exact Option.some.inj hs ▸ h.irq ch
  | access headFirst => exact Option.some.inj hs ▸ h.getchar headFirst

end Inv

theorem inv_start (buffer : Nat → UInt8) : Inv (start buffer) :=
  ⟨Nat.zero_lt_succ _, Nat.zero_lt_succ _, contents_empty buffer, nofun, trivial⟩

/-- **The buffer is a lossless queue**: wherever the handler interrupts the consumer, what
    was returned and what is unread is what was accepted, in order; and a character is
    dropped only when 255 are unread. -/
theorem lossless_fifo (buffer : Nat → UInt8) {ls : List Label} {s : Sys}
    (hrun : Steps step Any (start buffer) ls s) :
    s.kbHead < 256 ∧ s.kbTail < 256 ∧ s.returned ++ unread s = s.accepted ∧
    ∀ ch, ch ≠ 0 → (keyboardIrqHandler s ch).accepted = s.accepted ++ [ch] ∨
      (unread s).length = 255 := by
  have h : Inv s := hrun.invariant (fun _ _ _ h _ hs => h.step hs) (inv_start buffer)
  refine ⟨h.head, h.tail, h.fifo, fun ch h0 => ?_⟩
  rcases irq_cases h ch with ⟨_, hz | hfull⟩ | ⟨_, hacc, _⟩
  · exact absurd hz h0
  · exact .inr hfull
  · exact .inl hacc

/-- A key between the comparison and the read of the character. -/
theorem lossless_fifo_interrupted : ∃ s, Steps step Any (start fun _ => 0)
    [.key 97, .access false, .access false, .key 98, .access false, .access false, .access false,
      .access false] s ∧ s.returned ++ unread s = s.accepted ∧ s.returned = [97] := by
  have hrun : Steps step Any (start fun _ => 0)
      [.key 97, .access false, .access false, .key 98, .access false, .access false, .access false,
        .access false] _ :=
    .cons rfl trivial (.cons rfl trivial (.cons rfl trivial (.cons rfl trivial (.cons rfl trivial
      (.cons rfl trivial (.cons rfl trivial (.cons rfl trivial (.nil _))))))))
  exact ⟨_, hrun, (lossless_fifo (fun _ => 0) hrun).2.2.1, by decide⟩

end Keyboard
