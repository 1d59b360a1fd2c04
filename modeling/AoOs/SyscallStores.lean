import AoOs.UserPointer
import AoOs.FileHandles

/-! # Stores to user memory — four system calls

    `SYS_READLINE`, `SYS_SYSINFO`, `SYS_READ` and `SYS_WAITPID` store through a
    pointer they were given, after `user_buf_ok` has accepted the buffer.  Each
    keeps to the buffer, with a length clamp of its own; which bytes a call may
    store to is found exactly (`stores_iff`).

    `vmm_user_page_ok` asks for present and user, never for `PTE_WRITABLE`, and
    `CR0.WP` is not set: a read-only page of the caller is stored to. -/

namespace SyscallStores

open Paging Vmm UserPointer
open FileHandles (Fd maxFd sysRead bytesAt)
open Process (Proc maxProcesses)

variable {maxlen : Nat}

/-! ## The calls -/

/-- The calls that store, with their arguments. -/
inductive StoringCall where
  | readline (buf maxlen : Word)
  | sysinfo (buf maxlen : Word)
  | read (fd buf len : Word)
  | waitpid (pid status options : Word)

/-- The state a call finds; the caller is a user process. -/
structure World where
  mem : Mem
  cr3 : Word
  pid : Nat
  fds : Nat → Fd
  procs : Nat → Proc

/-- What happens during a call: the keys read so far, and, for a wait that has ended
    with a terminated target, its exit code. -/
structure Events where
  keys : List UInt8
  exitCode : Option (BitVec 32)

/-- `(uint32_t)arg`, as it is passed on to `user_buf_ok`. -/
def uint32 (arg : Word) : Word := (arg.setWidth 32).setWidth 64

namespace StoringCall

/-- The buffer. -/
def buf : StoringCall → Word
  | readline buf _ | sysinfo buf _ | read _ buf _ => buf
  | waitpid _ status _ => status

/-- The size of the buffer. -/
def size : StoringCall → Word
  | readline _ maxlen | sysinfo _ maxlen => uint32 maxlen
  | read _ _ len => uint32 len
  | waitpid .. => 4#64

end StoringCall

/-- `user_buf_ok` on the buffer of a call. -/
def bufOk (w : World) (c : StoringCall) : Bool :=
  userBufOk w.mem (some ⟨true, w.cr3⟩) c.buf c.size == some true

/-- The loop of `SYS_READLINE`.  The buffer is followed by offset; when the keys run
    out the call is still waiting. -/
def readlineLoop (maxlen : Nat) : List UInt8 → Nat → List (Nat × UInt8)
  | [], i => if i < maxlen - 1 then [] else [(i, 0)]
  | c :: keys, i =>
    if i < maxlen - 1 then
      if c = 10 ∨ c = 13 then [(i, 0)]
      else if c = 8 then readlineLoop maxlen keys (if 0 < i then i - 1 else i)
      else if 32 ≤ c ∧ c < 128 then (i, c) :: readlineLoop maxlen keys (i + 1)
      else readlineLoop maxlen keys i
    else [(i, 0)]

/-- `while (*s && i < limit) buf[i++] = *s++`. -/
def copyWhile (limit : Nat) : List UInt8 → Nat → List (Nat × UInt8)
  | [], _ => []
  | c :: s, i => if i < limit then (i, c) :: copyWhile limit s (i + 1) else []

/-- `"AO-OS"`. -/
def osName : List UInt8 := [65, 79, 45, 79, 83]

/-- `KERNEL_VERSION_STRING`, `"2.0.0"`. -/
def kernelVersionString : List UInt8 := [50, 46, 48, 46, 48]

/-- The stores of `SYS_SYSINFO`. -/
def sysinfoStores (maxlen : Nat) : List (Nat × UInt8) :=
  let name := copyWhile (maxlen - 2) osName 0
  let ver := copyWhile (maxlen - 1) kernelVersionString (name.length + 1)
  name ++ (name.length, 32) :: ver ++ [(name.length + 1 + ver.length, 0)]

/-- The stores of `SYS_READ` that returns `bytes`. -/
def readStores (bytes : List UInt8) : List (Nat × UInt8) := bytes.zipIdx.map Prod.swap

/-- `process_get`, from slot `i` on. -/
def processGet (procs : Nat → Proc) (pid : Nat) : Nat → Nat → Option Proc
  | 0, _ => none
  | n + 1, i =>
    if (procs i).state ≠ .unused ∧ (procs i).pid = pid then some (procs i)
    else processGet procs pid n (i + 1)

/-- The tests of `process_waitpid` before it waits. -/
def waits (w : World) (pid options : Word) : Bool :=
  match processGet w.procs pid.toNat maxProcesses 0 with
  | none => false
  | some target =>
    if target.state = .unused ∨ pid = 0#64 then false
    else if has options 1#64 then target.state = .terminated
    else true

/-- `*status = target->exit_code`. -/
def statusStores (code : BitVec 32) : List (Nat × UInt8) :=
  (List.range 4).map fun k => (k, UInt8.ofBitVec ((code >>> (8 * k)).setWidth 8))

/-- The stores of a call to its buffer: offset and byte, in order. -/
def stores (w : World) (ev : Events) : StoringCall → List (Nat × UInt8)
  | .readline buf maxlen =>
    if buf = 0#64 ∨ uint32 maxlen = 0#64 then []
    else if !bufOk w (.readline buf maxlen) then []
    else readlineLoop (uint32 maxlen).toNat ev.keys 0
  | .sysinfo buf maxlen =>
    if buf = 0#64 ∨ (uint32 maxlen).toNat < 2 then []
    else if !bufOk w (.sysinfo buf maxlen) then []
    else sysinfoStores (uint32 maxlen).toNat
  | .read fd buf len =>
    let ok := buf ≠ 0#64 ∧ (uint32 len = 0#64 ∨ bufOk w (.read fd buf len))
    match (sysRead w.fds w.pid (fd.setWidth 32).toInt (uint32 len).toNat ok).2 with
    | none => []
    | some bytes => readStores bytes
  | .waitpid pid status options =>
    if status ≠ 0#64 ∧ bufOk w (.waitpid pid status options) = false then []
    else if !waits w pid options then []
    else match ev.exitCode with
      | none => []
      | some code => if status = 0#64 then [] else statusStores code

/-! ## What is asked of them -/

/-- Whatever happens during the call, it stores inside the buffer it was passed, where
    the caller could have stored. -/
def StoresAllowed (w : World) (c : StoringCall) : Prop :=
  ∀ ev, ∀ s ∈ stores w ev c,
    InRange c.buf c.size (charAddr c.buf s.1) ∧ Ring3Store w.mem w.cr3 (charAddr c.buf s.1)

/-- The buffer is accepted. -/
def Accepted (w : World) (c : StoringCall) : Prop := c.buf ≠ 0#64 ∧ bufOk w c

/-- `SYS_READ` is called with a handle of the caller. -/
def OwnHandle (w : World) (fd : Int) : Prop :=
  0 ≤ fd ∧ fd < maxFd ∧ (w.fds fd.toNat).used ∧ (w.fds fd.toNat).ownerPid = w.pid

instance (w : World) (fd : Int) : Decidable (OwnHandle w fd) :=
  inferInstanceAs (Decidable (_ ∧ _ ∧ _ ∧ _))

/-- How many bytes of an accepted buffer the call may store to. -/
def reach (w : World) : StoringCall → Nat
  | .readline _ maxlen => (uint32 maxlen).toNat
  | .sysinfo _ maxlen =>
    if (uint32 maxlen).toNat < 2 then 0 else min (uint32 maxlen).toNat 12
  | .read fd _ len =>
    let fd := (fd.setWidth 32).toInt
    if OwnHandle w fd then
      min (uint32 len).toNat ((w.fds fd.toNat).size - (w.fds fd.toNat).pos)
    else 0
  | .waitpid pid _ options => if waits w pid options then 4 else 0

theorem reach_le_size (w : World) (c : StoringCall) : reach w c ≤ c.size.toNat := by
  cases c with
  | readline buf maxlen => exact Nat.le_refl _
  | sysinfo buf maxlen =>
    rw [reach, StoringCall.size]
    split <;> omega
  | read fd buf len =>
    rw [reach, StoringCall.size]
    split <;> omega
  | waitpid pid status options =>
    rw [reach, StoringCall.size]
    split <;> decide

/-! ## Which bytes each call stores to -/

/-- **`SYS_READLINE` stays below `maxlen`**, the NUL included. -/
theorem readlineLoop_lt (hm : 0 < maxlen) {keys : List UInt8} {i : Nat} (hi : i < maxlen)
    {s : Nat × UInt8} (hs : s ∈ readlineLoop maxlen keys i) : s.1 < maxlen := by
  induction keys generalizing i with
  | nil =>
    rw [readlineLoop] at hs
    split at hs
    · cases hs
    · rwa [List.mem_singleton.mp hs]
  | cons c keys ih =>
    rw [readlineLoop] at hs
    split at hs
    · rename_i hlt
      split at hs
      · rwa [List.mem_singleton.mp hs]
      · split at hs
        · exact ih (by split <;> omega) hs
        · split at hs
          · rcases List.mem_cons.mp hs with rfl | hs
            · exact hi
            · exact ih (by omega) hs
          · exact ih hi hs
    · rwa [List.mem_singleton.mp hs]

/-- A line that fills the buffer stores to every byte of it. -/
theorem readlineLoop_fills {n i k : Nat} (hn : i + n + 1 = maxlen) (hik : i ≤ k) (hk : k < maxlen) :
    ∃ b, (k, b) ∈ readlineLoop maxlen (List.replicate n 97) i := by
  induction n generalizing i with
  | zero =>
    obtain rfl : i = k := by omega
    refine ⟨0, ?_⟩
    rw [List.replicate_zero, readlineLoop, if_neg (by omega)]
    exact List.mem_singleton_self _
  | succ n ih =>
    rw [List.replicate_succ, readlineLoop, if_pos (by omega), if_neg (by decide),
      if_neg (by decide), if_pos (by decide)]
    by_cases heq : i = k
    · exact ⟨97, heq ▸ List.mem_cons_self⟩
    · obtain ⟨b, hb⟩ := ih (i := i + 1) (by omega) (by omega)
      exact ⟨b, List.mem_cons_of_mem _ hb⟩

theorem copyWhile_offsets (limit : Nat) (s : List UInt8) (i : Nat) :
    (copyWhile limit s i).map Prod.fst = List.range' i (min s.length (limit - i)) := by
  induction s generalizing i with
  | nil => simp [copyWhile]
  | cons c s ih =>
    rw [copyWhile]
    split
    · rename_i hlt
      have hlen : min (c :: s).length (limit - i) = min s.length (limit - (i + 1)) + 1 := by
        rw [List.length_cons]
        omega
      rw [List.map_cons, ih, hlen, List.range'_succ]
    · rename_i hge
      rw [show limit - i = 0 by omega, Nat.min_zero]
      rfl

theorem length_copyWhile (limit : Nat) (s : List UInt8) (i : Nat) :
    (copyWhile limit s i).length = min s.length (limit - i) := by
  rw [← List.length_map (f := Prod.fst), copyWhile_offsets, List.length_range']

/-- **`SYS_SYSINFO` stores to the first twelve bytes**, or as many as there are. -/
theorem sysinfoStores_offsets (h : 2 ≤ maxlen) :
    (sysinfoStores maxlen).map Prod.fst = List.range' 0 (min maxlen 12) := by
  have hname : osName.length = 5 := rfl
  have hver : kernelVersionString.length = 5 := rfl
  simp only [sysinfoStores, List.map_append, List.map_cons, List.map_nil, copyWhile_offsets,
    length_copyWhile, hname, hver]
  generalize ha : min 5 (maxlen - 2 - 0) = a
  generalize hb : min 5 (maxlen - 1 - (a + 1)) = b
  rw [show min maxlen 12 = a + (1 + (b + 1)) by omega, ← List.range'_append_1,
    ← List.range'_append_1, ← List.range'_append_1]
  simp

theorem mem_readStores_offsets {bytes : List UInt8} {k : Nat} :
    (∃ b, (k, b) ∈ readStores bytes) ↔ k < bytes.length := by
  constructor
  · rintro ⟨b, hb⟩
    obtain ⟨⟨c, j⟩, hc, heq⟩ := List.mem_map.mp hb
    cases heq
    exact (List.getElem?_eq_some_iff.mp (List.mem_zipIdx_iff_getElem?.mp hc)).1
  · intro hk
    exact ⟨bytes[k], List.mem_map.mpr ⟨(bytes[k], k),
      List.mem_zipIdx_iff_getElem?.mpr (List.getElem?_eq_getElem hk), rfl⟩⟩

/-- **`SYS_READ` stores what is left of the file**, or as much as was asked for. -/
theorem sysRead_length (w : World) (fd : Int) (len : Nat) (ok : Bool) {k : Nat} :
    (∃ bytes, (sysRead w.fds w.pid fd len ok).2 = some bytes ∧ k < bytes.length) ↔
      ok ∧ OwnHandle w fd ∧ k < len ∧
        k < (w.fds fd.toNat).size - (w.fds fd.toNat).pos := by
  rw [sysRead, OwnHandle]
  by_cases hbad : fd < 0 ∨ (maxFd : Int) ≤ fd ∨ (w.fds fd.toNat).used = false ∨ ok = false
  · rw [if_pos hbad]
    refine ⟨nofun, ?_⟩
    rintro ⟨hok, ⟨h0, h8, hused, -⟩, -⟩
    rcases hbad with h | h | h | h
    · omega
    · omega
    · exact absurd (hused.symm.trans h) nofun
    · exact absurd (hok.symm.trans h) nofun
  · rw [if_neg hbad]
    obtain ⟨h0, h8, hused, hok⟩ := by simpa only [not_or] using hbad
    by_cases hown : (w.fds fd.toNat).ownerPid = w.pid
    · rw [if_neg (not_not.mpr hown)]
      have hgood : ok ∧ 0 ≤ fd ∧ fd < (maxFd : Int) ∧ (w.fds fd.toNat).used ∧
          (w.fds fd.toNat).ownerPid = w.pid :=
        ⟨by simpa using hok, by omega, by omega, by simpa using hused, hown⟩
      split
      · refine ⟨?_, fun h => by omega⟩
        rintro ⟨bytes, hb, hk⟩
        rw [← Option.some.inj hb] at hk
        exact absurd hk (Nat.not_lt_zero k)
      · simp only [Option.some.injEq, exists_eq_left', bytesAt, List.length_map, List.length_range]
        refine ⟨fun hk => ⟨hgood.1, hgood.2, ?_⟩, fun h => ?_⟩
        · split at hk <;> omega
        · split <;> omega
    · rw [if_pos hown]
      refine ⟨nofun, ?_⟩
      rintro ⟨-, ⟨-, -, -, h⟩, -⟩
      exact absurd h hown

theorem mem_offsets {l : List (Nat × UInt8)} {k : Nat} :
    (∃ b, (k, b) ∈ l) ↔ k ∈ l.map Prod.fst := by
  simp

section

variable {w : World} {k : Nat}

theorem stores_readline (buf maxlen : Word) :
    (∃ ev b, (k, b) ∈ stores w ev (.readline buf maxlen)) ↔
      Accepted w (.readline buf maxlen) ∧ k < (uint32 maxlen).toNat := by
  simp only [stores]
  by_cases h0 : buf = 0#64 ∨ uint32 maxlen = 0#64
  · simp only [if_pos h0]
    refine ⟨nofun, ?_⟩
    rintro ⟨⟨hb, -⟩, hk⟩
    rcases h0 with h0 | h0
    · exact absurd h0 hb
    · rw [h0] at hk
      exact absurd hk (Nat.not_lt_zero k)
  · obtain ⟨hb, hm⟩ := not_or.mp h0
    have hpos : 0 < (uint32 maxlen).toNat :=
      Nat.pos_of_ne_zero fun h => hm (BitVec.eq_of_toNat_eq h)
    by_cases hok : bufOk w (.readline buf maxlen)
    · simp only [if_neg h0, hok, Bool.not_true, Bool.false_eq_true, if_false]
      constructor
      · rintro ⟨ev, b, hs⟩
        exact ⟨⟨hb, hok⟩, readlineLoop_lt hpos hpos hs⟩
      · rintro ⟨-, hk⟩
        obtain ⟨b, hs⟩ := readlineLoop_fills (n := (uint32 maxlen).toNat - 1) (by omega)
          (Nat.zero_le k) hk
        exact ⟨⟨_, none⟩, b, hs⟩
    · simp only [if_neg h0, Bool.not_eq_true _ ▸ hok, Bool.not_false, if_true]
      refine ⟨nofun, ?_⟩
      rintro ⟨⟨-, h⟩, -⟩
      exact absurd h hok

theorem stores_sysinfo (buf maxlen : Word) : (∃ ev b, (k, b) ∈ stores w ev (.sysinfo buf maxlen)) ↔
      Accepted w (.sysinfo buf maxlen) ∧ k < reach w (.sysinfo buf maxlen) := by
  simp only [stores, reach]
  by_cases h0 : buf = 0#64 ∨ (uint32 maxlen).toNat < 2
  · simp only [if_pos h0]
    refine ⟨nofun, ?_⟩
    rintro ⟨⟨hb, -⟩, hk⟩
    rcases h0 with h0 | h0
    · exact absurd h0 hb
    · rw [if_pos h0] at hk
      exact absurd hk (Nat.not_lt_zero k)
  · obtain ⟨hb, hm⟩ := not_or.mp h0
    rw [if_neg hm]
    by_cases hok : bufOk w (.sysinfo buf maxlen)
    · simp only [if_neg h0, hok, Bool.not_true, Bool.false_eq_true, if_false, mem_offsets,
        sysinfoStores_offsets (Nat.not_lt.mp hm), List.mem_range'_1]
      exact ⟨fun ⟨_, _, hk⟩ => ⟨⟨hb, hok⟩, by omega⟩,
        fun ⟨_, hk⟩ => ⟨⟨[], none⟩, Nat.zero_le k, by omega⟩⟩
    · simp only [if_neg h0, Bool.not_eq_true _ ▸ hok, Bool.not_false, if_true]
      refine ⟨nofun, ?_⟩
      rintro ⟨⟨-, h⟩, -⟩
      exact absurd h hok

theorem stores_read (fd buf len : Word) : (∃ ev b, (k, b) ∈ stores w ev (.read fd buf len)) ↔
      Accepted w (.read fd buf len) ∧ k < reach w (.read fd buf len) := by
  have hlen := sysRead_length w (fd.setWidth 32).toInt (uint32 len).toNat
    (buf ≠ 0#64 ∧ (uint32 len = 0#64 ∨ bufOk w (.read fd buf len))) (k := k)
  have hstores : (∃ ev b, (k, b) ∈ stores w ev (.read fd buf len)) ↔ ∃ bytes,
      (sysRead w.fds w.pid (fd.setWidth 32).toInt (uint32 len).toNat
        (buf ≠ 0#64 ∧ (uint32 len = 0#64 ∨ bufOk w (.read fd buf len)))).2 = some bytes ∧
      k < bytes.length := by
    simp only [stores]
    split
    · rename_i h
      rw [h]
      exact ⟨nofun, nofun⟩
    · rename_i bytes h
      simp only [mem_readStores_offsets, h, Option.some.injEq, exists_eq_left']
      exact ⟨fun ⟨_, hk⟩ => hk, fun hk => ⟨⟨[], none⟩, hk⟩⟩
  rw [hstores, hlen, decide_eq_true_eq, reach, Accepted]
  constructor
  · rintro ⟨⟨hb, hor⟩, hown, hk, hrest⟩
    rw [if_pos hown]
    refine ⟨⟨hb, hor.resolve_left ?_⟩, by omega⟩
    intro h0
    rw [h0] at hk
    exact absurd hk (Nat.not_lt_zero k)
  · rintro ⟨⟨hb, hok⟩, hk⟩
    split at hk
    · rename_i hown
      exact ⟨⟨hb, .inr hok⟩, hown, by omega, by omega⟩
    · exact absurd hk (Nat.not_lt_zero k)

theorem stores_waitpid (pid status options : Word) :
    (∃ ev b, (k, b) ∈ stores w ev (.waitpid pid status options)) ↔
      Accepted w (.waitpid pid status options) ∧ k < reach w (.waitpid pid status options) := by
  simp only [stores, reach]
  by_cases hw : waits w pid options
  · rw [if_pos hw]
    constructor
    · rintro ⟨ev, b, hs⟩
      split at hs
      · cases hs
      · rename_i hbuf
        rw [hw, Bool.not_true, if_neg Bool.false_ne_true] at hs
        split at hs
        · cases hs
        · split at hs
          · cases hs
          · rename_i code _ hne
            have hok : bufOk w (.waitpid pid status options) := by
              simpa using fun h => hbuf ⟨hne, h⟩
            have hk : k ∈ (statusStores code).map Prod.fst := mem_offsets.mp ⟨b, hs⟩
            exact ⟨⟨hne, hok⟩, List.mem_range.mp hk⟩
    · rintro ⟨⟨hne, hok⟩, hk⟩
      have hne : status ≠ 0#64 := hne
      have hmem : k ∈ (statusStores 0).map Prod.fst := List.mem_range.mpr hk
      obtain ⟨b, hb⟩ := mem_offsets.mpr hmem
      refine ⟨⟨[], some 0⟩, b, ?_⟩
      rw [if_neg (by simp [hok]), hw, Bool.not_true, if_neg Bool.false_ne_true]
      dsimp only
      rwa [if_neg hne]
  · simp only [Bool.not_eq_true _ ▸ hw, Bool.not_false, if_true, ite_self]
    exact ⟨nofun, fun h => absurd h.2 (Nat.not_lt_zero k)⟩

end

/-- **The bytes a call may store to**: those below its reach, in an accepted buffer. -/
theorem stores_iff (w : World) (c : StoringCall) (k : Nat) :
    (∃ ev b, (k, b) ∈ stores w ev c) ↔ Accepted w c ∧ k < reach w c := by
  cases c with
  | readline buf maxlen => exact stores_readline buf maxlen
  | sysinfo buf maxlen => exact stores_sysinfo buf maxlen
  | read fd buf len => exact stores_read fd buf len
  | waitpid pid status options => exact stores_waitpid pid status options

/-! ## Where the caller could not have stored -/

/-- What `vmm_user_page_ok` leaves unasked of a byte. -/
def Storable (m : Mem) (cr3 a : Word) : Prop :=
  Canonical a ∧ ∀ e ∈ walk m cr3 a, has e pteWritable

theorem ring3Store_iff {m : Mem} {cr3 a : Word} (h : vmmUserPageOk m cr3 a) :
    Ring3Store m cr3 a ↔ Storable m cr3 a :=
  and_congr_left' (ring3Access_iff h)

/-- A byte of an accepted buffer: inside it, and on a page that passes the walk. -/
theorem Accepted.byte {w : World} {c : StoringCall} (h : Accepted w c) {k : Nat}
    (hk : k < c.size.toNat) : InRange c.buf c.size (charAddr c.buf k) ∧
      vmmUserPageOk w.mem w.cr3 (charAddr c.buf k) := by
  have hne : c.size ≠ 0#64 := by
    intro h0
    rw [h0] at hk
    exact absurd hk (Nat.not_lt_zero k)
  have hok := eq_of_beq h.2
  rw [userBufOk_user _ hne] at hok
  obtain ⟨-, htop, hall⟩ := (vmmUserRangeOk_iff _ _ _ _).mp hok
  have hin : InRange c.buf c.size (charAddr c.buf k) := by
    have hadd : (charAddr c.buf k).toNat = c.buf.toNat + k := by
      rw [charAddr, BitVec.toNat_add, BitVec.toNat_ofNat]
      omega
    rw [InRange, hadd]
    omega
  exact ⟨hin, hall _ hin⟩

/-- **STORES ARE ALLOWED EXACTLY WHEN THE REACH OF AN ACCEPTED BUFFER IS CANONICAL AND
    WRITABLE**: present, user and the bounds are taken care of by the code. -/
theorem storesAllowed_iff (w : World) (c : StoringCall) : StoresAllowed w c ↔
      (Accepted w c → ∀ k < reach w c, Storable w.mem w.cr3 (charAddr c.buf k)) := by
  have hbyte := fun (ha : Accepted w c) k (hk : k < reach w c) =>
    ha.byte (Nat.lt_of_lt_of_le hk (reach_le_size w c))
  constructor
  · intro h ha k hk
    obtain ⟨ev, b, hs⟩ := (stores_iff w c k).mpr ⟨ha, hk⟩
    exact (ring3Store_iff (hbyte ha k hk).2).mp (h ev _ hs).2
  · rintro h ev ⟨k, b⟩ hs
    obtain ⟨ha, hk⟩ := (stores_iff w c k).mp ⟨ev, b, hs⟩
    obtain ⟨hin, hok⟩ := hbyte ha k hk
    exact ⟨hin, (ring3Store_iff hok).mpr (h ha k hk)⟩

/-- An address space with one user page, at 0x200000, that is mapped read-only. -/
def readOnlyPage : Mem := fun t i =>
  if t = 0x103000#64 ∧ i = 0#9 then 0x104005#64 else onePage t i

/-- Its owner, with nothing open and no other process. -/
def readOnlyWorld : World where
  mem := readOnlyPage
  cr3 := 0x100000#64
  pid := 1
  fds := fun _ => ⟨fun _ => 0, 0, 0, false, 0⟩
  procs := fun _ => ⟨0, .unused, 0, 0, 0⟩

/-- `SYS_READLINE` into the read-only page: it is accepted, and an empty line already
    stores a NUL to a byte that ring 3 can read and cannot store to. -/
theorem readline_stores_readOnly :
    (0, 0) ∈ stores readOnlyWorld ⟨[10], none⟩ (.readline 0x200000#64 16#64) ∧
      Ring3Access readOnlyPage 0x100000#64 0x200000#64 ∧
      ¬ Ring3Store readOnlyPage 0x100000#64 0x200000#64 ∧
      ¬ StoresAllowed readOnlyWorld (.readline 0x200000#64 16#64) := by
  have hok : bufOk readOnlyWorld (.readline 0x200000#64 16#64) := by
    rw [bufOk, userBufOk_user _ (by decide), beq_iff_eq]
    exact vmmUserRangeOk_inside (by decide) (by decide) (by decide)
  have hstore : (0, 0) ∈ stores readOnlyWorld ⟨[10], none⟩ (.readline 0x200000#64 16#64) := by
    rw [stores, if_neg (by decide), hok]
    decide
  have hread : Ring3Access readOnlyPage 0x100000#64 0x200000#64 :=
    (ring3Access_iff (by decide)).mpr (by decide)
  have hnot : ¬ Ring3Store readOnlyPage 0x100000#64 0x200000#64 := fun h =>
    absurd (h.2 0x104005#64 (by decide)) (by decide)
  exact ⟨hstore, hread, hnot, fun h => hnot (h _ _ hstore).2⟩

end SyscallStores
