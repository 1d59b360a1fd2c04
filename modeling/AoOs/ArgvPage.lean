import Mathlib.Data.List.GetD
import Mathlib.Data.List.TakeWhile
import AoOs.CheckedArea
import AoOs.UserMemory

/-! # The argument page — writer and reader

    `process_setup_user_args` cuts the command line into words and packs them into one page:
    `argc`, sixteen pointers, and the strings.  `ao_argc` and `ao_argv` read that page at
    `USER_ARGV_BASE` in the new process.

    Three descriptions meet here.  `setupUserArgs` is the C loop with every store of it
    checked against the page; `argsLoop`, which the loaders use, lists what is stored; and
    `taken` says which words are meant, the longest prefix of the words that fits
    (`longest_taken`).  The page that the reader sees decodes to those words
    (`argv_decodes`). -/

namespace ArgvPage

open CheckedArea Paging ProcessMemory

variable {tok s w : List Byte} {n i : Nat}

/-! ## The writer, store by store -/

/-- A command line in the memory the kernel has mapped: 2 GiB, the page tables from 0x1000
    on among them. -/
structure CmdLine where
  chars : List Byte
  nonzero : 0#8 ∉ chars
  mapped : chars.length < 2 ^ 31 - 4096

/-- A value of type `int`. -/
def int (n : Nat) : Except Fault Nat := if n < 2 ^ 31 then .ok n else .error (.wraps n (2 ^ 31))

/-- The bytes of a list, from `i` on. -/
def putAll {n : Nat} (a : Area Byte n) (i : Nat) : List Byte → Except Fault (Area Byte n)
  | [] => .ok a
  | b :: bs => do
      let a ← a.put i b
      putAll a (i + 1) bs

/-- `base[i] = w`. -/
def putWord (page : Area Byte pageSize) (i : Nat) (w : Word) : Except Fault (Area Byte pageSize) :=
  putAll page (8 * i) ((List.range 8).map (wordByte w))

/-- `page`, `argc` and `strbuf_pos`. -/
structure ArgBuf where
  page : Area Byte pageSize
  argc : Nat
  strbufPos : Nat

/-- The pointer to position `pos` of `strbuf`. -/
def strPtr (pos : Nat) : Word :=
  userArgvBase + BitVec.ofNat 64 (8 + 16 * 8) + BitVec.ofNat 64 pos

def fillLoop : Nat → List Byte → ArgBuf → Except Fault ArgBuf
  | 0, _, b => .ok b
  | fuel + 1, s, b =>
    if s ≠ [] ∧ b.argc < 16 ∧ b.strbufPos < strbufSize - 1 then
      let s := s.dropWhile (· == 0x20#8)
      if s = [] then .ok b
      else do
        let tok := s.takeWhile (· != 0x20#8)
        let len ← int tok.length
        let next ← int (b.strbufPos + len + 1)
        if strbufSize ≤ next then .ok b
        else do
          let page ← putWord b.page (1 + b.argc) (strPtr b.strbufPos)
          let page ← putAll page (8 + 16 * 8 + b.strbufPos) tok
          let page ← page.put (8 + 16 * 8 + (b.strbufPos + len)) 0#8
          fillLoop fuel (s.dropWhile (· != 0x20#8)) ⟨page, b.argc + 1, next⟩
    else .ok b

/-- `process_setup_user_args`, up to the page it hands to `process_write_user`. -/
def setupUserArgs (cmd : CmdLine) : Except Fault (Area Byte pageSize) := do
  let b ← fillLoop (cmd.chars.length + 1) cmd.chars ⟨⟨fun _ => 0#8⟩, 0, 0⟩
  putWord b.page 0 (BitVec.ofNat 64 b.argc)

/-! ## The reader -/

/-- A byte of the process, at an address in the page. -/
def load (page : Area Byte pageSize) (addr : Nat) : Except Fault Byte := do
  let i ← sub addr userArgvBase.toNat
  page.get i

/-- `n` bytes, the lowest first. -/
def loadBytes (page : Area Byte pageSize) : Nat → Nat → Except Fault Nat
  | 0, _ => .ok 0
  | n + 1, addr => do
      let b ← load page addr
      let rest ← loadBytes page n (addr + 1)
      .ok (b.toNat + 256 * rest)

/-- `*(volatile uint64_t*)AO_ARGV_BASE`, as an `int`. -/
def aoArgc (page : Area Byte pageSize) : Except Fault Int := do
  let v ← loadBytes page 8 userArgvBase.toNat
  .ok ((v : Int).bmod (2 ^ 32))

/-- `ao_argv`; `none` is the null pointer. -/
def aoArgv (page : Area Byte pageSize) (i : Int) : Except Fault (Option Nat) := do
  let argc ← aoArgc page
  if i < 0 ∨ argc ≤ i then .ok none
  else do
    let p ← loadBytes page 8 (userArgvBase.toNat + 8 * (1 + i.toNat))
    .ok (some p)

/-- The string at an address, read up to its terminator. -/
def readString (page : Area Byte pageSize) : Nat → Nat → Except Fault (List Byte)
  | 0, addr => .error (.outside addr pageSize)
  | fuel + 1, addr => do
      let b ← load page addr
      if b = 0#8 then .ok []
      else do
        let rest ← readString page fuel (addr + 1)
        .ok (b :: rest)

/-! ## The words -/

/-- The space-separated words. -/
def words (s : List Byte) : List (List Byte) := (s.splitOn 0x20#8).filter (· ≠ [])

/-- The length of the words with their terminators. -/
def cost (ws : List (List Byte)) : Nat := (ws.map fun w => w.length + 1).sum

/-- The longest prefix of at most 16 words that take at most 3959 bytes. -/
structure Longest (ws args : List (List Byte)) : Prop where
  front : args <+: ws
  count : args.length ≤ 16
  size : cost args ≤ 3959
  longest : ∀ args', args' <+: ws → args'.length ≤ 16 → cost args' ≤ 3959 → args' <+: args

/-- The words that are taken when `argc` words and `pos` bytes are there. -/
def taken : Nat → Nat → List (List Byte) → List (List Byte)
  | _, _, [] => []
  | argc, pos, w :: ws =>
    if argc < 16 ∧ pos + (w.length + 1) ≤ 3959 then
      w :: taken (argc + 1) (pos + (w.length + 1)) ws
    else []

@[simp] theorem cost_cons (w : List Byte) (ws : List (List Byte)) :
    cost (w :: ws) = w.length + 1 + cost ws := rfl

theorem longest_taken_from {argc pos : Nat} (ws : List (List Byte)) (hargc : argc ≤ 16)
    (hpos : pos ≤ 3959) : taken argc pos ws <+: ws ∧ argc + (taken argc pos ws).length ≤ 16 ∧
      pos + cost (taken argc pos ws) ≤ 3959 ∧
      ∀ args', args' <+: ws → argc + args'.length ≤ 16 → pos + cost args' ≤ 3959 →
        args' <+: taken argc pos ws := by
  induction ws generalizing argc pos with
  | nil => exact ⟨List.nil_prefix, hargc, hpos, fun args' h _ _ => h⟩
  | cons w ws ih =>
    rw [taken]
    by_cases hfit : argc < 16 ∧ pos + (w.length + 1) ≤ 3959
    · rw [if_pos hfit]
      have hnext : argc + 1 ≤ 16 := hfit.1
      obtain ⟨hp, hc, hs, hl⟩ := ih hnext hfit.2
      refine ⟨List.cons_prefix_cons.mpr ⟨rfl, hp⟩, ?_, ?_, ?_⟩
      · rw [List.length_cons]
        omega
      · rw [cost_cons]
        omega
      · intro args' h hcount hcost
        cases args' with
        | nil => exact List.nil_prefix
        | cons v args' =>
          obtain ⟨rfl, htail⟩ := List.cons_prefix_cons.mp h
          rw [List.length_cons] at hcount
          rw [cost_cons] at hcost
          exact List.cons_prefix_cons.mpr ⟨rfl, hl args' htail (by omega) (by omega)⟩
    · rw [if_neg hfit]
      refine ⟨List.nil_prefix, hargc, hpos, fun args' h hcount hcost => ?_⟩
      cases args' with
      | nil => exact List.nil_prefix
      | cons v args' =>
        obtain ⟨rfl, -⟩ := List.cons_prefix_cons.mp h
        rw [List.length_cons] at hcount
        rw [cost_cons] at hcost
        exact absurd ⟨by omega, by omega⟩ hfit

theorem longest_taken (ws : List (List Byte)) : Longest ws (taken 0 0 ws) := by
  obtain ⟨hp, hc, hs, hl⟩ := longest_taken_from ws (Nat.zero_le 16) (Nat.zero_le 3959)
  exact ⟨hp, by omega, by omega, fun args' h h16 h3959 => hl args' h (by omega) (by omega)⟩

/-! ## The tokenizer finds the words -/

theorem words_space (s : List Byte) : words (0x20#8 :: s) = words s := by
  rw [words, List.splitOn, List.splitOnP_cons_eq_if_modifyHead, if_pos (by simp)]
  rfl

theorem words_dropWhile (s : List Byte) : words (s.dropWhile (· == 0x20#8)) = words s := by
  induction s with
  | nil => rfl
  | cons c s ih =>
    by_cases hc : c = 0x20#8
    · subst hc
      rw [List.dropWhile_cons_of_pos (by simp), ih, words_space]
    · rw [List.dropWhile_cons_of_neg (by simpa using hc)]

theorem splitOn_append (h : 0x20#8 ∉ tok) (rest : List Byte) :
    (tok ++ rest).splitOn 0x20#8 = (rest.splitOn 0x20#8).modifyHead (tok ++ ·) := by
  induction tok with
  | nil => cases hs : rest.splitOn 0x20#8 <;> simp [hs]
  | cons c tok ih =>
    have hc : c ≠ 0x20#8 := fun he => h (he ▸ List.mem_cons_self)
    have hih := ih (fun hm => h (List.mem_cons_of_mem _ hm))
    have hcons : (c :: (tok ++ rest)).splitOn 0x20#8 =
        ((tok ++ rest).splitOn 0x20#8).modifyHead (List.cons c) := by
      rw [List.splitOn, List.splitOnP_cons_eq_if_modifyHead, if_neg (by simpa using hc),
        List.splitOn]
    rw [List.cons_append, hcons, hih, List.modifyHead_modifyHead]
    rfl

/-- A word, and what follows it. -/
theorem words_append {rest : List Byte} (h : 0x20#8 ∉ tok) (hne : tok ≠ [])
    (hrest : rest.head? = none ∨ rest.head? = some 0x20#8) :
    words (tok ++ rest) = tok :: words rest := by
  cases rest with
  | nil =>
    rw [words, splitOn_append h, List.splitOn_nil, List.modifyHead_cons, List.append_nil,
      List.filter_cons_of_pos (by simpa using hne)]
    rfl
  | cons c rest =>
    obtain rfl : c = 0x20#8 := by simpa using hrest
    have hsplit : (0x20#8 :: rest).splitOn 0x20#8 = [] :: rest.splitOn 0x20#8 := by
      rw [List.splitOn, List.splitOnP_cons_eq_if_modifyHead, if_pos (by simp), List.splitOn]
    rw [words_space, words, splitOn_append h, hsplit, List.modifyHead_cons, List.append_nil,
      List.filter_cons_of_pos (by simpa using hne), words]

/-- What the tokenizer stores for one more word. -/
def push (g : ArgPage) (w : List Byte) : ArgPage :=
  ⟨g.argc + 1, g.ptrs ++ [strPtr g.strbuf.length], g.strbuf ++ w ++ [0#8]⟩

theorem length_push (g : ArgPage) (w : List Byte) :
    (push g w).strbuf.length = g.strbuf.length + (w.length + 1) := by
  rw [push]
  simp

theorem firstWord_ne_nil (hs : s.dropWhile (· == 0x20#8) ≠ []) :
    (s.dropWhile (· == 0x20#8)).takeWhile (· != 0x20#8) ≠ [] := by
  have hhead := List.head_dropWhile_not (· == 0x20#8) hs
  generalize s.dropWhile (· == 0x20#8) = t at hs hhead
  cases t with
  | nil => exact absurd rfl hs
  | cons c t =>
    rw [List.takeWhile_cons_of_pos (by simpa using hhead)]
    exact List.cons_ne_nil _ _

/-- A line that has a word starts with spaces, the word, and the rest. -/
theorem words_first (hs : s.dropWhile (· == 0x20#8) ≠ []) :
    words s = (s.dropWhile (· == 0x20#8)).takeWhile (· != 0x20#8) ::
      words ((s.dropWhile (· == 0x20#8)).dropWhile (· != 0x20#8)) := by
  rw [← words_dropWhile s]
  have hword := firstWord_ne_nil hs
  generalize s.dropWhile (· == 0x20#8) = t at hword
  have hcut := List.takeWhile_append_dropWhile (p := (· != 0x20#8)) (l := t)
  nth_rewrite 1 [← hcut]
  refine words_append ?_ hword ?_
  · intro hm
    have := List.mem_takeWhile_imp hm
    simp at this
  · cases hd : t.dropWhile (· != 0x20#8) with
    | nil => exact .inl rfl
    | cons c rest =>
      have hne : t.dropWhile (· != 0x20#8) ≠ [] := by
        rw [hd]
        exact List.cons_ne_nil _ _
      have := List.head_dropWhile_not (· != 0x20#8) hne
      simp only [hd, List.head_cons] at this
      exact .inr (by simpa using this)

theorem words_eq_nil (hs : s.dropWhile (· == 0x20#8) = []) : words s = [] := by
  rw [← words_dropWhile, hs]
  rfl

/-- **The tokenizer stores the words that are taken.** -/
theorem argsLoop_eq (fuel : Nat) (s : List Byte) (g : ArgPage) (hfuel : s.length < fuel) :
    argsLoop fuel s g = (taken g.argc g.strbuf.length (words s)).foldl push g := by
  have hsize : strbufSize = 3960 := rfl
  induction fuel generalizing s g with
  | zero => exact absurd hfuel (Nat.not_lt_zero _)
  | succ fuel ih =>
    rw [argsLoop]
    by_cases hempty : s.dropWhile (· == 0x20#8) = []
    · rw [words_eq_nil hempty, taken, List.foldl_nil]
      split
      · rw [if_pos hempty]
      · rfl
    rw [words_first hempty, taken]
    have hne : s ≠ [] := by
      rintro rfl
      exact hempty rfl
    by_cases hfit : g.argc < 16 ∧
        g.strbuf.length + (((s.dropWhile (· == 0x20#8)).takeWhile (· != 0x20#8)).length + 1) ≤ 3959
    · rw [if_pos hfit, if_pos ⟨hne, hfit.1, by omega⟩]
      dsimp only
      rw [if_neg hempty, if_neg (by omega), List.foldl_cons, ← length_push]
      refine ih _ (push g _) ?_
      -- the word takes at least one character
      have hle : (s.dropWhile (· == 0x20#8)).length ≤ s.length :=
        (List.dropWhile_sublist _).length_le
      have hlt : ((s.dropWhile (· == 0x20#8)).takeWhile (· != 0x20#8)).length +
          ((s.dropWhile (· == 0x20#8)).dropWhile (· != 0x20#8)).length =
          (s.dropWhile (· == 0x20#8)).length := by
        rw [← List.length_append, List.takeWhile_append_dropWhile]
      have hpos := List.length_pos_of_ne_nil (firstWord_ne_nil hempty)
      show ((s.dropWhile (· == 0x20#8)).dropWhile (· != 0x20#8)).length < fuel
      omega
    · rw [if_neg hfit, List.foldl_nil]
      split
      · rename_i hgo
        rw [if_neg hempty, if_pos]
        by_contra hroom
        exact hfit ⟨hgo.2.1, by omega⟩
      · rfl

/-! ## The stores stay in the page and make these bytes -/

theorem int_ok (h : n < 2 ^ 31) : int n = .ok n := if_pos h

theorem putAll_ok (a : Area Byte n) {bs : List Byte} (h : i + bs.length ≤ n) : putAll a i bs =
      .ok ⟨fun k => if i ≤ k ∧ k < i + bs.length then bs.getD (k - i) 0#8 else a.cell k⟩ := by
  induction bs generalizing a i with
  | nil =>
    have hsame : (fun k => if i ≤ k ∧ k < i + 0 then ([] : List Byte).getD (k - i) 0#8
        else a.cell k) = a.cell := funext fun k => if_neg (by omega)
    rw [putAll, List.length_nil, hsame]
  | cons b bs ih =>
    rw [List.length_cons] at h
    rw [putAll, Area.put_ok a b (by omega), ok_bind, ih _ (by omega), List.length_cons]
    congr 2
    funext k
    dsimp only
    by_cases hk : k = i
    · subst hk
      rw [if_neg (by omega), if_pos rfl, if_pos (by omega), Nat.sub_self, List.getD_cons_zero]
    · by_cases hin : i + 1 ≤ k ∧ k < i + 1 + bs.length
      · rw [if_pos hin, if_pos (by omega), show k - i = k - (i + 1) + 1 by omega,
          List.getD_cons_succ]
      · rw [if_neg hin, if_neg hk, if_neg (by omega)]

/-- The bytes of the page while it is filled: `base[0]` is stored at the end. -/
def Shows (b : ArgBuf) (g : ArgPage) : Prop :=
  b.argc = g.argc ∧ b.strbufPos = g.strbuf.length ∧ g.ptrs.length = g.argc ∧
    ∀ j < pageSize, b.page.cell j = argBytes { g with argc := 0 } j

theorem getD_range_map (f : Nat → Byte) {j : Nat} (hj : j < 8) :
    ((List.range 8).map f).getD j 0#8 = f j := by
  rw [List.getD_eq_getElem?_getD, List.getElem?_map, List.getElem?_range hj]
  rfl

theorem putWord_ok (page : Area Byte pageSize) (w : Word) (hi : i ≤ 16) :
    ∃ page', putWord page i w = .ok page' ∧ ∀ j, page'.cell j =
      if j / 8 = i then wordByte w (j % 8) else page.cell j := by
  have hsize : pageSize = 4096 := rfl
  refine ⟨_, putAll_ok page (by simp; omega), fun j => ?_⟩
  rw [List.length_map, List.length_range]
  dsimp only
  by_cases hj : j / 8 = i
  · rw [if_pos hj, if_pos (by omega), getD_range_map _ (by omega)]
    congr 1
    omega
  · rw [if_neg hj, if_neg (by omega)]

/-- **One more word**: the pointer, the characters and the terminator. -/
theorem Shows.push {b : ArgBuf} {g : ArgPage} (h : Shows b g) (hargc : g.argc < 16)
    (hroom : g.strbuf.length + tok.length + 1 < strbufSize) :
    ∃ page₁ page₂ page₃, putWord b.page (1 + b.argc) (strPtr b.strbufPos) = .ok page₁ ∧
      putAll page₁ (8 + 16 * 8 + b.strbufPos) tok = .ok page₂ ∧
      page₂.put (8 + 16 * 8 + (b.strbufPos + tok.length)) 0#8 = .ok page₃ ∧
      Shows ⟨page₃, b.argc + 1, b.strbufPos + tok.length + 1⟩ (push g tok) := by
  have hsize : pageSize = 4096 := rfl
  have hstr : strbufSize = 3960 := rfl
  obtain ⟨hc, hp, hlen, hcell⟩ := h
  obtain ⟨page₁, h₁, hcell₁⟩ := putWord_ok b.page (strPtr b.strbufPos) (i := 1 + b.argc) (by omega)
  have h₂ := putAll_ok page₁ (show 8 + 16 * 8 + b.strbufPos + tok.length ≤ pageSize by omega)
  refine ⟨page₁, _, _, h₁, h₂, Area.put_ok _ _ (by omega), ?_⟩
  refine ⟨congrArg (· + 1) hc, ?_, ?_, ?_⟩
  · rw [length_push, hp]
    rfl
  · rw [ArgvPage.push, List.length_append, hlen]
    rfl
  intro j hj
  dsimp only
  rw [argBytes, ArgvPage.push]
  dsimp only
  by_cases hlow : j < 8
  · rw [if_neg (by omega), if_neg (by omega), hcell₁, if_neg (by omega), if_pos hlow, hcell j hj,
      argBytes, if_pos hlow]
  by_cases hmid : j < 8 + 16 * 8
  · rw [if_neg (by omega), if_neg (by omega), hcell₁, if_neg hlow, if_pos hmid]
    by_cases hslot : j / 8 = 1 + b.argc
    · rw [if_pos hslot, hp, show (j - 8) / 8 = g.ptrs.length by omega,
        List.getD_append_right _ _ _ _ le_rfl, Nat.sub_self, List.getD_cons_zero]
    · rw [if_neg hslot, hcell j hj, argBytes, if_neg hlow, if_pos hmid]
      dsimp only
      congr 1
      by_cases hin : (j - 8) / 8 < g.ptrs.length
      · rw [List.getD_append _ _ _ _ hin]
      · rw [List.getD_eq_default _ _ (by omega), List.getD_eq_default]
        rw [List.length_append, List.length_singleton]
        omega
  · -- the string area: what was there, the word, its terminator, and zeroes
    rw [if_neg hlow, if_neg hmid]
    have hold : page₁.cell j = g.strbuf.getD (j - (8 + 16 * 8)) 0#8 := by
      rw [hcell₁, if_neg (by omega), hcell j hj, argBytes, if_neg hlow, if_neg hmid]
    rw [hold, hp]
    generalize hk : j - (8 + 16 * 8) = k
    obtain rfl : j = 8 + 16 * 8 + k := by omega
    by_cases hend : k = g.strbuf.length + tok.length
    · subst hend
      rw [if_pos rfl, List.getD_append_right _ _ _ _ (by rw [List.length_append]),
        List.length_append, Nat.sub_self, List.getD_cons_zero]
    rw [if_neg (by omega)]
    by_cases hword : g.strbuf.length ≤ k ∧ k < g.strbuf.length + tok.length
    · rw [if_pos (by omega), List.getD_append _ _ _ _ (by rw [List.length_append]; omega),
        List.getD_append_right _ _ _ _ hword.1,
        show 8 + 16 * 8 + k - (8 + 16 * 8 + g.strbuf.length) = k - g.strbuf.length by omega]
    · rw [if_neg (by omega)]
      by_cases hin : k < g.strbuf.length
      · rw [List.getD_append _ _ _ _ (by rw [List.length_append]; omega),
          List.getD_append _ _ _ _ hin]
      · rw [List.getD_eq_default _ _ (by omega), List.getD_eq_default]
        rw [List.length_append, List.length_append, List.length_singleton]
        omega

theorem fillLoop_ok (fuel : Nat) (s : List Byte) {b : ArgBuf} {g : ArgPage} (h : Shows b g)
    (hs : s.length < 2 ^ 31 - 4096) :
    ∃ b', fillLoop fuel s b = .ok b' ∧ Shows b' (argsLoop fuel s g) := by
  have hstr : strbufSize = 3960 := rfl
  induction fuel generalizing s b g with
  | zero => exact ⟨b, rfl, h⟩
  | succ fuel ih =>
    rw [fillLoop, argsLoop]
    have hcond : (s ≠ [] ∧ b.argc < 16 ∧ b.strbufPos < strbufSize - 1) ↔
        (s ≠ [] ∧ g.argc < 16 ∧ g.strbuf.length < strbufSize - 1) := by rw [h.1, h.2.1]
    by_cases hgo : s ≠ [] ∧ g.argc < 16 ∧ g.strbuf.length < strbufSize - 1
    · rw [if_pos (hcond.mpr hgo), if_pos hgo]
      dsimp only
      have hle := (List.dropWhile_sublist (· == 0x20#8) (l := s)).length_le
      generalize s.dropWhile (· == 0x20#8) = t at hle
      by_cases hempty : t = []
      · rw [if_pos hempty, if_pos hempty]
        exact ⟨b, rfl, h⟩
      rw [if_neg hempty, if_neg hempty]
      have htok : (t.takeWhile (· != 0x20#8)).length ≤ t.length :=
        (List.takeWhile_sublist _).length_le
      have hrest : (t.dropWhile (· != 0x20#8)).length ≤ t.length :=
        (List.dropWhile_sublist _).length_le
      have hpos := h.2.1
      rw [int_ok (by omega), ok_bind, int_ok (by omega), ok_bind, ← hpos]
      by_cases hfull : strbufSize ≤ b.strbufPos + (t.takeWhile (· != 0x20#8)).length + 1
      · rw [if_pos hfull, if_pos hfull]
        exact ⟨b, rfl, h⟩
      · rw [if_neg hfull, if_neg hfull]
        obtain ⟨page₁, page₂, page₃, h₁, h₂, h₃, hshow⟩ :=
          h.push hgo.2.1 (hpos ▸ Nat.not_le.mp hfull)
        rw [h₁, ok_bind, h₂, ok_bind, h₃, ok_bind, hpos]
        rw [hpos] at hshow
        exact ih _ hshow (Nat.lt_of_le_of_lt (hrest.trans hle) hs)
    · rw [if_neg (mt hcond.mp hgo), if_neg hgo]
      exact ⟨b, rfl, h⟩

/-- **The stores of the C loop make the page that the loaders write.** -/
theorem setupUserArgs_ok (cmd : CmdLine) :
    ∃ page, setupUserArgs cmd = .ok page ∧ ∀ j < pageSize, page.cell j =
      argBytes (argsLoop (cmd.chars.length + 1) cmd.chars ⟨0, [], []⟩) j := by
  have hstart : Shows ⟨⟨fun _ => 0#8⟩, 0, 0⟩ ⟨0, [], []⟩ := by
    refine ⟨rfl, rfl, rfl, fun j _ => ?_⟩
    rw [argBytes]
    split
    · simp [wordByte]
    · split
      · simp [wordByte]
      · rfl
  obtain ⟨b, hb, hc, -, -, hcell⟩ := fillLoop_ok (cmd.chars.length + 1) cmd.chars hstart cmd.mapped
  obtain ⟨page, hpage, hcell'⟩ :=
    putWord_ok b.page (BitVec.ofNat 64 b.argc) (i := 0) (Nat.zero_le 16)
  refine ⟨page, ?_, fun j hj => ?_⟩
  · rw [setupUserArgs, hb]
    exact hpage
  · rw [hcell', argBytes]
    by_cases hlow : j < 8
    · rw [if_pos (by omega), if_pos hlow, hc, Nat.mod_eq_of_lt hlow]
    · rw [if_neg (by omega), hcell j hj, argBytes, if_neg hlow, if_neg hlow]

/-! ## The reader finds the words -/

/-- The pointers to words that are packed from `pos` on. -/
def offsets : Nat → List (List Byte) → List Word
  | _, [] => []
  | pos, w :: ws => strPtr pos :: offsets (pos + (w.length + 1)) ws

/-- The words with their terminators. -/
def packed (ws : List (List Byte)) : List Byte := (ws.map (· ++ [0#8])).flatten

theorem foldl_push (ws : List (List Byte)) (g : ArgPage) : ws.foldl push g =
    ⟨g.argc + ws.length, g.ptrs ++ offsets g.strbuf.length ws, g.strbuf ++ packed ws⟩ := by
  induction ws generalizing g with
  | nil => simp [offsets, packed]
  | cons w ws ih =>
    rw [List.foldl_cons, ih, length_push, push, offsets, packed]
    simp [packed, Nat.add_assoc, Nat.add_comm 1]

theorem length_packed (ws : List (List Byte)) : (packed ws).length = cost ws := by
  rw [packed, List.length_flatten, List.map_map, cost]
  congr 1
  exact List.map_congr_left fun w _ => by simp

theorem packed_append (ws ws' : List (List Byte)) :
    packed (ws ++ ws') = packed ws ++ packed ws' := by
  rw [packed, List.map_append, List.flatten_append, packed, packed]

theorem packed_cons (w : List Byte) (ws : List (List Byte)) :
    packed (w :: ws) = w ++ 0#8 :: packed ws := by
  rw [packed, List.map_cons, List.flatten_cons, List.append_assoc, packed]
  rfl

theorem offsets_getD (pos : Nat) (ws : List (List Byte)) (w : List Byte) (ws' : List (List Byte)) :
    (offsets pos (ws ++ w :: ws')).getD ws.length 0#64 = strPtr (pos + cost ws) := by
  induction ws generalizing pos with
  | nil => rfl
  | cons v ws ih =>
    rw [List.cons_append, offsets, List.length_cons, List.getD_cons_succ, ih, cost_cons,
      Nat.add_assoc]

theorem cost_append (ws ws' : List (List Byte)) : cost (ws ++ ws') = cost ws + cost ws' := by
  rw [cost, List.map_append, List.sum_append, cost, cost]

variable {page : Area Byte pageSize}

theorem load_ok (hi : i < pageSize) : load page (userArgvBase.toNat + i) = .ok (page.cell i) := by
  rw [load, sub_ok (Nat.le_add_right _ _), ok_bind, Nat.add_sub_cancel_left, Area.get_ok _ hi]

/-- The reader puts a number together from its bytes. -/
theorem loadBytes_ok {v : Nat} (hn : i + n ≤ pageSize)
    (h : ∀ j < n, (page.cell (i + j)).toNat = v / 256 ^ j % 256) :
    loadBytes page n (userArgvBase.toNat + i) = .ok (v % 256 ^ n) := by
  induction n generalizing i v with
  | zero => rw [loadBytes, pow_zero, Nat.mod_one]
  | succ n ih =>
    have hfirst := h 0 (Nat.zero_lt_succ n)
    rw [Nat.add_zero, pow_zero, Nat.div_one] at hfirst
    have hrest : ∀ j < n, (page.cell (i + 1 + j)).toNat = v / 256 / 256 ^ j % 256 := by
      intro j hj
      rw [Nat.div_div_eq_div_mul, ← pow_succ', Nat.add_assoc, Nat.add_comm 1 j]
      exact h (j + 1) (Nat.succ_lt_succ hj)
    rw [loadBytes, load_ok (by omega), ok_bind, Nat.add_assoc, ih (by omega) hrest, ok_bind,
      hfirst, pow_succ', Nat.mod_mul]

theorem toNat_wordByte (w : Word) (j : Nat) : (wordByte w j).toNat = w.toNat / 256 ^ j % 256 := by
  rw [wordByte, BitVec.toNat_setWidth, BitVec.toNat_ushiftRight, Nat.shiftRight_eq_div_pow, pow_mul]
  rfl

theorem loadWord_ok {w : Word} (hi : i ≤ 16) (h : ∀ j < 8, page.cell (8 * i + j) = wordByte w j) :
    loadBytes page 8 (userArgvBase.toNat + 8 * i) = .ok w.toNat := by
  have hsize : pageSize = 4096 := rfl
  rw [loadBytes_ok (v := w.toNat) (by omega) (fun j hj => by rw [h j hj, toNat_wordByte])]
  exact congrArg Except.ok (Nat.mod_eq_of_lt w.isLt)

/-- The reader stops at the terminator. -/
theorem readString_ok {fuel : Nat} (hw : 0#8 ∉ w) (hin : i + w.length < pageSize)
    (hfuel : w.length < fuel) (h : ∀ j ≤ w.length, page.cell (i + j) = w.getD j 0#8) :
    readString page fuel (userArgvBase.toNat + i) = .ok w := by
  induction w generalizing i fuel with
  | nil =>
    obtain ⟨fuel, rfl⟩ := Nat.exists_eq_succ_of_ne_zero (Nat.ne_of_gt hfuel)
    have hend := h 0 le_rfl
    rw [Nat.add_zero] at hend
    rw [readString, load_ok (Nat.lt_of_le_of_lt (Nat.le_add_right _ _) hin), ok_bind, hend]
    rfl
  | cons c w ih =>
    obtain ⟨fuel, rfl⟩ := Nat.exists_eq_succ_of_ne_zero (Nat.ne_of_gt (Nat.zero_lt_of_lt hfuel))
    rw [List.length_cons] at hin hfuel h
    have hfirst := h 0 (Nat.zero_le _)
    rw [Nat.add_zero, List.getD_cons_zero] at hfirst
    have hc : c ≠ 0#8 := fun he => hw (he ▸ List.mem_cons_self)
    have hrest : ∀ j ≤ w.length, page.cell (i + 1 + j) = w.getD j 0#8 := by
      intro j hj
      rw [Nat.add_assoc, Nat.add_comm 1 j]
      exact h (j + 1) (Nat.succ_le_succ hj)
    rw [readString, load_ok (by omega), ok_bind, hfirst, if_neg hc, Nat.add_assoc,
      ih (fun hm => hw (List.mem_cons_of_mem _ hm)) (by omega) (by omega) hrest, ok_bind]

/-- The page of some words. -/
def pageOf (args : List (List Byte)) : ArgPage := ⟨args.length, offsets 0 args, packed args⟩

theorem toNat_strPtr {pos : Nat} (h : pos < pageSize) :
    (strPtr pos).toNat = userArgvBase.toNat + (8 + 16 * 8 + pos) := by
  have hsize : pageSize = 4096 := rfl
  have hbase : userArgvBase.toNat = 0x91000 := rfl
  rw [strPtr, BitVec.toNat_add, BitVec.toNat_add, BitVec.toNat_ofNat, BitVec.toNat_ofNat, hbase]
  omega

section Reader

variable {args : List (List Byte)}
  (hcell : ∀ j < pageSize, page.cell j = argBytes (pageOf args) j)
  (hcount : args.length ≤ 16) (hcost : cost args ≤ 3959)

include hcell hcount in
theorem aoArgc_ok : aoArgc page = .ok args.length := by
  have hsize : pageSize = 4096 := rfl
  have hword := @loadWord_ok 0 page (BitVec.ofNat 64 args.length) (Nat.zero_le 16) (by
    intro j hj
    rw [Nat.mul_zero, Nat.zero_add, hcell j (by omega), argBytes, if_pos hj]
    rfl)
  rw [Nat.mul_zero, Nat.add_zero, BitVec.toNat_ofNat, Nat.mod_eq_of_lt (by omega)] at hword
  rw [aoArgc, hword, ok_bind]
  exact congrArg Except.ok (Int.bmod_eq_of_le (by omega) (by omega))

include hcell hcount hcost in
/-- **An argument**: its pointer leads behind the pointer slots, to the word. -/
theorem aoArgv_ok {ws ws' : List (List Byte)} (hargs : args = ws ++ w :: ws') (hw : 0#8 ∉ w) :
    aoArgv page ws.length = .ok (some (userArgvBase.toNat + (8 + 16 * 8 + cost ws))) ∧
      readString page pageSize (userArgvBase.toNat + (8 + 16 * 8 + cost ws)) = .ok w ∧
      8 + 16 * 8 + cost ws + (w.length + 1) ≤ pageSize := by
  have hsize : pageSize = 4096 := rfl
  have hlen : ws.length + 1 ≤ args.length := by
    rw [hargs, List.length_append, List.length_cons]
    omega
  have hsum : cost ws + (w.length + 1) ≤ cost args := by
    rw [hargs, cost_append, cost_cons]
    omega
  have hslot := @loadWord_ok (1 + ws.length) page (strPtr (cost ws)) (by omega) (by
    intro j hj
    rw [hcell _ (by omega), argBytes, if_neg (by omega), if_pos (by omega),
      show (8 * (1 + ws.length) + j - 8) / 8 = ws.length by omega,
      show (8 * (1 + ws.length) + j) % 8 = j by omega, pageOf]
    dsimp only
    rw [hargs, offsets_getD, Nat.zero_add])
  refine ⟨?_, ?_, by omega⟩
  · rw [aoArgv, aoArgc_ok hcell hcount, ok_bind, if_neg (by omega), Int.toNat_natCast, hslot,
      ok_bind, toNat_strPtr (by omega)]
  · refine readString_ok hw (by omega) (by omega) fun j hj => ?_
    have hstr : (packed args).getD (cost ws + j) 0#8 = w.getD j 0#8 := by
      rw [hargs, packed_append, packed_cons, List.getD_append_right _ _ _ _ (by
        rw [length_packed]; omega), length_packed, Nat.add_sub_cancel_left]
      rcases Nat.lt_or_eq_of_le hj with hlt | rfl
      · rw [List.getD_append _ _ _ _ hlt]
      · rw [List.getD_append_right _ _ _ _ le_rfl, Nat.sub_self, List.getD_cons_zero,
          List.getD_eq_default _ _ le_rfl]
    rw [hcell _ (by omega), argBytes, if_neg (by omega), if_neg (by omega), pageOf,
      show 8 + 16 * 8 + cost ws + j - (8 + 16 * 8) = cost ws + j by omega]
    exact hstr

end Reader

/-- The words are made of the characters of the line. -/
theorem mem_of_mem_splitOn {c : Byte} (hw : w ∈ s.splitOn 0x20#8) (hc : c ∈ w) : c ∈ s := by
  induction s generalizing w with
  | nil =>
    rw [List.splitOn_nil] at hw
    rw [List.mem_singleton.mp hw] at hc
    exact hc
  | cons a s ih =>
    rw [List.splitOn, List.splitOnP_cons_eq_if_modifyHead, ← List.splitOn] at hw
    split at hw
    · rcases List.mem_cons.mp hw with rfl | hw
      · cases hc
      · exact List.mem_cons_of_mem a (ih hw hc)
    · cases hsplit : s.splitOn 0x20#8 with
      | nil =>
        rw [hsplit] at hw
        cases hw
      | cons v vs =>
        rw [hsplit] at hw ih
        rcases List.mem_cons.mp hw with rfl | hw
        · rcases List.mem_cons.mp hc with rfl | hc
          · exact List.mem_cons_self
          · exact List.mem_cons_of_mem a (ih List.mem_cons_self hc)
        · exact List.mem_cons_of_mem a (ih (List.mem_cons_of_mem v hw) hc)

/-- **The argument page decodes to the words of the command**: for every command line no
    store leaves the page, and the reader finds the longest prefix of at most 16 words and
    3959 bytes, each word behind the pointer slots and terminated inside the page. -/
theorem argv_decodes (cmd : CmdLine) :
    ∃ page args, setupUserArgs cmd = .ok page ∧ Longest (words cmd.chars) args ∧
      aoArgc page = .ok args.length ∧
      (∀ i : Int, i < 0 ∨ args.length ≤ i → aoArgv page i = .ok none) ∧
      ∀ i (hi : i < args.length), ∃ p,
        aoArgv page i = .ok (some p) ∧ readString page pageSize p = .ok args[i] ∧
        userArgvBase.toNat + (8 + 16 * 8) ≤ p ∧
        p + (args[i].length + 1) ≤ userArgvBase.toNat + pageSize := by
  obtain ⟨page, hpage, hcell⟩ := setupUserArgs_ok cmd
  rw [argsLoop_eq _ _ _ (Nat.lt_succ_self _), foldl_push, Nat.zero_add] at hcell
  have hlong := longest_taken (words cmd.chars)
  change ∀ j < pageSize, page.cell j = argBytes (pageOf (taken 0 0 (words cmd.chars))) j at hcell
  generalize taken 0 0 (words cmd.chars) = args at hcell hlong
  have hargc := aoArgc_ok hcell hlong.count
  refine ⟨page, args, hpage, hlong, hargc, ?_, ?_⟩
  · intro i hi
    rw [aoArgv, hargc, ok_bind, if_pos hi]
  · intro i hi
    have hw : 0#8 ∉ args[i] := by
      intro hm
      have hmem := List.mem_filter.mp (hlong.front.mem (List.getElem_mem hi))
      exact cmd.nonzero (mem_of_mem_splitOn hmem.1 hm)
    have hcut : args = args.take i ++ args[i] :: args.drop (i + 1) := by
      rw [List.getElem_cons_drop, List.take_append_drop]
    obtain ⟨hptr, hread, hin⟩ := aoArgv_ok hcell hlong.count hlong.size hcut hw
    rw [List.length_take, Nat.min_eq_left hi.le] at hptr
    exact ⟨_, hptr, hread, by omega, by omega⟩

end ArgvPage
