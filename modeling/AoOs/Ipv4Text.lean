import AoOs.CStrings

/-! # Dotted quads — `net_parse_ipv4`

    The parser reads four runs of digits with dots between them.  It wants neither a digit
    in a run nor an end behind the last one, so besides the dotted quads it accepts texts
    such as `1..2.3` and `1.2.3.4x`.

    The route: the digit loop is cut at the first character that is no digit
    (`digits_eq`), so a text is accepted by its decomposition into four runs and what
    follows (`parse_iff`), and that decomposition is unique (`Split.unique`). -/

namespace Ipv4Text

open FatTypes

variable {ds t s : List UInt8}

/-! ## The parser -/

def isDigit (c : UInt8) : Bool := 48 ≤ c && c ≤ 57

/-- The digit loop of one component; `none` once the number passes 255. -/
def digits : Nat → List UInt8 → Option (Nat × List UInt8)
  | part, [] => some (part, [])
  | part, c :: s =>
    if isDigit c then
      if 255 < part * 10 + (c.toNat - 48) then none else digits (part * 10 + (c.toNat - 48)) s
    else some (part, c :: s)

/-- The rounds of the outer loop, `n` left. -/
def parseFrom : Nat → List Nat → List UInt8 → Option (List Nat)
  | 0, parts, _ => some parts
  | n + 1, parts, s =>
    if s = [] then none
    else
      match digits 0 s with
      | none => none
      | some (part, s) =>
        if 0 < n then
          match s with
          | [] => none
          | c :: s => if c = 46 then parseFrom n (parts ++ [part]) s else none
        else parseFrom n (parts ++ [part]) s

def netParseIpv4 (s : CString) : Nat :=
  match parseFrom 4 [] s.chars with
  | some [a, b, c, d] => a <<< 24 ||| b <<< 16 ||| c <<< 8 ||| d
  | _ => 0

/-! ## What is denoted -/

/-- The number that digits denote, behind a number read before. -/
def decimalFrom (n : Nat) (ds : List UInt8) : Nat :=
  ds.foldl (fun n c => n * 10 + (c.toNat - 48)) n

/-- A run of digits, at most 255. -/
def Run (ds : List UInt8) : Prop := (∀ c ∈ ds, isDigit c) ∧ decimalFrom 0 ds ≤ 255

/-- A text that does not go on with a digit. -/
def Cut (t : List UInt8) : Prop := ∀ c, t.head? = some c → isDigit c = false

def address (a b c d : Nat) : Nat := a * 2 ^ 24 + b * 2 ^ 16 + c * 2 ^ 8 + d

/-- The text is four runs of digits with dots between them, and `t`. -/
structure Split (s a b c d t : List UInt8) : Prop where
  text : s = a ++ 46 :: (b ++ 46 :: (c ++ 46 :: (d ++ t)))
  first : Run a
  second : Run b
  third : Run c
  fourth : Run d
  cut : Cut t

/-- The address of four runs. -/
def addressOf (a b c d : List UInt8) : Nat :=
  address (decimalFrom 0 a) (decimalFrom 0 b) (decimalFrom 0 c) (decimalFrom 0 d)

/-- The whole text is a dotted quad, four numbers of one or more digits, for the address `v`. -/
def IsQuad (s : List UInt8) (v : Nat) : Prop :=
  ∃ a b c d, Split s a b c d [] ∧ a ≠ [] ∧ b ≠ [] ∧ c ≠ [] ∧ d ≠ [] ∧ v = addressOf a b c d

/-- The parser tells the dotted quads from all other texts. -/
def Exact (s : CString) : Prop := ∀ v, v ≠ 0 → (netParseIpv4 s = v ↔ IsQuad s.chars v)

/-- Not a dotted quad, but four runs of digits, some without a digit or followed by more
    text, for an address other than 0. -/
def Sloppy (s : List UInt8) : Prop :=
  ∃ a b c d t, Split s a b c d t ∧ d ++ t ≠ [] ∧ addressOf a b c d ≠ 0 ∧
    (a = [] ∨ b = [] ∨ c = [] ∨ d = [] ∨ t ≠ [])

/-! ## The digit loop -/

theorem decimalFrom_cons (n : Nat) (c : UInt8) (ds : List UInt8) :
    decimalFrom n (c :: ds) = decimalFrom (n * 10 + (c.toNat - 48)) ds := by
  rw [decimalFrom, List.foldl_cons, decimalFrom]

/-- More digits make no smaller number. -/
theorem le_decimalFrom (ds : List UInt8) (n : Nat) : n ≤ decimalFrom n ds := by
  induction ds generalizing n with
  | nil => exact Nat.le_refl n
  | cons c ds ih =>
    have := ih (n * 10 + (c.toNat - 48))
    rw [decimalFrom_cons]
    omega

/-- The loop stops at the first character that is no digit, or at a number past 255. -/
theorem digits_eq (hds : ∀ c ∈ ds, isDigit c) (ht : Cut t) {n : Nat} (hn : n ≤ 255) :
    digits n (ds ++ t) = if decimalFrom n ds ≤ 255 then some (decimalFrom n ds, t) else none := by
  induction ds generalizing n with
  | nil =>
    rw [decimalFrom, List.foldl_nil, if_pos hn, List.nil_append]
    cases t with
    | nil => rfl
    | cons c t => rw [digits, ht c rfl, if_neg (by decide)]
  | cons c ds ih =>
    rw [List.cons_append, digits, if_pos (hds c List.mem_cons_self), decimalFrom_cons]
    by_cases hbig : 255 < n * 10 + (c.toNat - 48)
    · -- the digits that follow do not make it smaller
      have hle := le_decimalFrom ds (n * 10 + (c.toNat - 48))
      rw [if_pos hbig, if_neg (by omega)]
    · rw [if_neg hbig, ih (fun x hx => hds x (List.mem_cons_of_mem _ hx)) (by omega)]

theorem digits_run (hds : Run ds) (ht : Cut t) :
    digits 0 (ds ++ t) = some (decimalFrom 0 ds, t) := by
  rw [digits_eq hds.1 ht (by decide), if_pos hds.2]

/-- What the loop has accepted is a run. -/
theorem run_of_digits {part : Nat} (h : digits 0 s = some (part, t)) :
    ∃ ds, s = ds ++ t ∧ Run ds ∧ Cut t ∧ part = decimalFrom 0 ds := by
  have hds : ∀ c ∈ s.takeWhile isDigit, isDigit c :=
    fun c hc => List.all_eq_true.mp List.all_takeWhile c hc
  have hcut : Cut (s.dropWhile isDigit) := by
    intro c hc
    have hne : s.dropWhile isDigit ≠ [] := by
      rintro hnil
      rw [hnil] at hc
      cases hc
    have := List.head_dropWhile_not isDigit hne
    rwa [(List.head_eq_iff_head?_eq_some hne).mpr hc] at this
  rw [← List.takeWhile_append_dropWhile (p := isDigit) (l := s),
    digits_eq hds hcut (by decide)] at h
  split at h
  · rename_i hle
    cases h
    exact ⟨s.takeWhile isDigit, List.takeWhile_append_dropWhile.symm, ⟨hds, hle⟩, hcut, rfl⟩
  · cases h

theorem cut_dot (t : List UInt8) : Cut (46 :: t) := by
  rintro c hc
  cases hc
  decide

/-- A run and the text behind it are determined by the whole. -/
theorem run_unique {a a' t' : List UInt8} (ha : Run a) (ha' : Run a') (ht : Cut t) (ht' : Cut t')
    (h : a ++ t = a' ++ t') : a = a' ∧ t = t' := by
  have hlex : ∀ {ds r}, Run ds → Cut r → (ds ++ r).takeWhile isDigit = ds := by
    intro ds r hds hr
    rw [List.takeWhile_append_of_pos hds.1]
    cases r with
    | nil => rw [List.takeWhile_nil, List.append_nil]
    | cons x r => rw [List.takeWhile_cons_of_neg (by rw [hr x rfl]; decide), List.append_nil]
  have heq : a = a' := by rw [← hlex ha ht, h, hlex ha' ht']
  subst heq
  exact ⟨rfl, List.append_cancel_left h⟩

/-- **The decomposition is unique.** -/
theorem Split.unique {a b c d a' b' c' d' t' : List UInt8} (h : Split s a b c d t)
    (h' : Split s a' b' c' d' t') : a = a' ∧ b = b' ∧ c = c' ∧ d = d' ∧ t = t' := by
  obtain ⟨ha, h1⟩ := run_unique h.first h'.first (cut_dot _) (cut_dot _) (h.text.symm.trans h'.text)
  obtain ⟨hb, h2⟩ := run_unique h.second h'.second (cut_dot _) (cut_dot _) (List.cons.inj h1).2
  obtain ⟨hc, h3⟩ := run_unique h.third h'.third (cut_dot _) (cut_dot _) (List.cons.inj h2).2
  obtain ⟨hd, ht⟩ := run_unique h.fourth h'.fourth h.cut h'.cut (List.cons.inj h3).2
  exact ⟨ha, hb, hc, hd, ht⟩

/-! ## The rounds -/

/-- A round in front of a dot. -/
theorem parseFrom_dot (hds : Run ds) (n : Nat) (parts : List Nat) (s : List UInt8) :
    parseFrom (n + 2) parts (ds ++ 46 :: s) =
      parseFrom (n + 1) (parts ++ [decimalFrom 0 ds]) s := by
  rw [parseFrom, if_neg (by simp), digits_run hds (cut_dot s)]
  dsimp only
  rw [if_pos (Nat.succ_pos n), if_pos rfl]

/-- The last round. -/
theorem parseFrom_last (hds : Run ds) (ht : Cut t) (hne : ds ++ t ≠ []) (parts : List Nat) :
    parseFrom 1 parts (ds ++ t) = some (parts ++ [decimalFrom 0 ds]) := by
  rw [parseFrom, if_neg hne, digits_run hds ht]
  rfl

/-- A round that succeeds has read a run and, unless it is the last, a dot. -/
theorem parseFrom_cases {n : Nat} {parts r : List Nat} (h : parseFrom (n + 1) parts s = some r) :
    ∃ ds t, s = ds ++ t ∧ s ≠ [] ∧ Run ds ∧ Cut t ∧
      ((n = 0 ∧ r = parts ++ [decimalFrom 0 ds]) ∨
        ∃ s', 0 < n ∧ t = 46 :: s' ∧ parseFrom n (parts ++ [decimalFrom 0 ds]) s' = some r) := by
  rw [parseFrom] at h
  by_cases hs : s = []
  · cases (if_pos hs).symm.trans h
  rw [if_neg hs] at h
  cases hd : digits 0 s with
  | none =>
    rw [hd] at h
    cases h
  | some p =>
    obtain ⟨part, t⟩ := p
    obtain ⟨ds, rfl, hds, ht, rfl⟩ := run_of_digits hd
    rw [hd] at h
    dsimp only at h
    refine ⟨ds, t, rfl, hs, hds, ht, ?_⟩
    by_cases hn : 0 < n
    · rw [if_pos hn] at h
      cases t with
      | nil => cases h
      | cons c s' =>
        dsimp only at h
        by_cases hc : c = 46
        · rw [if_pos hc] at h
          exact .inr ⟨s', hn, by rw [hc], h⟩
        · cases (if_neg hc).symm.trans h
    · obtain rfl : n = 0 := by omega
      rw [if_neg hn] at h
      exact .inl ⟨rfl, (Option.some.inj h).symm⟩

/-- **What the parser accepts**: four runs, the last one not at the end of the text. -/
theorem parseFrom_iff {r : List Nat} : parseFrom 4 [] s = some r ↔
    ∃ a b c d t, Split s a b c d t ∧ d ++ t ≠ [] ∧
      r = [decimalFrom 0 a, decimalFrom 0 b, decimalFrom 0 c, decimalFrom 0 d] := by
  constructor
  · intro h
    obtain ⟨a, t₁, rfl, _, ha, _, ⟨h0, _⟩ | ⟨s₁, _, rfl, h₁⟩⟩ := parseFrom_cases h
    · cases h0
    obtain ⟨b, t₂, rfl, _, hb, _, ⟨h0, _⟩ | ⟨s₂, _, rfl, h₂⟩⟩ := parseFrom_cases h₁
    · cases h0
    obtain ⟨c, t₃, rfl, _, hc, _, ⟨h0, _⟩ | ⟨s₃, _, rfl, h₃⟩⟩ := parseFrom_cases h₂
    · cases h0
    obtain ⟨d, t, rfl, hne, hd, ht, ⟨_, hr⟩ | ⟨_, h0, _⟩⟩ := parseFrom_cases h₃
    · exact ⟨a, b, c, d, t, ⟨rfl, ha, hb, hc, hd, ht⟩, hne, hr⟩
    · exact absurd h0 (Nat.lt_irrefl 0)
  · rintro ⟨a, b, c, d, t, ⟨rfl, ha, hb, hc, hd, ht⟩, hne, rfl⟩
    rw [parseFrom_dot ha 2, parseFrom_dot hb 1, parseFrom_dot hc 0, parseFrom_last hd ht hne]
    rfl

/-- The bytes of an address stand side by side. -/
theorem or_eq_address {a b c d : Nat} (hb : b ≤ 255) (hc : c ≤ 255) (hd : d ≤ 255) :
    a <<< 24 ||| b <<< 16 ||| c <<< 8 ||| d = address a b c d := by
  -- a byte beside a number shifted by eight
  have hbyte : ∀ {m n k : Nat}, n ≤ 255 → m <<< (8 + k) ||| n <<< k = (m * 2 ^ 8 + n) <<< k := by
    intro m n k hn
    rw [Nat.shiftLeft_add, ← Nat.shiftLeft_or_distrib, ← Nat.shiftLeft_add_eq_or_of_lt (by omega),
      Nat.shiftLeft_eq m 8]
  rw [show a <<< 24 ||| b <<< 16 = _ from hbyte (k := 16) hb,
    show _ <<< 16 ||| c <<< 8 = _ from hbyte (k := 8) hc,
    show _ <<< 8 ||| d = _ from hbyte (k := 0) hd, Nat.shiftLeft_zero, address]
  omega

theorem parse_iff {s : CString} {v : Nat} (hv : v ≠ 0) : netParseIpv4 s = v ↔
    ∃ a b c d t, Split s.chars a b c d t ∧ d ++ t ≠ [] ∧ v = addressOf a b c d := by
  constructor
  · intro h
    rw [netParseIpv4] at h
    cases hp : parseFrom 4 [] s.chars with
    | none =>
      rw [hp] at h
      exact absurd h.symm hv
    | some r =>
      obtain ⟨a, b, c, d, t, hs, hne, rfl⟩ := parseFrom_iff.mp hp
      rw [hp] at h
      exact ⟨a, b, c, d, t, hs, hne,
        h.symm.trans (or_eq_address hs.second.2 hs.third.2 hs.fourth.2)⟩
  · rintro ⟨a, b, c, d, t, hs, hne, rfl⟩
    rw [netParseIpv4, parseFrom_iff.mpr ⟨a, b, c, d, t, hs, hne, rfl⟩]
    exact or_eq_address hs.second.2 hs.third.2 hs.fourth.2

/-! ## Dotted quads -/

/-- **The parser tells a text right** unless it is four runs of digits of which one is empty
    or the last one is followed by more. -/
theorem exact_iff (s : CString) : Exact s ↔ ¬ Sloppy s.chars := by
  constructor
  · rintro hex ⟨a, b, c, d, t, hs, hne, hnz, hodd⟩
    have hparse := (parse_iff hnz).mpr ⟨a, b, c, d, t, hs, hne, rfl⟩
    obtain ⟨a', b', c', d', hq, ha, hb, hc, hd, _⟩ := (hex _ hnz).mp hparse
    obtain ⟨rfl, rfl, rfl, rfl, rfl⟩ := hs.unique hq
    rcases hodd with h | h | h | h | h
    · exact ha h
    · exact hb h
    · exact hc h
    · exact hd h
    · exact h rfl
  · intro hno v hv
    rw [parse_iff hv]
    constructor
    · rintro ⟨a, b, c, d, t, hs, hne, rfl⟩
      have hgood : ¬ (a = [] ∨ b = [] ∨ c = [] ∨ d = [] ∨ t ≠ []) :=
        fun hodd => hno ⟨a, b, c, d, t, hs, hne, hv, hodd⟩
      simp only [not_or, not_not] at hgood
      obtain ⟨ha, hb, hc, hd, rfl⟩ := hgood
      exact ⟨a, b, c, d, hs, ha, hb, hc, hd, rfl⟩
    · rintro ⟨a, b, c, d, hs, _, _, _, hd, rfl⟩
      exact ⟨a, b, c, d, [], hs, by simpa using hd, rfl⟩

/-- `1..2.3`. -/
def emptyPart : CString := ⟨[49, 46, 46, 50, 46, 51], by decide⟩

/-- **`1..2.3` is taken for 1.0.2.3.** -/
theorem emptyPart_accepted : netParseIpv4 emptyPart = 0x01000203 ∧ ¬ Exact emptyPart := by
  have hs : Split emptyPart.chars [49] [] [50] [51] [] :=
    ⟨rfl, ⟨List.forall_mem_singleton.mpr rfl, by decide⟩, ⟨List.forall_mem_nil _, by decide⟩,
      ⟨List.forall_mem_singleton.mpr rfl, by decide⟩,
      ⟨List.forall_mem_singleton.mpr rfl, by decide⟩, fun c hc => nomatch hc⟩
  have hparse : netParseIpv4 emptyPart = 0x01000203 := by decide
  refine ⟨hparse, fun hex => ?_⟩
  obtain ⟨a, b, c, d, hq, _, hb, _⟩ := (hex _ (by decide)).mp hparse
  exact hb (hs.unique hq).2.1.symm

/-- `1.2.3.4x`: text behind the last number is not looked at either. -/
example : netParseIpv4 ⟨[49, 46, 50, 46, 51, 46, 52, 120], by decide⟩ = 0x01020304 := by decide

end Ipv4Text
