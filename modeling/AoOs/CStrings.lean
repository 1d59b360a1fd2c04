import Mathlib.Data.List.TakeWhile
import AoOs.FatTypes

/-! # Strings — `string.c`

    A C string is the list of its characters up to the terminator.  Comparing follows the
    loops of `string.c`, where running off a string means reading its terminator;
    `strncpy` gives the bytes that are stored.  It stores one more than asked for if the
    string is shorter: the first loop does not count the terminator it has copied. -/

namespace CStrings

open FatTypes

/-- `strcmp`. -/
def strcmp : List UInt8 → List UInt8 → Int
  | [], s2 => - ((s2.headD 0).toNat : Int)
  | c :: _, [] => (c.toNat : Int)
  | c :: s1, d :: s2 => if c = d then strcmp s1 s2 else (c.toNat : Int) - (d.toNat : Int)

/-- `strncmp`. -/
def strncmp : List UInt8 → List UInt8 → Nat → Int
  | _, _, 0 => 0
  | [], s2, _ + 1 => - ((s2.headD 0).toNat : Int)
  | c :: _, [], _ + 1 => (c.toNat : Int)
  | c :: s1, d :: s2, n + 1 =>
    if c = d then strncmp s1 s2 n else (c.toNat : Int) - (d.toNat : Int)

/-- The bytes that `strncpy` stores. -/
def strncpy : List UInt8 → Nat → List UInt8
  | _, 0 => []
  | [], n + 1 => 0 :: List.replicate (n + 1) 0
  | c :: s, n + 1 => c :: strncpy s n

/-- The string at the start of an array. -/
def cstr (bytes : List UInt8) : CString :=
  ⟨bytes.takeWhile (· ≠ 0), fun h => by simpa using List.mem_takeWhile_imp h⟩

theorem toNat_ne_zero {c : UInt8} (h : c ≠ 0) : (c.toNat : Int) ≠ 0 := fun hc =>
  h (UInt8.toNat_inj.mp (by exact_mod_cast hc))

theorem sub_ne_zero {c d : UInt8} (h : c ≠ d) : (c.toNat : Int) - (d.toNat : Int) ≠ 0 := fun hc =>
  h (UInt8.toNat_inj.mp (by omega))

/-- `strcmp` finds equal strings equal, and no others. -/
theorem strcmp_eq_zero {s1 s2 : List UInt8} (h1 : (0 : UInt8) ∉ s1) (h2 : (0 : UInt8) ∉ s2) :
    strcmp s1 s2 = 0 ↔ s1 = s2 := by
  induction s1 generalizing s2 with
  | nil =>
    cases s2 with
    | nil => exact ⟨fun _ => rfl, fun _ => rfl⟩
    | cons d s2 =>
      refine ⟨fun h => absurd (Int.neg_eq_zero.mp h) (toNat_ne_zero ?_), nofun⟩
      rintro rfl
      exact h2 List.mem_cons_self
  | cons c s1 ih =>
    cases s2 with
    | nil =>
      refine ⟨fun h => absurd h (toNat_ne_zero ?_), nofun⟩
      rintro rfl
      exact h1 List.mem_cons_self
    | cons d s2 =>
      rw [strcmp]
      by_cases hcd : c = d
      · subst hcd
        rw [if_pos rfl, ih (fun h => h1 (List.mem_cons_of_mem _ h))
          (fun h => h2 (List.mem_cons_of_mem _ h)), List.cons_inj_right]
      · rw [if_neg hcd]
        exact ⟨fun h => absurd h (sub_ne_zero hcd), fun h => absurd (List.cons.inj h).1 hcd⟩

/-- `strncmp` compares the first `n` characters, if the second string has them. -/
theorem strncmp_eq_zero {s1 s2 : List UInt8} {n : Nat} (h1 : (0 : UInt8) ∉ s1)
    (h2 : (0 : UInt8) ∉ s2) (hn : n ≤ s2.length) : strncmp s1 s2 n = 0 ↔ s2.take n <+: s1 := by
  induction n generalizing s1 s2 with
  | zero =>
    rw [strncmp, List.take_zero]
    exact ⟨fun _ => List.nil_prefix, fun _ => rfl⟩
  | succ n ih =>
    cases s2 with
    | nil => exact absurd hn (Nat.not_succ_le_zero n)
    | cons d s2 =>
      rw [List.take_succ_cons]
      cases s1 with
      | nil =>
        refine ⟨fun h => absurd (Int.neg_eq_zero.mp h) (toNat_ne_zero ?_), fun h => ?_⟩
        · rintro rfl
          exact h2 List.mem_cons_self
        · exact absurd (List.prefix_nil.mp h) (List.cons_ne_nil _ _)
      | cons c s1 =>
        rw [strncmp, List.cons_prefix_cons]
        by_cases hcd : c = d
        · subst hcd
          rw [if_pos rfl, ih (fun h => h1 (List.mem_cons_of_mem _ h))
            (fun h => h2 (List.mem_cons_of_mem _ h)) (Nat.le_of_succ_le_succ hn)]
          exact ⟨fun h => ⟨rfl, h⟩, fun h => h.2⟩
        · rw [if_neg hcd]
          exact ⟨fun h => absurd h (sub_ne_zero hcd), fun h => absurd h.1.symm hcd⟩

/-- A string cut by `strncpy` and a terminator behind the bytes that were asked for. -/
theorem cstr_strncpy {s : List UInt8} (h : (0 : UInt8) ∉ s) (n : Nat) (rest : List UInt8) :
    (cstr ((strncpy s n).take n ++ 0 :: rest)).chars = s.take n := by
  show ((strncpy s n).take n ++ 0 :: rest).takeWhile (· ≠ 0) = s.take n
  induction n generalizing s with
  | zero => rfl
  | succ n ih =>
    cases s with
    | nil => rfl
    | cons c s =>
      have hc : c ≠ 0 := by
        rintro rfl
        exact h List.mem_cons_self
      rw [strncpy, List.take_succ_cons, List.take_succ_cons, List.cons_append,
        List.takeWhile_cons_of_pos (by simpa using hc), ih fun h' => h (List.mem_cons_of_mem _ h')]

/-- The string at the start of an array is the one whose characters and terminator are. -/
theorem cstr_eq_iff {bytes s : List UInt8} (h : (0 : UInt8) ∉ s) : (cstr bytes).chars = s ↔
    ∀ j ≤ s.length, bytes.getD j 0 = s.getD j 0 := by
  show bytes.takeWhile (· ≠ 0) = s ↔ _
  induction s generalizing bytes with
  | nil =>
    cases bytes with
    | nil => simp
    | cons b bytes =>
      by_cases hb : b = 0
      · simp [hb]
      · simp [hb]
  | cons c s ih =>
    have hc : 0 ≠ c := fun h0 => h (h0 ▸ List.mem_cons_self ..)
    cases bytes with
    | nil => exact ⟨nofun, fun hall => absurd (hall 0 (Nat.zero_le _)) hc⟩
    | cons b bytes =>
      have hsplit : (∀ j ≤ (c :: s).length, (b :: bytes).getD j 0 = (c :: s).getD j 0) ↔
          b = c ∧ ∀ j ≤ s.length, bytes.getD j 0 = s.getD j 0 := by
        refine ⟨fun hall => ⟨hall 0 (Nat.zero_le _), fun j hj => hall (j + 1) (by simpa using hj)⟩,
          fun hall j hj => ?_⟩
        cases j with
        | zero => exact hall.1
        | succ j => exact hall.2 j (Nat.le_of_succ_le_succ hj)
      rw [hsplit, ← ih fun h0 => h (List.mem_cons_of_mem _ h0)]
      by_cases hb : b = 0
      · simp [hb, hc]
      · simp [hb]

/-- `dest` after `strncpy(dest, src, n)`. -/
def strncpyInto (dest : Nat → UInt8) (src : List UInt8) (n : Nat) : Nat → UInt8 := fun j =>
  (strncpy src n).getD j (dest j)

/-- The byte that is stored at `j`, or `x` behind them. -/
theorem getD_strncpy (s : List UInt8) (n j : Nat) (x : UInt8) : (strncpy s n).getD j x =
    if j < n then s.getD j 0 else if j = n ∧ s.length < n then 0 else x := by
  induction s, n using strncpy.induct generalizing j with
  | case1 s => simp [strncpy]
  | case2 n =>
    rw [strncpy, ← List.replicate_succ, List.getD_eq_getElem?_getD, List.getElem?_replicate]
    by_cases hj : j < n + 1 + 1
    · have hend : ¬ j < n + 1 → j = n + 1 := by omega
      by_cases hn : j < n + 1
      · simp [hj, hn]
      · simp [hend hn]
    · simp [hj, show ¬ j < n + 1 by omega, show j ≠ n + 1 by omega]
  | case3 c s n ih =>
    cases j with
    | zero => simp [strncpy]
    | succ j => simpa [strncpy] using ih j

/-- **When `strncpy` stores exactly `n` bytes.** -/
theorem strncpy_exact_iff (dest : Nat → UInt8) (src : CString) (n : Nat) :
    ((∀ j < n, strncpyInto dest src.chars n j = src.chars.getD j 0) ∧
      ∀ j, n ≤ j → strncpyInto dest src.chars n j = dest j) ↔
    n ≤ src.chars.length ∨ dest n = 0 := by
  simp only [strncpyInto, getD_strncpy]
  constructor
  · rintro ⟨-, hkept⟩
    have hn := hkept n (Nat.le_refl n)
    rw [if_neg (Nat.lt_irrefl n)] at hn
    by_cases hlen : src.chars.length < n
    · rw [if_pos ⟨rfl, hlen⟩] at hn
      exact .inr hn.symm
    · exact .inl (Nat.not_lt.mp hlen)
  · intro h
    refine ⟨fun j hj => if_pos hj, fun j hj => ?_⟩
    rw [if_neg (Nat.not_lt.mpr hj)]
    by_cases hend : j = n ∧ src.chars.length < n
    · obtain ⟨rfl, hlen⟩ := hend
      rw [if_pos ⟨rfl, hlen⟩]
      exact (h.resolve_left (Nat.not_le.mpr hlen)).symm
    · exact if_neg hend

/-- `strncpy(dest, "a", 2)` stores a third byte. -/
theorem strncpy_stores_behind : strncpyInto (fun _ => 120) [97] 2 2 ≠ 120 := by decide

end CStrings
