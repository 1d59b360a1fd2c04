import AoOs.CwdBuffer

/-! # The path as text

    `fat_getcwd` returns what stands in the path buffer.  `components` reads it as the
    words between the slashes.  Descending appends a word, provided that the name has
    no slash and fits; ascending cuts the last word off and leaves a slash behind it,
    which changes no word. -/

namespace PathText

open FatTypes FatDriver CwdBuffer

variable {l : List UInt8}

/-- `fat_getcwd`. -/
def fatGetcwd (v : Vol) : List UInt8 := (List.range (cwdLen v.cwd)).map v.cwd

/-- The words of a path between its slashes. -/
def components (l : List UInt8) : List (List UInt8) :=
  (l.splitOn 47).filter fun w => !w.isEmpty

@[simp] theorem components_nil : components [] = [] := rfl

theorem components_append (a b : List UInt8) :
    components (a ++ 47 :: b) = components a ++ components b := by
  rw [components, List.splitOn_append_cons_self, List.filter_append]
  rfl

theorem components_slash (a : List UInt8) : components (a ++ [47]) = components a := by
  rw [components_append, components_nil, List.append_nil]

theorem components_word {w : List UInt8} (h : (47 : UInt8) ∉ w) (hne : w ≠ []) :
    components w = [w] := by
  rw [components, List.splitOn_eq_singleton h]
  simp [hne]

theorem components_slashes (a : List UInt8) {b : List UInt8} (h : ∀ x ∈ b, x = 47) :
    components (a ++ b) = components a := by
  induction b generalizing a with
  | nil => rw [List.append_nil]
  | cons x b ih =>
    obtain rfl := h x List.mem_cons_self
    have hb := ih [] fun y hy => h y (List.mem_cons_of_mem _ hy)
    rw [List.nil_append, components_nil] at hb
    rw [components_append, hb, List.append_nil]

/-- The buffer holds an absolute path with these words. -/
def Spells (s : Nat → UInt8) (ws : List (List UInt8)) : Prop :=
  ∃ l, Holds s l ∧ l.length ≤ fsMaxFilename - 1 ∧ l.head? = some 47 ∧ components l = ws

/-- The index at which descending writes the name. -/
def nameAt (s : Nat → UInt8) : Nat :=
  if 1 < cwdLen s ∧ s (cwdLen s - 1) ≠ 47 then cwdLen s + 1 else cwdLen s

section Spells

variable {s : Nat → UInt8} {ws : List (List UInt8)}

theorem Spells.getcwd {v : Vol} (h : Spells v.cwd ws) : components (fatGetcwd v) = ws := by
  obtain ⟨l, hl, hlen, _, rfl⟩ := h
  have hlen' : l.length ≤ fsMaxFilename := Nat.le_trans hlen (Nat.sub_le _ _)
  have hcwd : fatGetcwd v = l := by
    rw [fatGetcwd, hl.len hlen']
    refine List.ext_getElem (by simp) fun i _ hi => ?_
    rw [List.getElem_map, List.getElem_range]
    exact hl.chars i hi
  rw [hcwd]

/-- The path of the root directory. -/
theorem spells_root (h0 : s 0 = 47) (h1 : s 1 = 0) : Spells s [] := by
  refine ⟨[47], ⟨fun i hi => ?_, h1, by decide⟩, by decide, rfl, rfl⟩
  obtain rfl : i = 0 := by simpa using hi
  exact h0

/-- A path has a last character. -/
theorem Holds.last {x : UInt8} (h : Holds s (l ++ [x])) : s l.length = x := by
  rw [h.chars l.length (by simp)]
  simp

/-- A name written behind a slash. -/
theorem spells_append {name : CString} (hchars : ∀ i (h : i < l.length), s i = l[i])
    (hnul : (0 : UInt8) ∉ l) (hhead : l.head? = some 47) {c : List UInt8} (hl : l = c ++ [47])
    (hslash : (47 : UInt8) ∉ name.chars) (hne : name.chars ≠ [])
    (hfit : l.length + name.chars.length ≤ fsMaxFilename - 1) :
    Spells (appendChars name.chars s l.length) (components l ++ [name.chars]) := by
  have hholds := holds_appendChars hchars hnul name.noNul (by omega)
  rw [List.take_of_length_le (by omega)] at hholds
  refine ⟨_, hholds, by rw [List.length_append]; exact hfit, ?_, ?_⟩
  · rw [List.head?_append_of_ne_nil _ (by simp [hl])]
    exact hhead
  · rw [hl, components_slash, List.append_assoc, List.singleton_append, components_append,
      components_word hslash hne]

/-- A slash written behind a path. -/
theorem chars_slash (h : Holds s l) (i : Nat) (hi : i < (l ++ [47]).length) :
    setByte s l.length 47 i = (l ++ [47])[i] := by
  by_cases hil : i = l.length
  · subst hil
    exact (if_pos rfl).trans (List.getElem_concat_length rfl (by simp)).symm
  · rw [List.length_append, List.length_singleton] at hi
    rw [List.getElem_append_left (by omega)]
    exact (if_neg hil).trans (h.chars i (by omega))

/-- **Descending appends a word.** -/
theorem Spells.down (h : Spells s ws) {name : CString} (hslash : (47 : UInt8) ∉ name.chars)
    (hne : name.chars ≠ []) (hfit : nameAt s + name.chars.length ≤ fsMaxFilename - 1) :
    Spells (cwdDown s name) (ws ++ [name.chars]) := by
  obtain ⟨l, hl, hlen, hhead, rfl⟩ := h
  have hcwd : cwdLen s = l.length := hl.len (Nat.le_trans hlen (Nat.sub_le _ _))
  have hlne : l ≠ [] := by
    rintro rfl
    cases hhead
  rw [cwdDown, hcwd]
  rw [nameAt, hcwd] at hfit
  by_cases hsep : 1 < l.length ∧ s (l.length - 1) ≠ 47
  · rw [if_pos hsep] at hfit ⊢
    have happ := spells_append (chars_slash hl) (by simpa using hl.noNul)
      (by rwa [List.head?_append_of_ne_nil _ hlne]) rfl hslash hne (by simpa using hfit)
    rwa [components_slash, List.length_append, List.length_singleton] at happ
  · rw [if_neg hsep] at hfit ⊢
    -- the path ends with a slash: it is the root's, or ascending left one behind
    obtain ⟨a, x, rfl⟩ := (List.eq_nil_or_concat' l).resolve_left hlne
    have hx : x = 47 := by
      by_cases hone : 1 < (a ++ [x]).length
      · have hlast := not_not.mp (not_and.mp hsep hone)
        rwa [List.length_append, List.length_singleton, Nat.add_sub_cancel, Holds.last hl] at hlast
      · have ha : a = [] := by
          rw [List.length_append, List.length_singleton] at hone
          exact List.eq_nil_of_length_eq_zero (by omega)
        subst ha
        exact Option.some.inj hhead
    subst hx
    exact spells_append hl.chars hl.noNul hhead rfl hslash hne hfit

/-- Cutting characters off the end of a path. -/
theorem holds_trim {p : UInt8 → Bool} (hl : l ≠ []) (h : Holds s l) :
    ∃ a b, l = a ++ b ∧ a ≠ [] ∧ (∀ x ∈ b, p x) ∧
      (a.length = 1 ∨ ∃ a' y, a = a' ++ [y] ∧ p y = false) ∧
      Holds (trimWhile p l.length s).1 a ∧ (trimWhile p l.length s).2 = a.length := by
  induction l using List.reverseRecOn generalizing s with
  | nil => exact absurd rfl hl
  | append_singleton l x ih =>
    have hx := Holds.last h
    rw [List.length_append, List.length_singleton, trimWhile]
    by_cases hcut : 0 < l.length ∧ p (s l.length)
    · have hne : l ≠ [] := List.ne_nil_of_length_pos hcut.1
      have hholds : Holds (setByte s l.length 0) l := by
        refine ⟨fun i hi => ?_, if_pos rfl, fun h0 => h.noNul (List.mem_append_left _ h0)⟩
        refine (if_neg (by omega : i ≠ l.length)).trans ?_
        rw [h.chars i (by rw [List.length_append]; omega), List.getElem_append_left hi]
      obtain ⟨a, b, rfl, ha, hb, hend, hout⟩ := ih hne hholds
      rw [if_pos hcut]
      refine ⟨a, b ++ [x], by rw [List.append_assoc], ha, fun y hy => ?_, hend, hout⟩
      rcases List.mem_append.mp hy with hy | hy
      · exact hb y hy
      · rw [List.mem_singleton.mp hy, ← hx]
        exact hcut.2
    · rw [if_neg hcut]
      refine ⟨l ++ [x], [], by rw [List.append_nil], by simp, fun y hy => (by cases hy), ?_, h,
        by rw [List.length_append, List.length_singleton]⟩
      by_cases hpos : 0 < l.length
      · rw [hx] at hcut
        exact .inr ⟨l, x, rfl, by simpa using fun hp => hcut ⟨hpos, hp⟩⟩
      · exact .inl (by rw [List.length_append, List.length_singleton]; omega)

/-- **Ascending cuts the last word off.** -/
theorem Spells.up {w : List UInt8} (h : Spells s (ws ++ [w])) : Spells (cwdUp s) ws := by
  obtain ⟨l, hl, hlen, hhead, hcomp⟩ := h
  have hcwd : cwdLen s = l.length := hl.len (Nat.le_trans hlen (Nat.sub_le _ _))
  have hlne : l ≠ [] := by
    rintro rfl
    cases hhead
  obtain ⟨a, b, rfl, ha, hb, hend, hla, hlena⟩ := holds_trim (p := (· == 47)) hlne hl
  have hheada : a.head? = some 47 := by rwa [List.head?_append_of_ne_nil _ ha] at hhead
  rw [components_slashes a fun x hx => by simpa using hb x hx] at hcomp
  -- one word at least is left, so the rest ends with a character of it
  obtain ⟨a', y, rfl, hy⟩ : ∃ a' y, a = a' ++ [y] ∧ (y == 47) = false := by
    refine hend.resolve_left fun hone => ?_
    obtain ⟨x, rfl⟩ := List.length_eq_one_iff.mp hone
    rw [Option.some.inj hheada, ← List.nil_append [(47 : UInt8)], components_slash,
      components_nil] at hcomp
    exact absurd hcomp.symm (by simp)
  obtain ⟨c, e, heq, hc, he, hendc, hlc, _⟩ := holds_trim (p := (· != 47)) ha hla
  have hheadc : c.head? = some 47 := by
    rwa [heq, List.head?_append_of_ne_nil _ hc] at hheada
  obtain ⟨c', rfl⟩ : ∃ c', c = c' ++ [47] := by
    rcases hendc with hone | ⟨c', z, rfl, hz⟩
    · obtain ⟨x, rfl⟩ := List.length_eq_one_iff.mp hone
      exact ⟨[], by rw [Option.some.inj hheadc, List.nil_append]⟩
    · exact ⟨c', by simpa using hz⟩
  have hene : e ≠ [] := by
    rintro rfl
    rw [List.append_nil] at heq
    have := List.append_inj_right' heq rfl
    rw [List.cons.inj this |>.1] at hy
    cases hy
  have heslash : (47 : UInt8) ∉ e := fun hmem => by simpa using he 47 hmem
  rw [heq, List.append_assoc, List.singleton_append, components_append,
    components_word heslash hene] at hcomp
  have hup : cwdUp s = (trimWhile (· != 47) (a' ++ [y]).length
      (trimWhile (· == 47) (a' ++ [y] ++ b).length s).1).1 := by
    show (trimWhile (· != 47) (trimWhile (· == 47) (cwdLen s) s).2
      (trimWhile (· == 47) (cwdLen s) s).1).1 = _
    rw [hcwd, hlena]
  rw [hup]
  refine ⟨_, hlc, ?_, hheadc, ?_⟩
  · have hle := congrArg List.length heq
    simp only [List.length_append] at hle hlen ⊢
    omega
  · rw [components_slash]
    exact List.append_inj_left' hcomp rfl

end Spells

end PathText
