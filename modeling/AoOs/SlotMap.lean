import Mathlib.Tactic

/-! # Finite maps in a fixed number of slots

    A table of slots, each free or holding a value under a key: `key` is `none` for a free
    slot.  As long as no two slots hold the same key the table is a finite map, and a table
    is changed by replacing the first slot that passes a test.  Replacing a slot by one
    with the same key updates the map, filling a free slot inserts, freeing a slot
    deletes; each says what every key maps to afterwards. -/

namespace SlotMap

variable {α K : Type} {p : α → Bool} {g : α → α}

/-- The first element that passes the test, replaced. -/
def updateFirst (p : α → Bool) (g : α → α) : List α → Option (List α)
  | [] => none
  | x :: xs => if p x then some (g x :: xs) else (updateFirst p g xs).map (x :: ·)

/-- It is the first one: no element before it passes. -/
theorem updateFirst_first {l l' : List α} (h : updateFirst p g l = some l') :
    ∃ a x b, l = a ++ x :: b ∧ p x ∧ (∀ y ∈ a, p y = false) ∧ l' = a ++ g x :: b := by
  induction l generalizing l' with
  | nil => cases h
  | cons x xs ih =>
    rw [updateFirst] at h
    split at h
    · rename_i hx
      exact ⟨[], x, xs, rfl, hx, nofun, (Option.some.inj h).symm⟩
    · rename_i hx
      obtain ⟨rest, hrest, rfl⟩ := Option.map_eq_some_iff.mp h
      obtain ⟨a, y, b, rfl, hy, ha, rfl⟩ := ih hrest
      exact ⟨x :: a, y, b, rfl, hy, List.forall_mem_cons.mpr ⟨Bool.eq_false_iff.mpr hx, ha⟩, rfl⟩

theorem updateFirst_some {l l' : List α} (h : updateFirst p g l = some l') :
    ∃ a x b, l = a ++ x :: b ∧ p x ∧ l' = a ++ g x :: b := by
  obtain ⟨a, x, b, hl, hx, _, hl'⟩ := updateFirst_first h
  exact ⟨a, x, b, hl, hx, hl'⟩

theorem updateFirst_eq_none {l : List α} : updateFirst p g l = none ↔ ∀ x ∈ l, p x = false := by
  induction l with
  | nil => exact ⟨fun _ => nofun, fun _ => rfl⟩
  | cons x xs ih =>
    rw [updateFirst, List.forall_mem_cons, ← ih]
    cases hx : p x with
    | true => exact ⟨nofun, nofun⟩
    | false =>
      rw [if_neg nofun, Option.map_eq_none_iff]
      exact ⟨fun h => ⟨rfl, h⟩, fun h => h.2⟩

section Keys

variable (key : α → Option K)

/-- The keys that are there. -/
def keys (l : List α) : List K := l.filterMap key

variable {key} {k : K}

theorem keys_split (a : List α) (x : α) (b : List α) :
    keys key (a ++ x :: b) = keys key a ++ ((key x).toList ++ keys key b) := by
  rw [keys, List.filterMap_append, List.filterMap_cons]
  cases key x with
  | none => rfl
  | some k => rfl

theorem mem_keys {l : List α} : k ∈ keys key l ↔ ∃ x ∈ l, key x = some k :=
  List.mem_filterMap

variable (key) in
/-- The number of keys changes with the slot that is replaced. -/
theorem length_keys_replace (a : List α) (x x' : α) (b : List α) :
    (keys key (a ++ x' :: b)).length + (key x).toList.length =
      (keys key (a ++ x :: b)).length + (key x').toList.length := by
  rw [keys_split, keys_split]
  simp only [List.length_append]
  omega

/-- Two slots with one key are the same slot. -/
theorem eq_of_key {l : List α} (hd : (keys key l).Nodup) {x y : α} (hx : x ∈ l) (hy : y ∈ l)
    (hkx : key x = some k) (hky : key y = some k) : x = y := by
  obtain ⟨a, b, rfl⟩ := List.append_of_mem hx
  rw [keys_split, hkx, Option.toList_some, List.singleton_append] at hd
  obtain ⟨_, hkb, hab⟩ := List.nodup_append.mp hd
  rcases List.mem_append.mp hy with hy | hy
  · exact absurd rfl (hab k (mem_keys.mpr ⟨y, hy, hky⟩) k List.mem_cons_self)
  · rcases List.mem_cons.mp hy with rfl | hy
    · rfl
    · exact absurd (mem_keys.mpr ⟨y, hy, hky⟩) (List.nodup_cons.mp hkb).1

/-- The key of the replaced slot occurs nowhere else. -/
theorem not_mem_of_split {a : List α} {x : α} {b : List α} (hd : (keys key (a ++ x :: b)).Nodup)
    (hk : key x = some k) : k ∉ keys key a ∧ k ∉ keys key b := by
  rw [keys_split, hk, Option.toList_some, List.singleton_append] at hd
  obtain ⟨_, hkb, hab⟩ := List.nodup_append.mp hd
  exact ⟨fun hka => hab k hka k List.mem_cons_self rfl, (List.nodup_cons.mp hkb).1⟩

/-- **Updating**: the slot keeps its key. -/
theorem keys_update {a : List α} {x x' : α} {b : List α} (h : key x' = key x) :
    keys key (a ++ x' :: b) = keys key (a ++ x :: b) := by
  rw [keys_split, keys_split, h]

/-- **Inserting**: a free slot gets a key that is not there. -/
theorem nodup_insert {a : List α} {x x' : α} {b : List α} (hd : (keys key (a ++ x :: b)).Nodup)
    (hx : key x = none) (hx' : key x' = some k) (hnew : k ∉ keys key (a ++ x :: b)) :
    (keys key (a ++ x' :: b)).Nodup := by
  rw [keys_split, hx, Option.toList_none, List.nil_append] at hd hnew
  rw [keys_split, hx', Option.toList_some, List.singleton_append, List.nodup_middle]
  exact List.nodup_cons.mpr ⟨hnew, hd⟩

/-- **Deleting**: a slot becomes free. -/
theorem nodup_delete {a : List α} {x x' : α} {b : List α} (hd : (keys key (a ++ x :: b)).Nodup)
    (hx : key x = some k) (hx' : key x' = none) :
    (keys key (a ++ x' :: b)).Nodup ∧ k ∉ keys key (a ++ x' :: b) := by
  obtain ⟨hka, hkb⟩ := not_mem_of_split hd hx
  rw [keys_split, hx, Option.toList_some, List.singleton_append, List.nodup_middle] at hd
  rw [keys_split, hx', Option.toList_none, List.nil_append]
  exact ⟨(List.nodup_cons.mp hd).2, fun h => (List.mem_append.mp h).elim hka hkb⟩

section Lookup

variable [DecidableEq K]

variable (key) in
/-- The slot of a key. -/
def lookup (l : List α) (k : K) : Option α := l.find? fun x => key x = some k

theorem lookup_eq_some {l : List α} (hd : (keys key l).Nodup) {x : α} {k : K} :
    lookup key l k = some x ↔ x ∈ l ∧ key x = some k := by
  constructor
  · intro h
    exact ⟨List.mem_of_find?_eq_some h, by simpa using List.find?_some h⟩
  · rintro ⟨hx, hk⟩
    cases h : lookup key l k with
    | none => exact absurd hk (by simpa using List.find?_eq_none.mp h x hx)
    | some y =>
      have hky : key y = some k := by simpa using List.find?_some h
      rw [eq_of_key hd hx (List.mem_of_find?_eq_some h) hk hky]

theorem lookup_eq_none {l : List α} {k : K} : lookup key l k = none ↔ k ∉ keys key l := by
  rw [lookup, List.find?_eq_none, mem_keys]
  simp

/-- Other keys keep their slots. -/
theorem lookup_other {a : List α} {x x' : α} {b : List α} {k : K} (h : key x ≠ some k)
    (h' : key x' ≠ some k) : lookup key (a ++ x' :: b) k = lookup key (a ++ x :: b) k := by
  rw [lookup, lookup, List.find?_append, List.find?_append,
    List.find?_cons_of_neg (by simpa using h'), List.find?_cons_of_neg (by simpa using h)]

end Lookup

end Keys

end SlotMap
