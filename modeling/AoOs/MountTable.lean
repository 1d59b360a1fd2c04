import AoOs.CStrings
import AoOs.Vfs

/-! # The mount table — `vfs_mount`, `vfs_umount` and what `resolve` finds

    Mounting trims slashes at the end of the path, replaces the operations of a path that
    is mounted already and appends otherwise; unmounting closes the gap.  So the paths of
    the table stay distinct and without a slash at the end, with the root in front, and the
    search for the longest string prefix finds the longest prefix by components. -/

namespace MountTable

open StepSystem FatTypes Vfs CStrings

variable {path : CString} {m : Mount} {len : Nat} {ops : Backend}
  {ms mounts mounts' seen : List Mount} {best : Option (Mount × Nat)} {ms' : List Mount}

/-! ## The operations -/

/-- `VFS_MAX_MOUNTS`. -/
def maxMounts : Nat := 8

/-- `while (len > 1 && path[len - 1] == '/') len--`. -/
def trimLen (s : List UInt8) : Nat → Nat
  | 0 => 0
  | 1 => 1
  | n + 2 => if s.getD (n + 1) 0 = 47 then trimLen s (n + 1) else n + 2

/-- The path as it is stored: `strncpy` and a terminator. -/
def storedPath (path : CString) (len : Nat) : CString :=
  cstr ((strncpy path.chars len).take len ++ [0])

theorem storedPath_chars (path : CString) (len : Nat) :
    (storedPath path len).chars = path.chars.take len := cstr_strncpy path.noNul len []

theorem trimLen_le (s : List UInt8) (n : Nat) : trimLen s n ≤ n := by
  induction n using trimLen.induct s with
  | case1 => exact le_rfl
  | case2 => exact le_rfl
  | case3 n h ih =>
    rw [trimLen, if_pos h]
    omega
  | case4 n h =>
    rw [trimLen, if_neg h]

theorem trimLen_pos (s : List UInt8) {n : Nat} (hn : 0 < n) : 0 < trimLen s n := by
  induction n using trimLen.induct s with
  | case1 => exact hn
  | case2 => exact hn
  | case3 n h ih =>
    rw [trimLen, if_pos h]
    exact ih (Nat.succ_pos n)
  | case4 n h =>
    rw [trimLen, if_neg h]
    omega

theorem head_of_charAt (h : charAt path 0 = 47) : path.chars.head? = some 47 := by
  rw [charAt] at h
  cases hc : path.chars with
  | nil =>
    rw [hc] at h
    cases h
  | cons c cs =>
    rw [hc] at h
    exact congrArg some h

/-- The new entry of the table. -/
def newMount (path : CString) (ops : Backend) (h : charAt path 0 = 47)
    (hlen : path.chars.length < 32) :
    Mount where
  path := storedPath path (trimLen path.chars path.chars.length)
  absolute := by
    have hhead := head_of_charAt h
    have hpos : 0 < path.chars.length := by
      cases hc : path.chars with
      | nil =>
        rw [hc] at hhead
        cases hhead
      | cons c cs => exact Nat.succ_pos _
    rw [storedPath_chars, List.head?_take, if_neg (trimLen_pos _ hpos).ne']
    exact hhead
  fits := by
    rw [storedPath_chars, List.length_take]
    omega
  ops := ops

/-- The first loop of `vfs_mount`: a path that is mounted already gets new operations. -/
def remount (path : CString) (len : Nat) (ops : Backend) : List Mount → Option (List Mount)
  | [] => none
  | m :: ms =>
    if strncmp m.path.chars path.chars len = 0 ∧ charAt m.path len = 0 then
      some ({ m with ops := ops } :: ms)
    else (remount path len ops ms).map (m :: ·)

/-- `vfs_mount` behind the tests of its pointers. -/
def mountAt (mounts : List Mount) (path : CString) (ops : Backend) : Option (List Mount) :=
  if h : charAt path 0 = 47 then
    if hlen : path.chars.length < 32 then
      match remount path (trimLen path.chars path.chars.length) ops mounts with
      | some mounts' => some mounts'
      | none =>
        if maxMounts ≤ mounts.length then none else some (mounts ++ [newMount path ops h hlen])
    else none
  else none

/-- `vfs_mount`: the new table, or `none` for -1. -/
def vfsMount (mounts : List Mount) : Option CString → Backend → Option (List Mount)
  | none, _ => none
  | some _, .null => none
  | some path, ops => mountAt mounts path ops

theorem slash_noNul : (0 : UInt8) ∉ [47] := by decide

/-- The string `"/"`. -/
def slash : CString := ⟨[47], slash_noNul⟩

/-- The loop of `vfs_umount`. -/
def unmount (path : CString) : List Mount → Option (List Mount)
  | [] => none
  | m :: ms =>
    if strcmp m.path.chars path.chars = 0 then some ms else (unmount path ms).map (m :: ·)

/-- `vfs_umount`. -/
def vfsUmount (mounts : List Mount) (path : Option CString) : Option (List Mount) :=
  match path with
  | none => none
  | some path =>
    if charAt path 0 ≠ 47 ∨ strcmp path.chars slash.chars = 0 then none else unmount path mounts

/-- `vfs_mount_root` after `vfs_init`. -/
def mountRoot (ops : Backend) : List Mount := (vfsMount [] (some slash) ops).getD []

inductive Label where
  | mount (path : Option CString) (ops : Backend)
  | umount (path : Option CString)

/-- The table after a call, or `none` for -1. -/
def call (mounts : List Mount) : Label → Option (List Mount)
  | .mount path ops => vfsMount mounts path ops
  | .umount path => vfsUmount mounts path

/-- A call that fails leaves the table as it is. -/
def step (mounts : List Mount) (l : Label) : Option (List Mount) :=
  some ((call mounts l).getD mounts)

/-- The path that a call is about, and the operations there if it succeeds. -/
def effect : Label → List UInt8 × Option Backend
  | .mount path ops =>
    (path.elim [] fun p => p.chars.take (trimLen p.chars p.chars.length), some ops)
  | .umount path => (path.elim [] CString.chars, none)

/-- The table, and what the calls that succeed have mounted at every path. -/
def record (t : List Mount × (List UInt8 → Option Backend)) (l : Label) :
    List Mount × (List UInt8 → Option Backend) :=
  match call t.1 l with
  | none => t
  | some mounts => (mounts, Function.update t.2 (effect l).1 (effect l).2)

/-! ## The table -/

def paths (mounts : List Mount) : List (List UInt8) := mounts.map fun m => m.path.chars

/-- The paths of a table. -/
structure Table (ps : List (List UInt8)) : Prop where
  distinct : ps.Nodup
  absolute : ∀ p ∈ ps, p.head? = some 47
  trimmed : ∀ p ∈ ps, p = [47] ∨ p.getLast? ≠ some 47
  short : ∀ p ∈ ps, p.length < 32
  count : ps.length ≤ maxMounts
  root : ps.head? = some [47]

/-- The trimmed path has no slash at its end, unless it is the root. -/
theorem take_trimLen {s : List UInt8} {n : Nat} (hn : n ≤ s.length) (h : s.head? = some 47) :
    s.take (trimLen s n) = [47] ∨ (s.take (trimLen s n)).getLast? ≠ some 47 := by
  induction n using trimLen.induct s with
  | case1 => exact .inr nofun
  | case2 =>
    cases s with
    | nil => cases h
    | cons c cs =>
      cases h
      exact .inl rfl
  | case3 n hlast ih =>
    rw [trimLen, if_pos hlast]
    exact ih (by omega)
  | case4 n hlast =>
    rw [trimLen, if_neg hlast]
    refine .inr fun hslash => hlast ?_
    have hlt : n + 1 < s.length := by omega
    rw [List.getLast?_take, if_neg (by omega), show n + 2 - 1 = n + 1 from rfl,
      List.getElem?_eq_getElem hlt, Option.some_or] at hslash
    rw [List.getD_eq_getElem?_getD, List.getElem?_eq_getElem hlt]
    exact Option.some.inj hslash

/-- The test of `vfs_mount` finds the trimmed path. -/
theorem same_path_iff (hlen : len ≤ path.chars.length) :
    (strncmp m.path.chars path.chars len = 0 ∧ charAt m.path len = 0) ↔
      m.path.chars = path.chars.take len := by
  rw [strncmp_eq_zero m.path.noNul path.noNul hlen]
  constructor
  · rintro ⟨hpre, hend⟩
    refine (hpre.eq_of_length_le ?_).symm
    rw [List.length_take, Nat.min_eq_left hlen]
    by_contra hlt
    rw [charAt, List.getD_eq_getElem?_getD, List.getElem?_eq_getElem (by omega)] at hend
    exact m.path.noNul (hend ▸ List.getElem_mem _)
  · intro heq
    refine ⟨by rw [heq], ?_⟩
    rw [charAt, List.getD_eq_getElem?_getD, List.getElem?_eq_none (by
      rw [heq, List.length_take]
      omega)]
    rfl

/-- Replacing the operations keeps the paths. -/
theorem remount_some (h : remount path len ops ms = some ms') : paths ms' = paths ms := by
  induction ms generalizing ms' with
  | nil => cases h
  | cons m ms ih =>
    rw [remount] at h
    split at h
    · cases h
      rfl
    · obtain ⟨rest, hrest, rfl⟩ := Option.map_eq_some_iff.mp h
      exact congrArg (m.path.chars :: ·) (ih hrest)

theorem remount_none (hlen : len ≤ path.chars.length) (h : remount path len ops ms = none) :
    path.chars.take len ∉ paths ms := by
  induction ms with
  | nil => exact List.not_mem_nil
  | cons m ms ih =>
    rw [remount] at h
    split at h
    · cases h
    · rename_i hne
      rw [same_path_iff hlen] at hne
      intro hmem
      rcases List.mem_cons.mp hmem with heq | hmem
      · exact hne heq.symm
      · exact ih (Option.map_eq_none_iff.mp h) hmem

theorem unmount_some (h : unmount path ms = some ms') :
    ∃ a m b, ms = a ++ m :: b ∧ ms' = a ++ b ∧ m.path.chars = path.chars := by
  induction ms generalizing ms' with
  | nil => cases h
  | cons m ms ih =>
    rw [unmount] at h
    split at h
    · rename_i heq
      cases h
      exact ⟨[], m, ms, rfl, rfl, (strcmp_eq_zero m.path.noNul path.noNul).mp heq⟩
    · obtain ⟨rest, hrest, rfl⟩ := Option.map_eq_some_iff.mp h
      obtain ⟨a, m', b, rfl, rfl, heq⟩ := ih hrest
      exact ⟨m :: a, m', b, rfl, rfl, heq⟩

/-! ## The operations keep the table -/

/-- A path that is not mounted, behind the others. -/
theorem Table.append {ps : List (List UInt8)} (ht : Table ps) {p : List UInt8} (hnew : p ∉ ps)
    (habs : p.head? = some 47) (htrim : p = [47] ∨ p.getLast? ≠ some 47) (hshort : p.length < 32)
    (hroom : ps.length < maxMounts) : Table (ps ++ [p]) where
  distinct := List.nodup_append.mpr ⟨ht.distinct, List.nodup_singleton p, fun a ha b hb => by
    rw [List.mem_singleton.mp hb]
    rintro rfl
    exact hnew ha⟩
  absolute := fun q hq => by
    rcases List.mem_append.mp hq with hq | hq
    · exact ht.absolute q hq
    · rw [List.mem_singleton.mp hq]
      exact habs
  trimmed := fun q hq => by
    rcases List.mem_append.mp hq with hq | hq
    · exact ht.trimmed q hq
    · rw [List.mem_singleton.mp hq]
      exact htrim
  short := fun q hq => by
    rcases List.mem_append.mp hq with hq | hq
    · exact ht.short q hq
    · rw [List.mem_singleton.mp hq]
      exact hshort
  count := by
    rw [List.length_append]
    exact hroom
  root := by
    rw [List.head?_append, ht.root]
    rfl

/-- Any path but the first taken out. -/
theorem Table.remove {a b : List (List UInt8)} {p : List UInt8} (ht : Table (a ++ p :: b))
    (hp : p ≠ [47]) : Table (a ++ b) := by
  have hsub : (a ++ b).Sublist (a ++ p :: b) :=
    (List.Sublist.refl a).append (List.sublist_cons_self p b)
  refine ⟨ht.distinct.sublist hsub, fun q hq => ht.absolute q (hsub.subset hq),
    fun q hq => ht.trimmed q (hsub.subset hq), fun q hq => ht.short q (hsub.subset hq),
    hsub.length_le.trans ht.count, ?_⟩
  have hroot := ht.root
  cases a with
  | nil => exact absurd (Option.some.inj hroot) hp
  | cons q a => exact hroot

theorem newMount_chars (path : CString) (ops : Backend) (h : charAt path 0 = 47)
    (hlen : path.chars.length < 32) : (newMount path ops h hlen).path.chars =
      path.chars.take (trimLen path.chars path.chars.length) := storedPath_chars path _

/-- What `vfs_mount` does: new operations for the trimmed path, or a new mount. -/
theorem mountAt_cases (h : mountAt mounts path ops = some mounts') :
    remount path (trimLen path.chars path.chars.length) ops mounts = some mounts' ∨
    ∃ habs hlen, remount path (trimLen path.chars path.chars.length) ops mounts = none ∧
      mounts.length < maxMounts ∧ mounts' = mounts ++ [newMount path ops habs hlen] := by
  rw [mountAt] at h
  split at h
  case isFalse => cases h
  case isTrue habs =>
    split at h
    case isFalse => cases h
    case isTrue hlen =>
      cases hre : remount path (trimLen path.chars path.chars.length) ops mounts with
      | some ms =>
        rw [hre] at h
        exact .inl h
      | none =>
        rw [hre] at h
        dsimp only at h
        split at h
        · cases h
        · exact .inr ⟨habs, hlen, rfl, by omega, (Option.some.inj h).symm⟩

theorem mountAt_table (ht : Table (paths mounts)) (h : mountAt mounts path ops = some mounts') :
    Table (paths mounts') := by
  rcases mountAt_cases h with hre | ⟨habs, hlen, hre, hroom, rfl⟩
  · rw [remount_some hre]
    exact ht
  · have hnew := newMount_chars path ops habs hlen
    rw [paths, List.map_append, List.map_singleton]
    refine ht.append ?_ (newMount path ops habs hlen).absolute ?_
      (newMount path ops habs hlen).fits ?_
    · rw [hnew]
      exact remount_none (trimLen_le ..) hre
    · rw [hnew]
      exact take_trimLen le_rfl (head_of_charAt habs)
    · rw [paths, List.length_map]
      exact hroom

/-- A mount that succeeds has a path and operations. -/
theorem vfsMount_some {path : Option CString} (h : vfsMount mounts path ops = some mounts') :
    ∃ p, path = some p ∧ mountAt mounts p ops = some mounts' := by
  cases path with
  | none => cases h
  | some p =>
    cases ops with
    | null => cases h
    | fat => exact ⟨p, rfl, h⟩
    | other ops => exact ⟨p, rfl, h⟩

/-- An unmount that succeeds takes out one mount, not the root. -/
theorem vfsUmount_some {path : Option CString} (h : vfsUmount mounts path = some mounts') :
    ∃ p a m b, path = some p ∧ mounts = a ++ m :: b ∧ mounts' = a ++ b ∧
      m.path.chars = p.chars ∧ p.chars ≠ [47] := by
  cases path with
  | none => cases h
  | some p =>
    rw [vfsUmount] at h
    split at h
    · cases h
    · rename_i hpath
      obtain ⟨a, m, b, rfl, rfl, heq⟩ := unmount_some h
      refine ⟨p, a, m, b, rfl, rfl, rfl, heq, fun hroot => hpath (.inr ?_)⟩
      rw [strcmp_eq_zero p.noNul slash.noNul]
      exact hroot

theorem call_table {l : Label} (ht : Table (paths mounts)) (h : call mounts l = some mounts') :
    Table (paths mounts') := by
  cases l with
  | mount path ops =>
    obtain ⟨p, rfl, hp⟩ := vfsMount_some h
    exact mountAt_table ht hp
  | umount path =>
    obtain ⟨p, a, m, b, rfl, rfl, rfl, heq, hne⟩ := vfsUmount_some h
    rw [paths, List.map_append] at ht ⊢
    exact ht.remove fun hroot => hne (heq.symm.trans hroot)

theorem mountRoot_table (hops : ops ≠ .null) : Table (paths (mountRoot ops)) := by
  have hpaths : paths (mountRoot ops) = [[47]] := by
    cases ops with
    | null => exact absurd rfl hops
    | fat => rfl
    | other ops => rfl
  rw [hpaths]
  exact ⟨by decide, by decide, by decide, by decide, by decide, rfl⟩

/-! ## What is mounted where -/

/-- The operations mounted at a path. -/
def opsAt (mounts : List Mount) (p : List UInt8) : Option Backend :=
  (mounts.find? fun m => m.path.chars = p).map Mount.ops

theorem opsAt_cons (m : Mount) (ms : List Mount) (p : List UInt8) :
    opsAt (m :: ms) p = if m.path.chars = p then some m.ops else opsAt ms p := by
  by_cases h : m.path.chars = p <;> simp [opsAt, h]

theorem opsAt_append (a b : List Mount) (p : List UInt8) :
    opsAt (a ++ b) p = (opsAt a p).or (opsAt b p) := by
  rw [opsAt, List.find?_append, Option.map_or]
  rfl

theorem opsAt_none {p : List UInt8} (h : p ∉ paths ms) : opsAt ms p = none := by
  rw [opsAt, Option.map_eq_none_iff, List.find?_eq_none]
  intro m hm heq
  exact h (List.mem_map.mpr ⟨m, hm, by simpa using heq⟩)

theorem opsAt_remount (hlen : len ≤ path.chars.length) (h : remount path len ops ms = some ms') :
    opsAt ms' = Function.update (opsAt ms) (path.chars.take len) (some ops) := by
  induction ms generalizing ms' with
  | nil => cases h
  | cons m ms ih =>
    rw [remount] at h
    funext p
    split at h
    · rename_i hsame
      rw [same_path_iff hlen] at hsame
      cases h
      rw [opsAt_cons, Function.update_apply, opsAt_cons, hsame]
      by_cases hp : p = path.chars.take len
      · rw [if_pos hp.symm, if_pos hp]
      · rw [if_neg (Ne.symm hp), if_neg hp, if_neg (Ne.symm hp)]
    · rename_i hne
      rw [same_path_iff hlen] at hne
      obtain ⟨rest, hrest, rfl⟩ := Option.map_eq_some_iff.mp h
      rw [opsAt_cons, ih hrest, Function.update_apply, Function.update_apply, opsAt_cons]
      by_cases hp : p = path.chars.take len
      · rw [if_pos hp, if_pos hp, if_neg (hp ▸ hne)]
      · rw [if_neg hp, if_neg hp]

/-- **A call that succeeds changes what is mounted at its path**, and nothing else. -/
theorem call_opsAt {l : Label} (ht : Table (paths mounts)) (h : call mounts l = some mounts') :
    opsAt mounts' = Function.update (opsAt mounts) (effect l).1 (effect l).2 := by
  cases l with
  | mount path ops =>
    obtain ⟨p, rfl, hp⟩ := vfsMount_some h
    simp only [effect, Option.elim_some]
    rcases mountAt_cases hp with hre | ⟨habs, hlen, hre, _, rfl⟩
    · exact opsAt_remount (trimLen_le ..) hre
    · funext q
      have hnone := opsAt_none (remount_none (trimLen_le ..) hre)
      rw [opsAt_append, opsAt_cons, newMount_chars, Function.update_apply]
      by_cases hq : q = p.chars.take (trimLen p.chars p.chars.length)
      · rw [if_pos hq, if_pos hq.symm, hq, hnone]
        rfl
      · rw [if_neg hq, if_neg (Ne.symm hq)]
        exact Option.or_none
  | umount path =>
    obtain ⟨p, a, m, b, rfl, rfl, rfl, heq, -⟩ := vfsUmount_some h
    simp only [effect, Option.elim_some]
    have hd := ht.distinct
    rw [paths, List.map_append, List.map_cons, List.nodup_middle, List.nodup_cons] at hd
    funext q
    rw [Function.update_apply, opsAt_append, opsAt_append, opsAt_cons]
    by_cases hq : q = p.chars
    · have hno : q ∉ paths (a ++ b) := by
        rw [hq, ← heq, paths, List.map_append]
        exact hd.1
      rw [if_pos hq, ← opsAt_append]
      exact opsAt_none hno
    · rw [if_neg hq, if_neg fun hm => hq (hm.symm.trans heq)]

/-- The table against the record of the calls. -/
structure Recorded (mounts : List Mount) (t : List Mount × (List UInt8 → Option Backend)) :
    Prop where
  table : Table (paths mounts)
  same : t.1 = mounts
  ops : opsAt mounts = t.2

theorem Recorded.step {t : List Mount × (List UInt8 → Option Backend)} {l : Label}
    (h : Recorded mounts t) (hs : step mounts l = some mounts') :
    Recorded mounts' (record t l) := by
  obtain ⟨ht, rfl, hops⟩ := h
  cases hs
  rw [record]
  cases hc : call t.1 l with
  | none => exact ⟨ht, rfl, hops⟩
  | some ms => exact ⟨call_table ht hc, rfl, hops ▸ call_opsAt ht hc⟩

/-! ## Resolution -/

/-- The path lies at or below the mount, by components. -/
def Matches (m : Mount) (path : CString) : Prop :=
  m.path.chars = [47] ∨ path.chars = m.path.chars ∨ m.path.chars ++ [47] <+: path.chars

/-- What is left of a path that starts with the mount's. -/
def subpath (m : Mount) (path : CString) : CString :=
  if m.path.chars = [47] then dropChars path 1 else dropChars path (m.path.chars.length + 1)

theorem length_pos (m : Mount) : 1 ≤ m.path.chars.length := by
  have habs := m.absolute
  cases hc : m.path.chars with
  | nil =>
    rw [hc] at habs
    cases habs
  | cons c cs => exact Nat.succ_le_succ (Nat.zero_le _)

theorem length_eq_one_iff (m : Mount) : m.path.chars.length = 1 ↔ m.path.chars = [47] := by
  constructor
  · intro h
    obtain ⟨c, hc⟩ := List.length_eq_one_iff.mp h
    have habs := m.absolute
    rw [hc] at habs ⊢
    rw [Option.some.inj habs]
  · intro h
    rw [h]
    rfl

/-- The character behind a string prefix tells whether a component ends there. -/
theorem prefix_sep_iff {s : List UInt8} : (s.isPrefixOf path.chars ∧ isSep (charAt path s.length)) ↔
      path.chars = s ∨ s ++ [47] <+: path.chars := by
  rw [List.isPrefixOf_iff_prefix]
  constructor
  · rintro ⟨⟨t, ht⟩, hsep⟩
    rw [isSep, charAt, ← ht, List.getD_eq_getElem?_getD, List.getElem?_append_right le_rfl,
      Nat.sub_self] at hsep
    cases t with
    | nil => exact .inl (by rw [← ht, List.append_nil])
    | cons c t =>
      have hc : c ∈ path.chars := by
        rw [← ht]
        exact List.mem_append_cons_self
      have hne : c ≠ 0 := fun h0 => path.noNul (h0 ▸ hc)
      simp only [List.getElem?_cons_zero, Option.getD_some, Bool.or_eq_true, beq_iff_eq] at hsep
      refine .inr ⟨t, ?_⟩
      rw [← ht, hsep.resolve_right hne, List.append_assoc]
      rfl
  · rintro (heq | ⟨t, ht⟩)
    · refine ⟨by rw [heq], ?_⟩
      rw [isSep, charAt, heq, List.getD_eq_getElem?_getD, List.getElem?_eq_none le_rfl]
      rfl
    · refine ⟨⟨47 :: t, by rw [← ht, List.append_assoc]; rfl⟩, ?_⟩
      rw [isSep, charAt, ← ht, List.append_assoc, List.getD_eq_getElem?_getD,
        List.getElem?_append_right le_rfl, Nat.sub_self]
      rfl

/-- The search so far: the longest of the mounts it has seen that match. -/
def Best (seen : List Mount) (path : CString) : Option (Mount × Nat) → Prop
  | none => ∀ m ∈ seen, ¬ Matches m path
  | some (m, len) => m ∈ seen ∧ Matches m path ∧ len = m.path.chars.length ∧
      ∀ m' ∈ seen, Matches m' path → m'.path.chars.length ≤ len

/-- One more mount that does not beat the best. -/
theorem Best.keep (hb : Best seen path best)
    (h : Matches m path → (m.path.chars.length : Int) ≤ bestLen best) :
    Best (seen ++ [m]) path best := by
  cases best with
  | none =>
    intro m' hm' hmatch
    rcases List.mem_append.mp hm' with hm' | hm'
    · exact hb m' hm' hmatch
    · obtain rfl := List.mem_singleton.mp hm'
      have := h hmatch
      rw [bestLen] at this
      omega
  | some b =>
    obtain ⟨hmem, hmatch, hlen, hmax⟩ := hb
    refine ⟨List.mem_append_left _ hmem, hmatch, hlen, fun m' hm' hmatch' => ?_⟩
    rcases List.mem_append.mp hm' with hm' | hm'
    · exact hmax m' hm' hmatch'
    · obtain rfl := List.mem_singleton.mp hm'
      exact Int.ofNat_le.mp (h hmatch')

/-- One more mount that does. -/
theorem Best.take (hb : Best seen path best) (hmatch : Matches m path)
    (h : bestLen best < (m.path.chars.length : Int)) :
    Best (seen ++ [m]) path (some (m, m.path.chars.length)) := by
  refine ⟨List.mem_append_right _ (List.mem_singleton_self m), hmatch, rfl, fun m' hm' hmatch' =>
    ?_⟩
  rcases List.mem_append.mp hm' with hm' | hm'
  · cases best with
    | none => exact absurd hmatch' (hb m' hm')
    | some b =>
      have hle := hb.2.2.2 m' hm' hmatch'
      have hlt : (b.2 : Int) < m.path.chars.length := h
      omega
  · rw [List.mem_singleton.mp hm']

theorem resolveFrom_best (ms : List Mount) (hb : Best seen path best) :
    Best (seen ++ ms) path (resolveFrom path ms best) := by
  induction ms generalizing seen best with
  | nil =>
    rw [List.append_nil]
    exact hb
  | cons m ms ih =>
    have hpos := length_pos m
    rw [resolveFrom, List.append_cons]
    by_cases hroot : m.path.chars.length = 1
    · rw [if_pos hroot]
      by_cases hbest : bestLen best < 1
      · rw [if_pos hbest]
        have htake := hb.take (.inl ((length_eq_one_iff m).mp hroot)) (by rw [hroot]; exact hbest)
        rw [hroot] at htake
        exact ih htake
      · rw [if_neg hbest]
        exact ih (hb.keep fun _ => by omega)
    · rw [if_neg hroot]
      have hmatch_iff : Matches m path ↔ (m.path.chars.isPrefixOf path.chars ∧
          isSep (charAt path m.path.chars.length)) := by
        rw [prefix_sep_iff, Matches, ← length_eq_one_iff]
        tauto
      split
      · rename_i hc
        exact ih (hb.take (hmatch_iff.mpr ⟨hc.1, hc.2.1⟩) hc.2.2)
      · rename_i hc
        refine ih (hb.keep fun hmatch => ?_)
        by_contra hlt
        exact hc ⟨(hmatch_iff.mp hmatch).1, (hmatch_iff.mp hmatch).2, by omega⟩

/-- What `resolve` is for. -/
structure Resolves (mounts : List Mount) (path : CString) : Prop where
  relative : charAt path 0 ≠ 47 →
    ∃ root, mounts.head? = some root ∧ resolve mounts path = some (root.ops, path)
  absolute : charAt path 0 = 47 →
    ∃ m ∈ mounts, Matches m path ∧
      (∀ m' ∈ mounts, Matches m' path → m'.path.chars.length ≤ m.path.chars.length) ∧
      resolve mounts path = some (m.ops, subpath m path)

/-- Behind a mount that matches, the rest starts after the slash. -/
theorem subpath_eq (hmatch : Matches m path) (hroot : m.path.chars ≠ [47]) :
    (if charAt path m.path.chars.length = 47 then dropChars path (m.path.chars.length + 1)
      else emptyString) = subpath m path := by
  rw [subpath, if_neg hroot]
  split
  · rfl
  · rename_i hsep
    rcases hmatch with h | h | ⟨t, ht⟩
    · exact absurd h hroot
    · have hnil : path.chars.drop (m.path.chars.length + 1) = [] :=
        List.drop_eq_nil_of_le (by rw [h]; omega)
      simp only [dropChars, hnil, emptyString]
    · refine absurd ?_ hsep
      rw [charAt, ← ht, List.append_assoc, List.getD_eq_getElem?_getD,
        List.getElem?_append_right le_rfl, Nat.sub_self]
      rfl

theorem resolves_of_table (ht : Table (paths mounts)) (path : CString) : Resolves mounts path := by
  cases mounts with
  | nil => cases ht.root
  | cons root ms =>
    have hroot : root.path.chars = [47] := Option.some.inj ht.root
    refine ⟨fun hrel => ⟨root, rfl, ?_⟩, fun habs => ?_⟩
    · rw [resolve, if_pos hrel]
    · have hbest : Best ([] ++ root :: ms) path (resolveFrom path (root :: ms) none) :=
        resolveFrom_best (root :: ms) (by intro m hm; cases hm)
      rw [List.nil_append] at hbest
      cases hr : resolveFrom path (root :: ms) none with
      | none =>
        rw [hr] at hbest
        exact absurd (.inl hroot) (hbest root List.mem_cons_self)
      | some b =>
        obtain ⟨m, len⟩ := b
        rw [hr] at hbest
        obtain ⟨hmem, hmatch, rfl, hmax⟩ := hbest
        refine ⟨m, hmem, hmatch, hmax, ?_⟩
        rw [resolve, if_neg (not_not.mpr habs), hr]
        dsimp only
        by_cases h1 : m.path.chars.length = 1
        · rw [if_pos h1, subpath, if_pos ((length_eq_one_iff m).mp h1)]
        · rw [if_neg h1, subpath_eq hmatch fun h => h1 ((length_eq_one_iff m).mpr h)]

/-- **RESOLUTION IS LONGEST PREFIX**: whatever is mounted and unmounted after the root, the
    table stays in order, it has at every path what the last successful call for that path
    has left there, and every path resolves to the longest mount it lies under. -/
theorem resolve_longest_prefix {ops : Backend} (hops : ops ≠ .null) {ls : List Label}
    {mounts : List Mount} (hrun : Steps step Any (mountRoot ops) ls mounts) :
    Table (paths mounts) ∧
      opsAt mounts = (ls.foldl record (mountRoot ops, opsAt (mountRoot ops))).2 ∧
      ∀ path, Resolves mounts path := by
  have h : Recorded mounts (ls.foldl record (mountRoot ops, opsAt (mountRoot ops))) :=
    hrun.simulates (fun _ _ _ _ h _ hs => h.step hs) ⟨mountRoot_table hops, rfl, rfl⟩
  exact ⟨h.table, h.ops, resolves_of_table h.table⟩

/-- `"/dev/"`, a path below it, and `"/dev"`. -/
def devSlash : CString := ⟨[47, 100, 101, 118, 47], by decide⟩

def devNull : CString := ⟨[47, 100, 101, 118, 47, 110], by decide⟩

def dev : CString := ⟨[47, 100, 101, 118], by decide⟩

def devices : Backend := .other ⟨none, none, none⟩

/-- Mounted, a path below `/dev` resolves to it; after the unmount, to the root. -/
theorem resolve_longest_prefix_dev : ∃ mounts mounts',
    Steps step Any (mountRoot .fat) [.mount (some devSlash) devices] mounts ∧
    Steps step Any (mountRoot .fat) [.mount (some devSlash) devices, .umount (some dev)] mounts' ∧
    opsAt mounts dev.chars = some devices ∧ opsAt mounts' dev.chars = none ∧
    (resolve mounts devNull).map (fun r => r.2.chars) = some [110] ∧
    (resolve mounts' devNull).map (fun r => r.2.chars) = some [100, 101, 118, 47, 110] ∧
    Resolves mounts' devNull := by
  have hrun : Steps step Any (mountRoot .fat) [.mount (some devSlash) devices] _ :=
    .cons rfl trivial (.nil _)
  have hrun' : Steps step Any (mountRoot .fat)
      [.mount (some devSlash) devices, .umount (some dev)] _ :=
    .cons rfl trivial (.cons rfl trivial (.nil _))
  have hops : Backend.fat ≠ .null := by nofun
  obtain ⟨-, hat, -⟩ := resolve_longest_prefix hops hrun
  obtain ⟨-, hat', hres⟩ := resolve_longest_prefix hops hrun'
  exact ⟨_, _, hrun, hrun', by rw [hat]; rfl, by rw [hat']; rfl, by decide, by decide, hres devNull⟩

end MountTable
