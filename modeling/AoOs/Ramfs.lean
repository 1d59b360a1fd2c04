import AoOs.StepSystem
import AoOs.SlotMap
import AoOs.CStrings

/-! # The RAM file system — `ramfs.c`

    Sixteen slots with a name of at most 31 characters and up to 512 bytes.  Looking up
    compares the stored name with the whole name that is asked for, while storing cuts the
    name.  So for names that fit the table is a finite map; a file with a longer name is
    stored under another name than its own, and is never found again. -/

namespace Ramfs

open StepSystem FatTypes CStrings SlotMap

/-! ## The functions -/

/-- `MAX_FILES`. -/
def maxFiles : Nat := 16

/-- `MAX_FILENAME`. -/
def maxFilename : Nat := 32

/-- `MAX_FILESIZE`. -/
def maxFilesize : Nat := 512

/-- `ramfs_file_t`. -/
structure RamfsFile where
  name : List UInt8
  data : Nat → UInt8
  size : Nat
  used : Bool

variable {f : RamfsFile} {name : CString}

/-- `files` and `file_count`. -/
structure State where
  files : List RamfsFile
  fileCount : Int

/-- A slot after `ramfs_init` or `ramfs_delete`. -/
def blank : RamfsFile := ⟨List.replicate maxFilename 0, fun _ => 0, 0, false⟩

/-- `ramfs_init`. -/
def init : State := ⟨List.replicate maxFiles blank, 0⟩

/-- `files[i].used && strcmp(files[i].name, name) == 0`. -/
def isNamed (name : CString) (f : RamfsFile) : Bool :=
  f.used && decide (strcmp (cstr f.name).chars name.chars = 0)

/-- The bytes after `memcpy` and the terminator behind them. -/
def stored (old : Nat → UInt8) (data : List UInt8) : Nat → UInt8 := fun j =>
  if j < data.length then data.getD j 0
  else if j = data.length ∧ data.length < maxFilesize then 0
  else old j

/-- The name after `strncpy` and the terminator at its end. -/
def storedName (name : CString) : List UInt8 :=
  (strncpy name.chars (maxFilename - 1)).take (maxFilename - 1) ++ [0]

/-- `ramfs_create`, and whether it returned 0. -/
def ramfsCreate (s : State) (name : CString) (data : List UInt8) : State × Bool :=
  if maxFilesize < data.length then (s, false)
  else
    match updateFirst (isNamed name)
        (fun f => { f with data := stored (fun _ => 0) data, size := data.length }) s.files with
    | some files => ({ s with files := files }, true)
    | none =>
      match updateFirst (fun f => !f.used)
          (fun f => ⟨storedName name, stored f.data data, data.length, true⟩) s.files with
      | some files => (⟨files, s.fileCount + 1⟩, true)
      | none => (s, false)

/-- What is in a slot. -/
def RamfsFile.contents (f : RamfsFile) : List UInt8 := (List.range f.size).map f.data

/-- `ramfs_read`: the bytes, or else -1 with the size if there was one to tell. -/
def ramfsRead (s : State) (name : CString) (maxSize : Nat) : Except (Option Nat) (List UInt8) :=
  match s.files.find? (isNamed name) with
  | none => .error none
  | some f => if maxSize < f.size then .error (some f.size) else .ok f.contents

/-- `ramfs_delete`. -/
def ramfsDelete (s : State) (name : CString) : State × Bool :=
  match updateFirst (isNamed name) (fun _ => blank) s.files with
  | some files => (⟨files, s.fileCount - 1⟩, true)
  | none => (s, false)

/-! ## Runs -/

inductive Label where
  | create (name : CString) (data : List UInt8) (ok : Bool)
  | read (name : CString) (maxSize : Nat)
  | delete (name : CString) (ok : Bool)

def step (s : State) : Label → Option State
  | .create name data ok =>
    if (ramfsCreate s name data).2 = ok then some (ramfsCreate s name data).1 else none
  | .read _ _ => some s
  | .delete name ok => if (ramfsDelete s name).2 = ok then some (ramfsDelete s name).1 else none

/-- The map that a caller of the functions has in mind. -/
abbrev Map := List UInt8 → Option (List UInt8)

def Map.set (m : Map) (name : CString) (v : Option (List UInt8)) : Map := fun n =>
  if n = name.chars then v else m n

/-- What a successful call means to its caller. -/
def note (m : Map) : Label → Map
  | .create name data true => m.set name (some data)
  | .delete name true => m.set name none
  | _ => m

/-- The files after a run. -/
def written (ls : List Label) : Map := ls.foldl note fun _ => none

/-- The name of a new file fits with its terminator. -/
def ShortName (_ : State) : Label → Prop
  | .create name _ _ => name.chars.length < maxFilename
  | _ => True

instance (s : State) (l : Label) : Decidable (ShortName s l) :=
  match l with
  | .create _ _ _ => inferInstanceAs (Decidable (_ < _))
  | .read _ _ | .delete _ _ => .isTrue trivial

/-! ## Keys -/

/-- The name of a slot in use. -/
def nameOf (f : RamfsFile) : Option (List UInt8) :=
  if f.used then some (cstr f.name).chars else none

theorem isNamed_iff : isNamed name f ↔ nameOf f = some name.chars := by
  rw [isNamed, nameOf, Bool.and_eq_true, decide_eq_true_iff,
    strcmp_eq_zero (cstr f.name).noNul name.noNul]
  cases f.used with
  | false => exact ⟨fun h => absurd h.1 Bool.false_ne_true, nofun⟩
  | true => exact ⟨fun h => congrArg some h.2, fun h => ⟨rfl, Option.some.inj h⟩⟩

theorem isNamed_false : isNamed name f = false ↔ nameOf f ≠ some name.chars := by
  rw [Ne, ← isNamed_iff, Bool.not_eq_true]

theorem nameOf_unused (h : (!f.used)) : nameOf f = none := by
  rw [nameOf, if_neg (by simpa using h)]

/-- A short name is stored as it is. -/
theorem nameOf_stored (h : name.chars.length < maxFilename) (data : Nat → UInt8) (size : Nat) :
    nameOf ⟨storedName name, data, size, true⟩ = some name.chars := by
  rw [nameOf, if_pos rfl, storedName, cstr_strncpy name.noNul, List.take_of_length_le (by
    rw [maxFilename] at *
    omega)]

theorem find_isNamed (l : List RamfsFile) (name : CString) :
    l.find? (isNamed name) = lookup nameOf l name.chars := by
  rw [lookup]
  congr 1
  funext f
  rw [Bool.eq_iff_iff, isNamed_iff, decide_eq_true_iff]

theorem contents_stored (f : RamfsFile) (old : Nat → UInt8) (data : List UInt8)
    (hdata : f.data = stored old data) (hsize : f.size = data.length) : f.contents = data := by
  rw [RamfsFile.contents, hdata, hsize]
  refine List.ext_getElem (by simp) fun j hj hj' => ?_
  rw [List.getElem_map, List.getElem_range, stored, if_pos hj', List.getD_eq_getElem?_getD,
    List.getElem?_eq_getElem hj', Option.getD_some]

/-! ## The invariant -/

/-- The table is the finite map `m`. -/
structure FiniteMap (s : State) (m : Map) : Prop where
  slots : s.files.length = maxFiles
  distinct : (keys nameOf s.files).Nodup
  count : s.fileCount = (keys nameOf s.files).length
  maps : ∀ n, (lookup nameOf s.files n).map RamfsFile.contents = m n

theorem init_finiteMap : FiniteMap init (fun _ => none) where
  slots := rfl
  distinct := by decide
  count := by decide
  maps := fun n => by
    have hnone : lookup nameOf init.files n = none := lookup_eq_none.mpr (by
      rw [show keys nameOf init.files = [] by decide]
      exact List.not_mem_nil)
    rw [hnone]
    rfl

/-- One slot replaced, with the map updated at its name. -/
theorem FiniteMap.maps_set {a b : List RamfsFile} {f' : RamfsFile} {m : Map}
    {v : Option (List UInt8)}
    (hmaps : ∀ n, (lookup nameOf (a ++ f :: b) n).map RamfsFile.contents = m n)
    (hold : ∀ n, n ≠ name.chars → nameOf f ≠ some n)
    (hnew : ∀ n, n ≠ name.chars → nameOf f' ≠ some n)
    (hname : (lookup nameOf (a ++ f' :: b) name.chars).map RamfsFile.contents = v) (n : List UInt8)
    : (lookup nameOf (a ++ f' :: b) n).map RamfsFile.contents = m.set name v n := by
  rw [Map.set]
  by_cases hn : n = name.chars
  · rw [if_pos hn, hn, hname]
  · rw [if_neg hn, lookup_other (hold n hn) (hnew n hn), hmaps]

/-! ## `ramfs_create` -/

/-- There is a free slot exactly if fewer names than slots are there. -/
theorem length_keys_lt_iff (l : List RamfsFile) :
    (keys nameOf l).length < l.length ↔ ∃ f ∈ l, (!f.used) := by
  constructor
  · intro hlt
    by_contra hall
    have hsome : ∀ f ∈ l, nameOf f = some (cstr f.name).chars := fun f hf => by
      rw [nameOf, if_pos]
      by_contra hu
      exact hall ⟨f, hf, by simpa using hu⟩
    rw [keys, List.filterMap_congr hsome, List.filterMap_eq_map', List.length_map] at hlt
    exact Nat.lt_irrefl _ hlt
  · rintro ⟨f, hf, hu⟩
    obtain ⟨a, b, rfl⟩ := List.append_of_mem hf
    have ha := List.length_filterMap_le nameOf a
    have hb := List.length_filterMap_le nameOf b
    rw [keys_split, nameOf_unused hu]
    simp only [List.length_append, Option.toList_none, List.nil_append, List.length_cons, keys]
    omega

section Create

variable {s : State} {m : Map} {name : CString}

/-- A name that is there is overwritten. -/
theorem overwrite_finiteMap (hm : FiniteMap s m) {data : List UInt8} {files : List RamfsFile}
    (h : updateFirst (isNamed name)
      (fun f => { f with data := stored (fun _ => 0) data, size := data.length }) s.files =
        some files) : FiniteMap { s with files := files } (m.set name (some data)) := by
  obtain ⟨a, f, b, hfiles, hf, rfl⟩ := updateFirst_some h
  obtain ⟨hslots, hdistinct, hcount, hmaps⟩ := hm
  rw [hfiles] at hslots hdistinct hcount hmaps
  rw [isNamed_iff] at hf
  have hcontents := contents_stored { f with data := stored (fun _ => 0) data, size := data.length }
    _ data rfl rfl
  have hname : nameOf { f with data := stored (fun _ => 0) data, size := data.length } = nameOf f :=
    rfl
  generalize { f with data := stored (fun _ => 0) data, size := data.length : RamfsFile } = f' at *
  have hkeys : keys nameOf (a ++ f' :: b) = keys nameOf (a ++ f :: b) := keys_update hname
  have hother : ∀ n, n ≠ name.chars → nameOf f ≠ some n := fun n hn he =>
    hn (Option.mem_unique he hf)
  rw [← hkeys] at hdistinct hcount
  refine ⟨?_, hdistinct, hcount,
    FiniteMap.maps_set hmaps hother (fun n hn => hname ▸ hother n hn) ?_⟩
  · rw [List.length_append] at hslots ⊢
    exact hslots
  · rw [(lookup_eq_some hdistinct).mpr
      ⟨List.mem_append_cons_self, hname.trans hf⟩, Option.map_some, hcontents]

/-- A new name gets the first free slot. -/
theorem fill_finiteMap (hm : FiniteMap s m) (hshort : name.chars.length < maxFilename)
    (hnew : name.chars ∉ keys nameOf s.files) {data : List UInt8} {files : List RamfsFile}
    (h : updateFirst (fun f => !f.used)
      (fun f => ⟨storedName name, stored f.data data, data.length, true⟩) s.files = some files) :
    FiniteMap ⟨files, s.fileCount + 1⟩ (m.set name (some data)) := by
  obtain ⟨a, f, b, hfiles, hf, rfl⟩ := updateFirst_some h
  obtain ⟨hslots, hdistinct, hcount, hmaps⟩ := hm
  rw [hfiles] at hslots hdistinct hcount hmaps hnew
  have hold := nameOf_unused hf
  have hname := nameOf_stored hshort (stored f.data data) data.length
  have hnodup := nodup_insert hdistinct hold hname hnew
  have hlength := length_keys_replace nameOf a f
    ⟨storedName name, stored f.data data, data.length, true⟩ b
  rw [hold, hname] at hlength
  refine ⟨?_, hnodup, ?_, FiniteMap.maps_set hmaps (fun n _ he => nomatch hold.symm.trans he)
    (fun n hn he => hn (Option.mem_unique he hname)) ?_⟩
  · rw [List.length_append] at hslots ⊢
    exact hslots
  · simp only [Option.toList_some, Option.toList_none, List.length_singleton,
      List.length_nil] at hlength
    dsimp only
    omega
  · rw [(lookup_eq_some hnodup).mpr ⟨List.mem_append_cons_self, hname⟩]
    exact congrArg some (contents_stored _ _ data rfl rfl)

/-- `ramfs_create` of a name that fits. -/
theorem ramfsCreate_spec (hm : FiniteMap s m) (hshort : name.chars.length < maxFilename)
    (data : List UInt8) : ((ramfsCreate s name data).2 ↔ data.length ≤ maxFilesize ∧
      (name.chars ∈ keys nameOf s.files ∨ (keys nameOf s.files).length < maxFiles)) ∧
    FiniteMap (ramfsCreate s name data).1
      (if (ramfsCreate s name data).2 then m.set name (some data) else m) := by
  rw [ramfsCreate]
  by_cases hsize : maxFilesize < data.length
  · rw [if_pos hsize]
    exact ⟨⟨nofun, fun h => absurd h.1 (by omega)⟩, hm⟩
  rw [if_neg hsize]
  cases hover : updateFirst (isNamed name)
      (fun f => { f with data := stored (fun _ => 0) data, size := data.length }) s.files with
  | some files =>
    obtain ⟨a, f, b, hfiles, hf, _⟩ := updateFirst_some hover
    refine ⟨⟨fun _ => ⟨by omega, .inl (mem_keys.mpr ⟨f, ?_, isNamed_iff.mp hf⟩)⟩, fun _ => rfl⟩,
      overwrite_finiteMap hm hover⟩
    rw [hfiles]
    exact List.mem_append_cons_self
  | none =>
    have hnew : name.chars ∉ keys nameOf s.files := fun h => by
      obtain ⟨f, hf, hname⟩ := mem_keys.mp h
      exact isNamed_false.mp (updateFirst_eq_none.mp hover f hf) hname
    dsimp only
    rw [← hm.slots, length_keys_lt_iff]
    cases hfill : updateFirst (fun f => !f.used)
        (fun f => ⟨storedName name, stored f.data data, data.length, true⟩) s.files with
    | some files =>
      obtain ⟨a, f, b, hfiles, hf, _⟩ := updateFirst_some hfill
      refine ⟨⟨fun _ => ⟨by omega, .inr ⟨f, ?_, hf⟩⟩, fun _ => rfl⟩,
        fill_finiteMap hm hshort hnew hfill⟩
      rw [hfiles]
      exact List.mem_append_cons_self
    | none =>
      refine ⟨⟨nofun, fun h => ?_⟩, hm⟩
      rcases h.2 with h | ⟨f, hf, hu⟩
      · exact absurd h hnew
      · exact absurd (updateFirst_eq_none.mp hfill f hf) (by rw [hu]; nofun)

/-- `ramfs_delete`, of any name. -/
theorem ramfsDelete_spec (hm : FiniteMap s m) (name : CString) :
    ((ramfsDelete s name).2 ↔ name.chars ∈ keys nameOf s.files) ∧
    FiniteMap (ramfsDelete s name).1
      (if (ramfsDelete s name).2 then m.set name none else m) := by
  rw [ramfsDelete]
  cases hdel : updateFirst (isNamed name) (fun _ => blank) s.files with
  | none =>
    refine ⟨⟨nofun, fun h => ?_⟩, hm⟩
    obtain ⟨f, hf, hname⟩ := mem_keys.mp h
    exact absurd hname (isNamed_false.mp (updateFirst_eq_none.mp hdel f hf))
  | some files =>
    obtain ⟨a, f, b, hfiles, hf, rfl⟩ := updateFirst_some hdel
    obtain ⟨hslots, hdistinct, hcount, hmaps⟩ := hm
    rw [hfiles] at hslots hdistinct hcount hmaps ⊢
    rw [isNamed_iff] at hf
    have hblank : nameOf blank = none := rfl
    obtain ⟨hnodup, hgone⟩ := nodup_delete hdistinct hf hblank
    have hlength := length_keys_replace nameOf a f blank b
    rw [hf, hblank] at hlength
    refine ⟨⟨fun _ => mem_keys.mpr ⟨f, List.mem_append_cons_self, hf⟩,
      fun _ => rfl⟩, ?_, hnodup, ?_, FiniteMap.maps_set hmaps
        (fun n hn he => hn (Option.mem_unique he hf)) (fun _ _ => nofun) ?_⟩
    · rw [List.length_append] at hslots ⊢
      exact hslots
    · simp only [Option.toList_some, Option.toList_none, List.length_singleton,
        List.length_nil] at hlength
      dsimp only
      omega
    · rw [lookup_eq_none.mpr hgone]
      rfl

end Create

/-- `ramfs_read`, of any name. -/
theorem ramfsRead_spec {s : State} {m : Map} (hm : FiniteMap s m) (name : CString) (maxSize : Nat) :
    ramfsRead s name maxSize = match m name.chars with
      | none => .error none
      | some data => if maxSize < data.length then .error (some data.length) else .ok data := by
  rw [ramfsRead, find_isNamed, ← hm.maps]
  cases lookup nameOf s.files name.chars with
  | none => rfl
  | some f =>
    have hlen : f.contents.length = f.size := by
      rw [RamfsFile.contents, List.length_map, List.length_range]
    rw [Option.map_some]
    dsimp only
    rw [hlen]

/-! ## Runs keep the map -/

theorem step_finiteMap {s s' : State} {m : Map} {l : Label} (hm : FiniteMap s m)
    (hshort : ShortName s l) (h : step s l = some s') : FiniteMap s' (note m l) := by
  cases l with
  | create name data ok =>
    rw [step] at h
    split at h
    · rename_i hok
      cases h
      have hfits : name.chars.length < maxFilename := hshort
      have hspec := (ramfsCreate_spec hm hfits data).2
      rw [hok] at hspec
      cases ok with
      | false => exact hspec
      | true => exact hspec
    · cases h
  | read name maxSize =>
    cases h
    exact hm
  | delete name ok =>
    rw [step] at h
    split at h
    · rename_i hok
      cases h
      have hspec := (ramfsDelete_spec hm name).2
      rw [hok] at hspec
      cases ok with
      | false => exact hspec
      | true => exact hspec
    · cases h

theorem run_finiteMap {s s' : State} {m : Map} {ls : List Label}
    (hrun : Steps step ShortName s ls s') (hm : FiniteMap s m) :
    FiniteMap s' (ls.foldl note m) := by
  induction hrun generalizing m with
  | nil s => exact hm
  | cons hstep hc _ ih => exact ih (step_finiteMap hm hc hstep)

theorem length_keys (l : List RamfsFile) : (keys nameOf l).length = l.countP (·.used) := by
  induction l with
  | nil => rfl
  | cons f l ih =>
    rw [List.countP_cons, ← ih, keys, List.filterMap_cons, nameOf]
    cases f.used <;> rfl

/-- **RAMFS IS A FINITE MAP** as long as the names of new files fit: used slots have different
    names and are counted, a file can be created unless it is too large or all slots are
    taken, what was written last is read, and deleting removes the name and nothing else. -/
theorem finite_map {ls : List Label} {s : State} (hrun : Steps step ShortName init ls s) :
    (keys nameOf s.files).Nodup ∧ s.fileCount = s.files.countP (·.used) ∧
    (∀ name data, name.chars.length < maxFilename →
      ((ramfsCreate s name data).2 ↔ data.length ≤ maxFilesize ∧
        (name.chars ∈ keys nameOf s.files ∨ s.files.countP (·.used) < maxFiles))) ∧
    (∀ name maxSize, ramfsRead s name maxSize = match written ls name.chars with
      | none => .error none
      | some data => if maxSize < data.length then .error (some data.length) else .ok data) ∧
    ∀ name, ((ramfsDelete s name).2 ↔ name.chars ∈ keys nameOf s.files) ∧
      ∀ n, (lookup nameOf (ramfsDelete s name).1.files n).map RamfsFile.contents =
        if n = name.chars then none else (lookup nameOf s.files n).map RamfsFile.contents := by
  have hm : FiniteMap s (written ls) := run_finiteMap hrun init_finiteMap
  rw [← length_keys]
  refine ⟨hm.distinct, hm.count, fun name data hshort => (ramfsCreate_spec hm hshort data).1,
    ramfsRead_spec hm, fun name => ⟨(ramfsDelete_spec hm name).1, fun n => ?_⟩⟩
  obtain ⟨hiff, hdel⟩ := ramfsDelete_spec hm name
  rw [hdel.maps, hm.maps]
  cases hok : (ramfsDelete s name).2 with
  | true => rfl
  | false =>
    -- nothing was removed, and there was nothing under that name
    have habsent : name.chars ∉ keys nameOf s.files := fun h =>
      Bool.false_ne_true (hok.symm.trans (hiff.mpr h))
    rw [if_neg nofun]
    split
    · rename_i hn
      rw [hn, ← hm.maps, lookup_eq_none.mpr habsent]
      rfl
    · rfl

/-- `"log"`. -/
def log : CString := ⟨[108, 111, 103], by decide⟩

/-- `"tmp"`. -/
def tmp : CString := ⟨[116, 109, 112], by decide⟩

/-- A file is written twice and deleted, and another one gets its slot. -/
def logRun : List Label :=
  [.create log [1, 2, 3] true, .create log [4] true, .delete log true, .create tmp [5] true]

theorem finite_map_log : ∃ s, Steps step ShortName init logRun s ∧
    keys nameOf s.files = [tmp.chars] ∧ ramfsRead s log 512 = .error none ∧
    ramfsRead s tmp 512 = .ok [5] ∧ (ramfsDelete s tmp).2 := by
  have hrun : (runWhile step ShortName init logRun).map (fun s => keys nameOf s.files) =
      some [tmp.chars] := by decide
  obtain ⟨s, hs, hkeys⟩ := Option.map_eq_some_iff.mp hrun
  obtain ⟨-, -, -, hread, hdelete⟩ := finite_map (steps_of_runWhile hs)
  refine ⟨s, steps_of_runWhile hs, hkeys, ?_, ?_, (hdelete tmp).1.mpr (by simp [hkeys])⟩
  · rw [hread, show written logRun log.chars = none by decide]
  · rw [hread, show written logRun tmp.chars = some [5] by decide]
    rfl

/-- A name of 32 characters. -/
def longName : CString := ⟨List.replicate 32 97, by decide⟩

/-- It is created twice. -/
def longRun : List Label := [.create longName [1] true, .create longName [2] true]

/-- Both calls return 0, two used slots carry one name, and the file is not there. -/
theorem long_name_is_lost : ∃ s, Steps step Any init longRun s ∧ ¬ (keys nameOf s.files).Nodup ∧
      written longRun longName.chars = some [2] ∧ ramfsRead s longName 512 = .error none := by
  have hrun : (runWhile step Any init longRun).map
      (fun s => (decide (keys nameOf s.files).Nodup, (s.files.find? (isNamed longName)).isNone)) =
        some (false, true) := by decide
  obtain ⟨s, hs, heq⟩ := Option.map_eq_some_iff.mp hrun
  obtain ⟨hdup, hnone⟩ := Prod.mk.inj heq
  refine ⟨s, steps_of_runWhile hs, of_decide_eq_false hdup, by decide, ?_⟩
  rw [ramfsRead, Option.isNone_iff_eq_none.mp hnone]

end Ramfs
