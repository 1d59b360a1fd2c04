import AoOs.Ramfs

/-! # Listing the RAM file system — `ramfs_list_adapter`

    The adapter hands out the array of `ramfs_file_t`, 552 bytes each, as an array of
    `fs_file_info_t`, 264 bytes each, with the number of files as its length.  So the flag
    and the size of every record that is read are bytes of some file's contents
    (`memory_contents`), and the bytes behind a file's contents are 0 in every state that is
    reached (`Sane`).  The listing is right when there is no file, or when bytes at fixed
    places of the slots spell the records that should be there (`Forges`). -/

namespace RamfsListing

open StepSystem FatTypes CStrings SlotMap Ramfs

variable {s : State}

/-! ## The two layouts -/

/-- `sizeof(ramfs_file_t)`: 32 + 512 + 4 + 1, padded to a multiple of 4. -/
def fileSize : Nat := 552

/-- `sizeof(fs_file_info_t)`: 256 + 4 + 1 + 1, padded to a multiple of 4. -/
def infoSize : Nat := 264

/-- The bytes of a `ramfs_file_t`. -/
def fileByte (f : RamfsFile) (j : Nat) : UInt8 :=
  if j < 32 then f.name.getD j 0
  else if j < 544 then f.data (j - 32)
  else if j < 548 then byteOf f.size (j - 544)
  else if j = 548 then (if f.used then 1 else 0)
  else 0

/-- The memory from `files` on. -/
def memory (s : State) (a : Nat) : UInt8 :=
  match s.files[a / fileSize]? with
  | some f => fileByte f (a % fileSize)
  | none => 0

/-- The fields of `fs_file_info_t` that a listing shows. -/
structure FileInfo where
  name : List UInt8
  size : Nat
  used : UInt8

/-- Record `i` of the array that `ramfs_list_adapter` returns. -/
def record (s : State) (i : Nat) : FileInfo where
  name := (cstr ((List.range 256).map fun j => memory s (infoSize * i + j))).chars
  size := le32 (memory s (infoSize * i + 256)) (memory s (infoSize * i + 257))
    (memory s (infoSize * i + 258)) (memory s (infoSize * i + 259))
  used := memory s (infoSize * i + 260)

/-- The records of a listing: the first `count` that are flagged. -/
def fsList (s : State) : List FileInfo :=
  ((List.range s.fileCount.toNat).map (record s)).filter (·.used ≠ 0)

/-- The name and the size of every file. -/
def storedFiles (s : State) : List (List UInt8 × Nat) :=
  (s.files.filter (·.used)).map fun f => ((cstr f.name).chars, f.size)

/-- The listing has one record for each file, and no other. -/
def ShowsFiles (s : State) : Prop :=
  ((fsList s).map fun r => (r.name, r.size)).Perm (storedFiles s)

/-! ## The states that are reached -/

/-- The bytes behind the contents are 0, a free slot is empty, and the name is terminated. -/
structure Clean (f : RamfsFile) : Prop where
  rest : ∀ j, f.size ≤ j → f.data j = 0
  free : f.used = false → f.size = 0
  named : ∃ name, f.name = storedName name

structure Sane (s : State) : Prop where
  slots : s.files.length = maxFiles
  clean : ∀ f ∈ s.files, Clean f
  count : s.fileCount = s.files.countP (·.used)

theorem clean_blank : Clean blank := ⟨fun _ _ => rfl, fun _ => rfl, ⟨[], List.not_mem_nil⟩, rfl⟩

theorem stored_rest {old : Nat → UInt8} (hold : ∀ j, old j = 0) (data : List UInt8) {j : Nat}
    (hj : data.length ≤ j) : stored old data j = 0 := by
  rw [stored, if_neg (Nat.not_lt.mpr hj)]
  split
  · rfl
  · exact hold j

theorem init_sane : Sane init := by
  refine ⟨rfl, fun f hf => ?_, by decide⟩
  rw [List.eq_of_mem_replicate hf]
  exact clean_blank

/-- One slot replaced. -/
theorem Sane.replace {a b : List RamfsFile} {f f' : RamfsFile} (h : Sane s)
    (hfiles : s.files = a ++ f :: b) (hf' : Clean f') {count : Int}
    (hcount : count = s.fileCount + (if f'.used then 1 else 0) - (if f.used then 1 else 0)) :
    Sane ⟨a ++ f' :: b, count⟩ := by
  have hold := h.count
  rw [hfiles, List.countP_append, List.countP_cons] at hold
  have hslots := h.slots
  rw [hfiles, List.length_append] at hslots
  refine ⟨(List.length_append ..).trans hslots, fun g hg => ?_, ?_⟩
  · have hclean := h.clean
    rw [hfiles] at hclean
    rcases List.mem_append.mp hg with hg | hg
    · exact hclean g (List.mem_append_left _ hg)
    · rcases List.mem_cons.mp hg with rfl | hg
      · exact hf'
      · exact hclean g (List.mem_append_right _ (List.mem_cons_of_mem _ hg))
  · dsimp only
    rw [List.countP_append, List.countP_cons, hcount, hold]
    cases f.used <;> cases f'.used <;> simp <;> omega

theorem Sane.create (h : Sane s) (name : CString) (data : List UInt8) :
    Sane (ramfsCreate s name data).1 := by
  rw [ramfsCreate]
  split
  · exact h
  cases hover : updateFirst (isNamed name)
      (fun f => { f with data := stored (fun _ => 0) data, size := data.length }) s.files with
  | some files =>
    obtain ⟨a, f, b, hfiles, hf, rfl⟩ := updateFirst_some hover
    have hused : f.used := (Bool.and_eq_true_iff.mp hf).1
    refine h.replace hfiles ⟨fun j hj => stored_rest (fun _ => rfl) data hj, fun hu => ?_,
      ?_⟩ ?_
    · exact absurd (hused.symm.trans hu) (by simp)
    · exact (h.clean f (by rw [hfiles]; simp)).named
    · dsimp only
      omega
  | none =>
    dsimp only
    cases hfill : updateFirst (fun f => !f.used)
        (fun f => ⟨storedName name, stored f.data data, data.length, true⟩) s.files with
    | none => exact h
    | some files =>
      obtain ⟨a, f, b, hfiles, hf, rfl⟩ := updateFirst_some hfill
      have hfree : f.used = false := by simpa using hf
      have hclean : Clean f := h.clean f (by rw [hfiles]; simp)
      have hzero : ∀ j, f.data j = 0 := fun j =>
        hclean.rest j ((hclean.free hfree).symm ▸ Nat.zero_le j)
      refine h.replace hfiles ⟨fun j hj => stored_rest hzero data hj,
        fun hu => absurd hu (by simp), name, rfl⟩ ?_
      rw [hfree, if_pos rfl, if_neg (by simp), Int.sub_zero]

theorem Sane.delete (h : Sane s) (name : CString) : Sane (ramfsDelete s name).1 := by
  rw [ramfsDelete]
  cases hdel : updateFirst (isNamed name) (fun _ => blank) s.files with
  | none => exact h
  | some files =>
    obtain ⟨a, f, b, hfiles, hf, rfl⟩ := updateFirst_some hdel
    have hused : f.used := (Bool.and_eq_true_iff.mp hf).1
    refine h.replace hfiles clean_blank ?_
    rw [hused, if_pos rfl, if_neg (by decide)]
    omega

theorem Sane.step {s' : State} {l : Label} (h : Sane s) (hs : Ramfs.step s l = some s') :
    Sane s' := by
  cases l with
  | read name maxSize => exact Option.some.inj hs ▸ h
  | create name data ok =>
    rw [Ramfs.step] at hs
    split at hs
    · exact Option.some.inj hs ▸ h.create name data
    · cases hs
  | delete name ok =>
    rw [Ramfs.step] at hs
    split at hs
    · exact Option.some.inj hs ▸ h.delete name
    · cases hs

theorem sane_run {ls : List Label} (hrun : Steps step Any init ls s) : Sane s :=
  hrun.invariant (fun _ _ _ h _ hs => h.step hs) init_sane

/-! ## What the records are made of -/

/-- The index, in the contents of slot `i / 2`, of the byte that is the flag of record `i`. -/
def flagIndex (i : Nat) : Nat := (if i % 2 = 0 then 228 else 492) - 24 * (i / 2)

/-- The byte of slot `(i - 1) / 2` at which record `i` starts. -/
def nameStart (i : Nat) : Nat := 264 * i - 552 * ((i - 1) / 2)

/-- From byte `start` of a slot on stand a name and its terminator. -/
def Spells (f : RamfsFile) (start : Nat) (name : List UInt8) : Prop :=
  ∀ j ≤ name.length, fileByte f (start + j) = name.getD j 0

/-- The slots forge record `i` for the file `f`: its name stands where the record starts, and
    in the contents of slot `i / 2` its size and behind it a byte other than 0. -/
structure Forges (s : State) (i : Nat) (f : RamfsFile) : Prop where
  name : ∃ g, s.files[(i - 1) / 2]? = some g ∧ Spells g (nameStart i) (cstr f.name).chars
  size : ∃ g, s.files[i / 2]? = some g ∧ g.data (flagIndex i) ≠ 0 ∧
    le32 (g.data (flagIndex i - 4)) (g.data (flagIndex i - 3)) (g.data (flagIndex i - 2))
      (g.data (flagIndex i - 1)) = f.size

/-- There are files, and in some order the records are forged for them. -/
def Forged (s : State) : Prop := 0 < s.fileCount ∧ ∃ order : List RamfsFile,
  order.Perm (s.files.filter (·.used)) ∧ ∀ i f, order[i]? = some f → Forges s i f

section Bytes

variable {i j : Nat} {f : RamfsFile}

theorem memory_slot (hj : j < fileSize) (hf : s.files[i]? = some f) :
    memory s (fileSize * i + j) = fileByte f j := by
  rw [memory, Nat.mul_add_div (by decide), Nat.div_eq_of_lt hj, Nat.add_zero, hf]
  dsimp only
  rw [Nat.mul_add_mod, Nat.mod_eq_of_lt hj]

/-- **Size and flag of a record are bytes of a file's contents.** -/
theorem memory_contents (hi : i < maxFiles) (hj : j ≤ 4) (hf : s.files[i / 2]? = some f) :
    memory s (infoSize * i + (256 + j)) = f.data (flagIndex i - (4 - j)) := by
  have hmax : maxFiles = 16 := rfl
  have hpos : infoSize * i + (256 + j) = fileSize * (i / 2) + (32 + (flagIndex i - (4 - j))) ∧
      flagIndex i < 512 := by
    rw [flagIndex, infoSize, fileSize]
    split <;> omega
  rw [hpos.1, memory_slot (by rw [fileSize]; omega) hf, fileByte, if_neg (by omega),
    if_pos (by omega), Nat.add_sub_cancel_left]

/-- A record starts in the slot before the one that has its size. -/
theorem memory_name (hi : i < maxFiles) (hj : nameStart i + j < fileSize)
    (hf : s.files[(i - 1) / 2]? = some f) :
    memory s (infoSize * i + j) = fileByte f (nameStart i + j) := by
  have hmax : maxFiles = 16 := rfl
  rw [← memory_slot hj hf, nameStart, infoSize, fileSize]
  congr 1
  omega

/-- A name ends before the first 0. -/
theorem length_le_of_spelled {b : Nat → UInt8} {name : CString}
    (h : ∀ j ≤ name.chars.length, b j = name.chars.getD j 0) (hj : b j = 0) :
    name.chars.length ≤ j := by
  by_contra hlt
  have hmem := h j (by omega)
  rw [hj, List.getD_eq_getElem?_getD, List.getElem?_eq_getElem (by omega), Option.getD_some] at hmem
  exact name.noNul (hmem ▸ List.getElem_mem _)

/-- The name of a record is what its slot spells: the padding of a slot ends every name. -/
theorem record_name_iff (hi : i < maxFiles) (hf : s.files[(i - 1) / 2]? = some f)
    {name : CString} (hlen : name.chars.length < 256) :
    (record s i).name = name.chars ↔ Spells f (nameStart i) name.chars := by
  have hstart : nameStart i < 549 := by
    rw [nameStart]
    have hmax : maxFiles = 16 := rfl
    omega
  have hpad : fileByte f (nameStart i + (549 - nameStart i)) = 0 := by
    rw [Nat.add_sub_cancel' (by omega)]
    rfl
  have heq : ∀ j ≤ 549 - nameStart i,
      memory s (infoSize * i + j) = fileByte f (nameStart i + j) := fun j hj =>
    memory_name hi (by rw [fileSize]; omega) hf
  have hbytes : ∀ j ≤ name.chars.length,
      ((List.range 256).map fun j => memory s (infoSize * i + j)).getD j 0 =
        memory s (infoSize * i + j) := fun j hj => by
    rw [List.getD_eq_getElem?_getD, List.getElem?_map, List.getElem?_range (by omega)]
    rfl
  rw [record, cstr_eq_iff name.noNul, forall₂_congr fun j hj => by rw [hbytes j hj]]
  constructor
  · intro h j hj
    have hend := length_le_of_spelled h ((heq _ le_rfl).trans hpad)
    rw [← heq j (by omega), h j hj]
  · intro h j hj
    have hend := length_le_of_spelled h hpad
    rw [heq j (by omega), h j hj]

/-- A stored name has at most 31 characters. -/
theorem Clean.length_name (h : Clean f) : (cstr f.name).chars.length < 32 := by
  obtain ⟨name, hname⟩ := h.named
  rw [hname, storedName, cstr_strncpy name.noNul]
  exact Nat.lt_succ_of_le (List.length_take_le _ _)

/-- A slot spells its own name. -/
theorem spells_own (h : Clean f) : Spells f (nameStart 0) (cstr f.name).chars := by
  intro j hj
  have hlen := h.length_name
  rw [← (cstr_eq_iff (cstr f.name).noNul).mp rfl j hj, fileByte, if_pos (by rw [nameStart]; omega)]
  simp [nameStart]

end Bytes

section Sane

variable (h : Sane s)

include h

theorem length_storedFiles : (storedFiles s).length = s.fileCount.toNat := by
  rw [storedFiles, List.length_map, ← List.countP_eq_length_filter, h.count, Int.toNat_natCast]

theorem Sane.slot {i k : Nat} (hi : i < s.fileCount.toNat) (hk : k ≤ i) :
    i < maxFiles ∧ ∃ f ∈ s.files, s.files[k]? = some f := by
  have hcount : s.fileCount.toNat ≤ s.files.length := by
    rw [h.count, Int.toNat_natCast]
    exact List.countP_le_length
  have hlt : k < s.files.length := by omega
  rw [h.slots] at hcount
  exact ⟨by omega, s.files[k], List.getElem_mem hlt, List.getElem?_eq_getElem hlt⟩

/-- The condition on the bytes is what it takes to show `f` in record `i`. -/
theorem forges_iff {i : Nat} (hi : i < s.fileCount.toNat) {f : RamfsFile} (hf : f ∈ s.files) :
    Forges s i f ↔ (record s i).used ≠ 0 ∧ (record s i).name = (cstr f.name).chars ∧
      (record s i).size = f.size := by
  obtain ⟨hmax, g, -, hg⟩ := h.slot hi (k := (i - 1) / 2) (by omega)
  obtain ⟨-, g', -, hg'⟩ := h.slot hi (k := i / 2) (by omega)
  have hused : (record s i).used = g'.data (flagIndex i) := memory_contents hmax le_rfl hg'
  have hsize : (record s i).size = le32 (g'.data (flagIndex i - 4)) (g'.data (flagIndex i - 3))
      (g'.data (flagIndex i - 2)) (g'.data (flagIndex i - 1)) := by
    rw [← memory_contents (j := 0) hmax (by decide) hg',
      ← memory_contents (j := 1) hmax (by decide) hg',
      ← memory_contents (j := 2) hmax (by decide) hg',
      ← memory_contents (j := 3) hmax (by decide) hg']
    rfl
  have hlen := (h.clean f hf).length_name
  rw [hused, hsize, record_name_iff hmax hg (by omega)]
  constructor
  · rintro ⟨⟨a, ha, hname⟩, b, hb, hflag, hle⟩
    cases ha.symm.trans hg
    cases hb.symm.trans hg'
    exact ⟨hflag, hname, hle⟩
  · rintro ⟨hflag, hname, hle⟩
    exact ⟨⟨g, hg, hname⟩, g', hg', hflag, hle⟩

/-- The file of which record 0 has its flag. -/
theorem Sane.used_of_flag {f : RamfsFile} {j : Nat} (hf : s.files[0]? = some f) (hj : f.data j ≠ 0)
    : f.used ∧ j < f.size := by
  have hclean := h.clean f (List.mem_of_getElem? hf)
  have hsize : j < f.size := by
    by_contra hle
    exact hj (hclean.rest j (Nat.not_lt.mp hle))
  refine ⟨?_, hsize⟩
  by_contra hu
  have := hclean.free (Bool.not_eq_true _ ▸ hu)
  omega

/-- The listing shows the files if its records are forged, in any order. -/
theorem showsFiles_iff (hpos : 0 < s.fileCount) : ShowsFiles s ↔ Forged s := by
  have hlen : (s.files.filter (·.used)).length = s.fileCount.toNat := by
    rw [← length_storedFiles h, storedFiles, List.length_map]
  have hkey := congrFun (congrFun (List.eq_map_comp_perm fun f : RamfsFile =>
    ((cstr f.name).chars, f.size)) ((fsList s).map fun r => (r.name, r.size)))
    (s.files.filter (·.used))
  have hself : fsList s = (List.range s.fileCount.toNat).map (record s) ↔
      ∀ i < s.fileCount.toNat, (record s i).used ≠ 0 := by
    simp [fsList, List.filter_eq_self]
  rw [ShowsFiles, storedFiles, ← hkey]
  constructor
  · rintro ⟨order, hmap, hp⟩
    -- there are as many files as records, so none is filtered out
    have hall : fsList s = (List.range s.fileCount.toNat).map (record s) := by
      refine List.filter_sublist.eq_of_length ?_
      have := congrArg List.length hmap
      rw [List.length_map, List.length_map, hp.length_eq, hlen] at this
      rw [List.length_map, List.length_range]
      exact this
    refine ⟨hpos, order, hp, fun i f hi => ?_⟩
    obtain ⟨hlt, rfl⟩ := List.getElem?_eq_some_iff.mp hi
    have hi' : i < s.fileCount.toNat := by rwa [← hlen, ← hp.length_eq]
    refine (forges_iff h hi' (List.mem_of_mem_filter (hp.mem_iff.mp (List.getElem_mem hlt)))).mpr
      ⟨hself.mp hall i hi', ?_⟩
    have hrec := congrArg (·[i]?) hmap
    simpa [hall, hi, hi'] using hrec
  · rintro ⟨-, order, hp, hforges⟩
    have hat : ∀ i (hi : i < s.fileCount.toNat), ∃ hi' : i < order.length,
        (record s i).used ≠ 0 ∧ (record s i).name = (cstr order[i].name).chars ∧
          (record s i).size = order[i].size := fun i hi => by
      have hi' : i < order.length := by rwa [hp.length_eq, hlen]
      exact ⟨hi', (forges_iff h hi (List.mem_of_mem_filter
        (hp.mem_iff.mp (List.getElem_mem hi')))).mp (hforges i _ (List.getElem?_eq_getElem hi'))⟩
    refine ⟨order, ?_, hp⟩
    rw [hself.mpr fun i hi => (hat i hi).2.1]
    refine List.ext_getElem ?_ fun i hi hi' => ?_
    · simp [hp.length_eq, hlen]
    · simpa using (hat i (by simpa using hi)).2.2

/-- The file in slot 0 is the one whose contents have the flag of record 0. -/
theorem Forged.slot (hf : Forged s) : ∃ f, s.files[0]? = some f ∧ f.used ∧ 228 < f.size := by
  obtain ⟨hpos, order, hp, hforges⟩ := hf
  have hlt : 0 < order.length := by
    rw [hp.length_eq, ← List.length_map, ← storedFiles, length_storedFiles h]
    omega
  obtain ⟨g, hg, hflag, -⟩ := (hforges 0 _ (List.getElem?_eq_getElem hlt)).size
  exact ⟨g, hg, h.used_of_flag hg hflag⟩

/-- One file: it is in slot 0, with its size and a flag in its contents. -/
theorem forged_one_iff (hone : s.fileCount = 1) :
    Forged s ↔ ∃ f, s.files[0]? = some f ∧ f.data 228 ≠ 0 ∧
      le32 (f.data 224) (f.data 225) (f.data 226) (f.data 227) = f.size := by
  have hlen := length_storedFiles h
  rw [storedFiles, List.length_map, hone] at hlen
  obtain ⟨f, hfilter⟩ := List.length_eq_one_iff.mp hlen
  have honly : ∀ g, s.files[0]? = some g → g.data 228 ≠ 0 → g = f := fun g hg hflag => by
    have hmem : g ∈ s.files.filter (·.used) :=
      List.mem_filter.mpr ⟨List.mem_of_getElem? hg, (h.used_of_flag hg hflag).1⟩
    rwa [hfilter, List.mem_singleton] at hmem
  rw [Forged, hfilter]
  constructor
  · rintro ⟨-, order, hp, hforges⟩
    obtain rfl := List.perm_singleton.mp hp
    obtain ⟨g, hg, hflag, hsize⟩ := (hforges 0 f rfl).size
    obtain rfl := honly g hg hflag
    exact ⟨g, hg, hflag, hsize⟩
  · rintro ⟨g, hg, hflag, hsize⟩
    obtain rfl := honly g hg hflag
    refine ⟨by rw [hone]; decide, [g], .refl _, fun i f hi => ?_⟩
    cases i with
    | zero =>
      cases hi
      exact ⟨⟨g, hg, spells_own (h.clean g (List.mem_of_getElem? hg))⟩, g, hg, hflag, hsize⟩
    | succ i => cases hi

end Sane

/-- **When the listing shows the files**: in a reachable state it does so exactly if there is
    no file, or the slots forge the records, for which the file in slot 0 must have more than
    228 bytes.  A single file must be in slot 0, with its size in bytes 224 to 227 of its
    contents and a byte other than 0 behind them. -/
theorem showsFiles_reachable_iff {ls : List Label} {s : State} (hrun : Steps step Any init ls s) :
    (ShowsFiles s ↔ s.fileCount = 0 ∨ Forged s) ∧
    (Forged s → ∃ f, s.files[0]? = some f ∧ f.used ∧ 228 < f.size) ∧
    (s.fileCount = 1 → (Forged s ↔ ∃ f, s.files[0]? = some f ∧ f.data 228 ≠ 0 ∧
      le32 (f.data 224) (f.data 225) (f.data 226) (f.data 227) = f.size)) := by
  have h := sane_run hrun
  refine ⟨?_, Forged.slot h, forged_one_iff h⟩
  rcases Int.lt_or_eq_of_le (h.count ▸ Int.natCast_nonneg _) with hpos | hzero
  · rw [showsFiles_iff h hpos, or_iff_right (Int.ne_of_gt hpos)]
  · have hnil : storedFiles s = [] := by
      rw [← List.length_eq_zero_iff, length_storedFiles h, ← hzero]
      rfl
    refine ⟨fun _ => .inl hzero.symm, fun _ => ?_⟩
    rw [ShowsFiles, fsList, hnil, ← hzero]
    exact .nil

/-- The file `log` with three bytes. -/
def oneFile : List Label := [.create log [1, 2, 3] true]

/-- 229 bytes that hold their own number and a flag. -/
def forgedFile : List Label := [.create log (List.replicate 224 0 ++ [229, 0, 0, 0, 1]) true]

/-- **One short file is not shown**: the flag of record 0 is byte 228 of its contents. -/
theorem short_file_hidden :
    ∃ s, Steps step Any init oneFile s ∧ storedFiles s = [(log.chars, 3)] ∧ ¬ ShowsFiles s := by
  have hrun : (runWhile step Any init oneFile).map
      (fun s => (storedFiles s, s.fileCount, (s.files[0]?).map (·.size))) =
        some ([(log.chars, 3)], 1, some 3) := by decide
  obtain ⟨s, hs, heq⟩ := Option.map_eq_some_iff.mp hrun
  obtain ⟨hstored, hcount, hsize⟩ : storedFiles s = [(log.chars, 3)] ∧ s.fileCount = 1 ∧
      (s.files[0]?).map (·.size) = some 3 := by simpa using heq
  have hsane := sane_run (steps_of_runWhile hs)
  refine ⟨s, steps_of_runWhile hs, hstored, fun hshow => ?_⟩
  obtain ⟨f, hf, -, hlarge⟩ := ((showsFiles_iff hsane (by rw [hcount]; decide)).mp hshow).slot hsane
  rw [hf, Option.map_some, Option.some.injEq] at hsize
  omega

/-- Nothing is shown after the file is deleted; a file that forges its record is shown. -/
theorem showsFiles_log :
    (∃ s, Steps step Any init (oneFile ++ [.delete log true]) s ∧ ShowsFiles s) ∧
    ∃ s, Steps step Any init forgedFile s ∧ storedFiles s = [(log.chars, 229)] ∧ ShowsFiles s := by
  have hnone : (runWhile step Any init (oneFile ++ [.delete log true])).map (·.fileCount) =
      some 0 := by decide
  have hone : (runWhile step Any init forgedFile).map (fun s => (storedFiles s, s.fileCount,
      (s.files[0]?).map fun f => (f.data 228, le32 (f.data 224) (f.data 225) (f.data 226)
        (f.data 227), f.size))) = some ([(log.chars, 229)], 1, some (1, 229, 229)) := by
    decide +kernel
  constructor
  · obtain ⟨s, hs, hcount⟩ := Option.map_eq_some_iff.mp hnone
    have hsteps := steps_of_runWhile hs
    exact ⟨s, hsteps, (showsFiles_reachable_iff hsteps).1.mpr (.inl hcount)⟩
  · obtain ⟨s, hs, heq⟩ := Option.map_eq_some_iff.mp hone
    simp only [Prod.mk.injEq, Option.map_eq_some_iff] at heq
    obtain ⟨hstored, hcount, f, hf, hflag, hsize, hown⟩ := heq
    have hsteps := steps_of_runWhile hs
    obtain ⟨hshows, -, hforged⟩ := showsFiles_reachable_iff hsteps
    refine ⟨s, hsteps, hstored, hshows.mpr (.inr ((hforged hcount).mpr ⟨f, hf, ?_, ?_⟩))⟩
    · rw [hflag]
      decide
    · rw [hsize, hown]

end RamfsListing
