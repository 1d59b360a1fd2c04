import AoOs.LoaderPlan

/-! # ELF reads — the loader and the end of the file

    `elf_spawn` compares `phoff + phnum * phentsize` and `offset + filesz` with the
    size of the file, in 64 bits.  A sum that wraps passes the comparison, and then
    a program header or a segment is read outside the file.  In every other case
    all reads are inside (`elfSpawn_readsInside_iff`). -/

namespace ElfReads

open ProcessMemory Isolation Loader FramePlan

variable {i : Nat}

variable {f : Image} {P P' : Plan}

/-- A read of the buffer within the file. -/
def Inside (f : Image) (x : Access) : Prop := x.start.toNat + x.len.toNat ≤ f.size.toNat

instance (f : Image) (x : Access) : Decidable (Inside f x) :=
  inferInstanceAs (Decidable (_ ≤ _))

/-- The read of a program header, and the copy of its segment. -/
def headerRead (f : Image) (i : Nat) : Access := ⟨phdrStart f i, BitVec.ofNat 64 elfPhdrSize⟩
def copyRead (f : Image) (i : Nat) : Access := ⟨(phdr f i).offset, (phdr f i).filesz⟩

/-! ## Which reads are made -/

/-- The copy of a segment is read when it and all before it have been mapped. -/
theorem copyRead_mem {pre post : List Nat} (htype : (phdr f i).type = ptLoad)
    (h : (planSegments f (pre ++ [i]) P).isSome) :
    copyRead f i ∈ planReads f (pre ++ i :: post) P := by
  induction pre generalizing P with
  | nil =>
    rw [List.nil_append, planSegments, if_neg (not_not.mpr htype)] at h
    rw [List.nil_append, planReads, if_neg (not_not.mpr htype)]
    refine List.mem_cons_of_mem _ ?_
    split at h
    · cases h
    · rename_i hok
      rw [if_neg hok]
      obtain ⟨P', hP⟩ := Option.isSome_iff_exists.mp h
      obtain ⟨P₁, h₁, -⟩ := Option.bind_eq_some_iff.mp hP
      rw [h₁]
      exact List.mem_cons_self
  | cons j pre ih =>
    rw [List.cons_append, planSegments] at h
    rw [List.cons_append, planReads]
    refine List.mem_cons_of_mem _ ?_
    split at h
    · rename_i hne
      rw [if_pos hne]
      exact ih h
    · rename_i hne
      rw [if_neg hne]
      split at h
      · cases h
      · rename_i hok
        rw [if_neg hok]
        obtain ⟨P', hP⟩ := Option.isSome_iff_exists.mp h
        obtain ⟨P₁, h₁, hrest⟩ := Option.bind_eq_some_iff.mp hP
        rw [h₁]
        exact List.mem_cons_of_mem _ (ih (Option.isSome_iff_exists.mpr ⟨P', hrest⟩))

/-- Nothing else is read. -/
theorem planReads_cases {is : List Nat} {x : Access} (h : x ∈ planReads f is P) :
    (∃ i ∈ is, x = headerRead f i) ∨
      ∃ pre i post, is = pre ++ i :: post ∧ (phdr f i).type = ptLoad ∧
        segmentOk f (phdr f i) ∧ (planSegments f (pre ++ [i]) P).isSome ∧
        x = copyRead f i := by
  induction is generalizing P with
  | nil => cases h
  | cons j is ih =>
    -- what is found behind the first header is found again in the whole list
    have hlater : ∀ {P₁ : Plan}, x ∈ planReads f is P₁ →
        (∀ pre, planSegments f (j :: pre) P = planSegments f pre P₁) →
        (∃ i ∈ j :: is, x = headerRead f i) ∨
          ∃ pre i post, j :: is = pre ++ i :: post ∧ (phdr f i).type = ptLoad ∧
            segmentOk f (phdr f i) ∧ (planSegments f (pre ++ [i]) P).isSome ∧
            x = copyRead f i := by
      intro P₁ hx hplan
      rcases ih hx with ⟨i, hi, hxi⟩ | ⟨pre, i, post, rfl, htype, hok, hsome, hxi⟩
      · exact .inl ⟨i, List.mem_cons_of_mem j hi, hxi⟩
      · exact .inr ⟨j :: pre, i, post, rfl, htype, hok, by
          rw [List.cons_append, hplan]; exact hsome, hxi⟩
    rw [planReads, List.mem_cons] at h
    rcases h with rfl | h
    · exact .inl ⟨j, List.mem_cons_self, rfl⟩
    · split at h
      · rename_i hne
        exact hlater h fun pre => by rw [planSegments, if_pos hne]
      · rename_i hne
        split at h
        · cases h
        · rename_i hok
          split at h
          · cases h
          · rename_i P₁ h₁
            rcases List.mem_cons.mp h with rfl | h
            · refine .inr ⟨[], j, is, rfl, not_not.mp hne, by simpa using hok, ?_, rfl⟩
              rw [List.nil_append, planSegments, if_neg hne, if_neg hok, h₁]
              rfl
            · exact hlater h fun pre => by
                rw [planSegments, if_neg hne, if_neg hok, h₁, Option.bind_some]

/-- A number within a range, with all numbers before it. -/
theorem range_split {n : Nat} {pre post : List Nat} (h : List.range n = pre ++ i :: post) :
    pre = List.range i ∧ i < n := by
  have hlen : pre.length < n := by
    have := congrArg List.length h
    rw [List.length_range, List.length_append, List.length_cons] at this
    omega
  have hi : i = pre.length := by
    have hget : (List.range n)[pre.length]? = some i := by rw [h]; simp
    rw [List.getElem?_range hlen] at hget
    exact (Option.some.inj hget).symm
  have hpre : pre = (List.range n).take pre.length := by rw [h, List.take_left]
  rw [List.take_range, Nat.min_eq_left (Nat.le_of_lt hlen)] at hpre
  exact ⟨hi ▸ hpre, hi ▸ hlen⟩

theorem range_at {n : Nat} (h : i < n) : ∃ post, List.range n = List.range i ++ i :: post := by
  refine ⟨(List.range n).drop (i + 1), ?_⟩
  have htake : List.range i = (List.range n).take i := by
    rw [List.take_range, Nat.min_eq_left (Nat.le_of_lt h)]
  have hdrop := List.drop_eq_getElem_cons (l := List.range n) (i := i) (by rwa [List.length_range])
  rw [List.getElem_range] at hdrop
  rw [htake, ← hdrop, List.take_append_drop]

/-! ## Reads inside the file -/

/-- What the checks on the header ensure. -/
theorem checkHeader_none (h : checkHeader f = none) : f.size.toNat ≤ 131072 ∧ 0 < (phnum f).toNat ∧
      ((phoff f).toNat + (phnum f).toNat * elfPhdrSize) % 2 ^ 64 ≤ f.size.toNat := by
  rw [checkHeader] at h
  split at h
  · cases h
  rename_i hsize
  split at h
  · cases h
  split at h
  · cases h
  rename_i hph
  split at h
  · cases h
  rename_i hend
  simp only [elfLoadBufferSize, not_or, not_not] at hsize hph
  have hnum := (phnum f).isLt
  have hpos : (phnum f).toNat ≠ 0 := fun h0 => hph.2 (BitVec.eq_of_toNat_eq h0)
  have hent := hph.1
  simp only [elfPhdrSize] at hent ⊢
  have hfile := f.size.isLt
  rw [BitVec.lt_def, BitVec.toNat_add, BitVec.toNat_mul, BitVec.toNat_setWidth,
    BitVec.toNat_setWidth, BitVec.toNat_setWidth, hent] at hend
  exact ⟨by omega, by omega, by omega⟩

/-- No sum of the loader's checks wraps: not that of the headers, and not that of
    a segment that is mapped along with all before it. -/
def SumsFit (f : Image) (P : Plan) : Prop :=
  (phoff f).toNat + (phnum f).toNat * elfPhdrSize < 2 ^ 64 ∧
    ∀ n < (phnum f).toNat, (phdr f n).type = ptLoad →
      (planSegments f (List.range (n + 1)) P).isSome →
      (phdr f n).offset.toNat + (phdr f n).filesz.toNat < 2 ^ 64

/-- The file is rejected by its header, no process can be created for it, or no
    sum wraps. -/
def NoWrap (f : Image) (s : PSys) : Prop :=
  checkHeader f = none → ∀ i P, planCreate s = some (i, P) → SumsFit f P

theorem headerRead_inside (h : checkHeader f = none)
    (hwrap : (phoff f).toNat + (phnum f).toNat * elfPhdrSize < 2 ^ 64) (hi : i < (phnum f).toNat) :
    Inside f (headerRead f i) := by
  obtain ⟨-, -, hend⟩ := checkHeader_none h
  simp only [Inside, headerRead, phdrStart, elfPhdrSize, BitVec.toNat_add, BitVec.toNat_ofNat]
    at hwrap hend ⊢
  omega

/-- A header that is read inside the file has not been reached by wrapping. -/
theorem noWrap_of_headerRead (h : checkHeader f = none) (hin : Inside f (headerRead f 0)) :
    (phoff f).toNat + (phnum f).toNat * elfPhdrSize < 2 ^ 64 := by
  obtain ⟨hsize, -, -⟩ := checkHeader_none h
  have hnum := (phnum f).isLt
  simp only [Inside, headerRead, phdrStart, elfPhdrSize, Nat.zero_mul, BitVec.toNat_ofNat,
    BitVec.toNat_add] at hin ⊢
  omega

theorem copyRead_inside (hok : segmentOk f (phdr f i))
    (hwrap : (phdr f i).offset.toNat + (phdr f i).filesz.toNat < 2 ^ 64) :
    Inside f (copyRead f i) := by
  obtain ⟨-, hend, -⟩ := segmentOk_valid hok
  rw [BitVec.toNat_add, Nat.mod_eq_of_lt hwrap] at hend
  exact hend

/-- The planned reads. -/
theorem planReads_inside_iff (h : checkHeader f = none) (P : Plan) :
    (∀ x ∈ planReads f (List.range (phnum f).toNat) P, Inside f x) ↔ SumsFit f P := by
  constructor
  · intro hin
    constructor
    · obtain ⟨post, hrange⟩ := range_at (checkHeader_none h).2.1
      refine noWrap_of_headerRead h (hin _ ?_)
      rw [hrange, List.range_zero, List.nil_append, planReads]
      exact List.mem_cons_self
    · intro n hn htype hsome
      obtain ⟨post, hrange⟩ := range_at hn
      rw [List.range_succ] at hsome
      have hcopy : (phdr f n).offset.toNat + (phdr f n).filesz.toNat ≤ f.size.toNat :=
        hin (copyRead f n) (by rw [hrange]; exact copyRead_mem htype hsome)
      have hsize := f.size.isLt
      omega
  · rintro ⟨hwrap, hseg⟩ x hx
    rcases planReads_cases hx with ⟨i, hi, rfl⟩ | ⟨pre, i, post, hrange, htype, hok, hsome, rfl⟩
    · exact headerRead_inside h hwrap (List.mem_range.mp hi)
    · obtain ⟨rfl, hi⟩ := range_split hrange
      exact copyRead_inside hok (hseg i hi htype (by rwa [List.range_succ]))

/-- **Reads of the loader.**  In every state of the system `elf_spawn` comes back,
    and it has read inside the file exactly if none of its sums has wrapped. -/
theorem elfSpawn_readsInside_iff {s : PSys} (h : Inv s) (f : Image) (cmdline : List Byte)
    (background : Bool) : ∃ r reads s', elfSpawn f cmdline background s = some (r, reads, s') ∧
      ((∀ x ∈ reads, Inside f x) ↔ NoWrap f s) := by
  rw [elfSpawn]
  cases hcheck : checkHeader f with
  | some e =>
    refine ⟨_, _, _, rfl, iff_of_true nofun fun hnone => ?_⟩
    cases hcheck.symm.trans hnone
  | none =>
    obtain ⟨r, s₁, hcreate, hnx, hres⟩ := processCreate_follows h
    simp only [hcreate, Option.bind_some]
    rcases hres with ⟨rfl, hplan⟩ | ⟨i, P, rfl, hplan, hlive, huser, hF⟩
    · refine ⟨_, _, _, rfl, iff_of_true nofun fun _ i P hP => ?_⟩
      cases hplan.symm.trans hP
    · have hinv : Inv s₁ := h.create hcreate
      obtain ⟨l, hl, -, hreads, hcases⟩ := loadLoop_follows f s₁.nx
        (List.range (phnum f).toNat) hF hinv (spaces_live hlive) huser
      simp only [hl, Option.map_some]
      have hiff : (∀ x ∈ l.reads, Inside f x) ↔ NoWrap f s := by
        rw [hreads, planReads_inside_iff hcheck]
        refine ⟨fun hw _ j P' hP => ?_, fun hw => hw hcheck i P hplan⟩
        cases hplan.symm.trans hP
        exact hw
      cases l.error with
      | some e => exact ⟨_, _, _, rfl, hiff⟩
      | none => exact ⟨_, _, _, rfl, hiff⟩

/-! ## Files whose sums wrap -/

/-- The bytes of a little-endian number. -/
def leBytes (n : Nat) (v : Nat) : List Byte :=
  (List.range n).map fun i => BitVec.ofNat 8 (v / 256 ^ i)

/-- A file with nothing but zeroes around it in memory. -/
def imageOf (bytes : List Byte) : Image :=
  ⟨fun a => bytes.getD a.toNat 0#8, BitVec.ofNat 32 bytes.length⟩

/-- An ELF header with one program header. -/
def elfHeader (entry phoff : Nat) : List Byte :=
  leBytes 4 0x464C457F ++ [2#8, 1#8, 1#8] ++ List.replicate 9 0#8 ++
    leBytes 2 2 ++ leBytes 2 62 ++ leBytes 4 1 ++ leBytes 8 entry ++ leBytes 8 phoff ++
    leBytes 8 0 ++ leBytes 4 0 ++ leBytes 2 64 ++ leBytes 2 56 ++ leBytes 2 1 ++ leBytes 6 0

/-- A program header of a load segment. -/
def loadHeader (flags offset vaddr filesz memsz : Nat) : List Byte :=
  leBytes 4 1 ++ leBytes 4 flags ++ leBytes 8 offset ++ leBytes 8 vaddr ++ leBytes 8 vaddr ++
    leBytes 8 filesz ++ leBytes 8 memsz ++ leBytes 8 0x1000

/-- Its program header begins 56 bytes before the buffer. -/
def wrapsHeader : Image := imageOf (elfHeader 0x400000 (2 ^ 64 - 56))

/-- Its segment begins 16 bytes before the buffer. -/
def wrapsSegment : Image :=
  imageOf (elfHeader 0x400000 64 ++ loadHeader 6 (2 ^ 64 - 16) 0x400000 32 32)

/-- A load that succeeds, and something about its reads and the state after it, by
    evaluation. -/
theorem spawned_of_eval {β : Type} (f : Image) (g : List Access × PSys → β) {b : β} {s : PSys}
    (h : ((elfSpawn f [] false s).map fun r => (r.1.toOption, g r.2)) = some (some i, b)) :
    ∃ reads s', elfSpawn f [] false s = some (.ok i, reads, s') ∧ g (reads, s') = b := by
  obtain ⟨⟨r, reads, s'⟩, hr, hval⟩ := Option.map_eq_some_iff.mp h
  obtain ⟨hi, hb⟩ := Prod.mk.inj hval
  cases r with
  | error e => cases hi
  | ok j =>
    cases hi
    exact ⟨reads, s', hr, hb⟩

theorem reads_outside_of_eval {s : PSys} (h : ((elfSpawn f [] false s).map fun r =>
      (r.1.toOption, r.2.1.any fun x => !decide (Inside f x))) = some (some i, true)) :
    ∃ reads s', elfSpawn f [] false s = some (.ok i, reads, s') ∧ ∃ x ∈ reads, ¬ Inside f x := by
  obtain ⟨reads, s', hr, hany⟩ := spawned_of_eval f
    (fun r => r.1.any fun x => !decide (Inside f x)) h
  obtain ⟨x, hx, hout⟩ := List.any_eq_true.mp hany
  exact ⟨reads, s', hr, x, hx, by simpa using hout⟩

/-- **Reads before the buffer**: `elf_spawn` accepts both files, and has read the
    header of the one and the segment of the other outside the file. -/
theorem elfSpawn_reads_outside :
    (∃ reads s', elfSpawn wrapsHeader [] false bootSys = some (.ok 1, reads, s') ∧
      ∃ x ∈ reads, ¬ Inside wrapsHeader x) ∧
    ∃ reads s', elfSpawn wrapsSegment [] false bootSys = some (.ok 1, reads, s') ∧
      ∃ x ∈ reads, ¬ Inside wrapsSegment x :=
  ⟨reads_outside_of_eval (by decide +kernel), reads_outside_of_eval (by decide +kernel)⟩

/-- A file whose one segment is its own header. -/
def plainFile : Image := imageOf (elfHeader 0x400000 64 ++ loadHeader 5 0 0x400000 64 64)

theorem elfSpawn_plainFile :
    ∃ reads s', elfSpawn plainFile [] false bootSys = some (.ok 1, reads, s') := by
  obtain ⟨reads, s', hr, -⟩ := spawned_of_eval (s := bootSys) (i := 1) (b := ())
    plainFile (fun _ => ()) (by decide +kernel)
  exact ⟨reads, s', hr⟩

/-- At boot it is loaded, and read inside. -/
theorem elfSpawn_readsInside_boot : Inv bootSys ∧
    ∃ reads s', elfSpawn plainFile [] false bootSys = some (.ok 1, reads, s') ∧
      ∀ x ∈ reads, Inside plainFile x := by
  have hinv := Inv.of_init bootSys_init
  obtain ⟨reads, s', hr⟩ := elfSpawn_plainFile
  obtain ⟨_, _, _, hr', hiff⟩ := elfSpawn_readsInside_iff hinv plainFile [] false
  obtain ⟨rfl, rfl, rfl⟩ := Prod.mk.inj (Option.some.inj (hr.symm.trans hr')) |>.imp id Prod.mk.inj
  refine ⟨hinv, reads, s', hr, hiff.mpr fun _ i P _ => ⟨by decide +kernel, fun n hn _ _ => ?_⟩⟩
  have hnum : (phnum plainFile).toNat = 1 := by decide +kernel
  obtain rfl : n = 0 := by omega
  decide +kernel

end ElfReads
