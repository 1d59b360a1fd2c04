import AoOs.UserMemory

/-! # The program loaders — `elf.c` and `aob.c`

    A file has been read into a buffer; the loader checks it, creates a process,
    maps and fills its pages and makes it ready.  Text between the calls that can
    fail is the error the loader logs.

    A load is followed up to `process_activate` and `process_detach`: that a
    foreground load then waits for its process is a step of its own. -/

namespace Loader

open Paging Vmm ProcessMemory

/-- A buffer with a file in it: the byte at each distance from its start, in 64
    bits, and `file_size`.  Behind the file, and before the buffer, there is
    whatever memory holds there. -/
structure Image where
  byte : Word → Byte
  size : BitVec 32

namespace Image

def u16 (f : Image) (a : Word) : BitVec 16 := f.byte (a + 1) ++ f.byte a

def u32 (f : Image) (a : Word) : BitVec 32 := f.u16 (a + 2) ++ f.u16 a

def u64 (f : Image) (a : Word) : Word := f.u32 (a + 4) ++ f.u32 a

end Image

/-- A part of the buffer that is read: its start, and its length. -/
structure Access where
  start : Word
  len : Word

/-! ## ELF -/

/-- `ELF_LOAD_BUFFER_SIZE`. -/
def elfLoadBufferSize : Nat := 131072

/-- `sizeof(elf64_header_t)` and `sizeof(elf64_phdr_t)`. -/
def elfHeaderSize : Nat := 64
def elfPhdrSize : Nat := 56

/-- The fields of `elf64_header_t` that are used. -/
def entry (f : Image) : Word := f.u64 24#64
def phoff (f : Image) : Word := f.u64 32#64
def phentsize (f : Image) : BitVec 16 := f.u16 54#64
def phnum (f : Image) : BitVec 16 := f.u16 56#64

/-- The fields of `elf64_phdr_t` that are used. -/
structure Phdr where
  type : BitVec 32
  flags : BitVec 32
  offset : Word
  vaddr : Word
  filesz : Word
  memsz : Word

/-- The distance of `ph[i]` from the start of the buffer. -/
def phdrStart (f : Image) (i : Nat) : Word := phoff f + BitVec.ofNat 64 (i * elfPhdrSize)

/-- `ph[i]`. -/
def phdr (f : Image) (i : Nat) : Phdr :=
  let a := phdrStart f i
  { type := f.u32 a, flags := f.u32 (a + 4), offset := f.u64 (a + 8), vaddr := f.u64 (a + 16)
    filesz := f.u64 (a + 32), memsz := f.u64 (a + 40) }

def ptLoad : BitVec 32 := 1#32
def pfX : BitVec 32 := 1#32
def pfW : BitVec 32 := 2#32

/-- `page_up`. -/
def pageUp (v : Word) : Word := (v + 4095#64) &&& ~~~4095#64

/-- The addresses the loop of `map_range` goes through, from `page_down(start)` up
    to `page_up(end)`. -/
def rangePages (start stop : Word) : List Word :=
  (List.range (((pageUp stop).toNat - (pageOf start).toNat) / pageSize)).map fun i =>
    pageOf start + BitVec.ofNat 64 (i * pageSize)

/-- The page flags `map_range` gives to a segment. -/
def rangeFlags (nx : Bool) (phFlags : BitVec 32) : Word :=
  pteUser ||| (if phFlags &&& pfW ≠ 0#32 then pteWritable else 0#64) |||
    if phFlags &&& pfX = 0#32 ∧ nx then pteNx else 0#64

/-- `map_range`. -/
def mapRange (nx : Bool) (start stop : Word) (phFlags : BitVec 32) :
    UProc → KState → Option (Bool × UProc × KState) :=
  mapAll (rangeFlags nx phFlags) (rangePages start stop)

/-- `valid_user_range`. -/
def validUserRange (vaddr size : Word) : Bool :=
  if size = 0#64 then true
  else if vaddr < 0x10000#64 then false
  else if userStackBase ≤ vaddr then false
  else if vaddr + size < vaddr then false
  else if userStackBase < vaddr + size then false
  else if vaddr ≤ userApiBase + 4096#64 ∧ userApiBase < vaddr + size then false
  else if vaddr ≤ userArgvBase + 4096#64 ∧ userArgvBase < vaddr + size then false
  else true

/-- The checks of `elf_spawn` on the file and its header: the error, if there is
    one. -/
def checkHeader (f : Image) : Option String :=
  if f.size.toNat < elfHeaderSize ∨ elfLoadBufferSize < f.size.toNat then
    some "Invalid ELF file size"
  else if f.u32 0#64 ≠ 0x464C457F#32 ∨ f.byte 4#64 ≠ 2#8 ∨ f.byte 5#64 ≠ 1#8 ∨
      f.u16 16#64 ≠ 2#16 ∨ f.u16 18#64 ≠ 62#16 ∨ f.u32 20#64 ≠ 1#32 then
    some "Unsupported ELF executable"
  else if (phentsize f).toNat ≠ elfPhdrSize ∨ phnum f = 0#16 then
    some "ELF has invalid program headers"
  else if f.size.setWidth 64 < phoff f + (phnum f).setWidth 64 * (phentsize f).setWidth 64 then
    some "ELF program headers out of range"
  else if !validUserRange (entry f) 1#64 then
    some "ELF entry point outside user range"
  else none

/-- The check on a load segment. -/
def segmentOk (f : Image) (ph : Phdr) : Bool :=
  !(ph.memsz < ph.filesz || f.size.setWidth 64 < ph.offset + ph.filesz ||
    !validUserRange ph.vaddr ph.memsz)

/-- What a loop over the program headers leaves: the error, if there is one, the
    parts of the buffer that have been read, the process and the memory. -/
structure Loaded where
  error : Option String
  reads : List Access
  proc : UProc
  k : KState

/-- One load segment, mapped and filled. -/
def loadSegment (f : Image) (nx : Bool) (ph : Phdr) (p : UProc) (k : KState) : Option Loaded :=
  (mapRange nx ph.vaddr (ph.vaddr + ph.memsz) ph.flags p k).map fun (ok, p, k) =>
    if !ok then ⟨some "Failed to map ELF segment", [], p, k⟩
    else
      let src : Nat → Byte := fun j => f.byte (ph.offset + BitVec.ofNat 64 j)
      let reads := [⟨ph.offset, ph.filesz⟩]
      match processWriteUser p ph.vaddr src ph.filesz k with
      | (false, k) => ⟨some "Failed to map ELF segment", reads, p, k⟩
      | (true, k) =>
        match processZeroUser p (ph.vaddr + ph.filesz) (ph.memsz - ph.filesz) k with
        | (false, k) => ⟨some "Failed to map ELF segment", reads, p, k⟩
        | (true, k) => ⟨none, reads, p, k⟩

/-- The loop of `elf_spawn` over the program headers with the given numbers. -/
def loadLoop (f : Image) (nx : Bool) : List Nat → UProc → KState → Option Loaded
  | [], p, k => some ⟨none, [], p, k⟩
  | i :: is, p, k =>
    let ph := phdr f i
    let header : Access := ⟨phdrStart f i, BitVec.ofNat 64 elfPhdrSize⟩
    if ph.type ≠ ptLoad then
      (loadLoop f nx is p k).map fun r => { r with reads := header :: r.reads }
    else if !segmentOk f ph then some ⟨some "Invalid ELF load segment", [header], p, k⟩
    else
      (loadSegment f nx ph p k).bind fun r =>
        if r.error.isSome then some { r with reads := header :: r.reads }
        else
          (loadLoop f nx is r.proc r.k).map fun r' =>
            { r' with reads := header :: (r.reads ++ r'.reads) }

/-- The kernel API page: `api[8]` as it lies in memory. -/
def apiBytes (api : List Word) (j : Nat) : Byte := wordByte (api.getD (j / 8) 0#64) (j % 8)

/-- The end of both loaders: the API page, the arguments, and the process is made
    ready. -/
def finishSpawn (api : List Word) (cmdline : List Byte) (background : Bool) (i : Nat) (p : UProc)
    (k : KState) (s : PSys) : PSys :=
  let k := (processWriteUser p userApiBase (apiBytes api) 64#64 k).2
  let k := (processSetupUserArgs p cmdline k).2
  let s := processActivate ({ s with k := k }.setProc i p) p.pid
  if background then processDetach s p.pid else s

/-- `elf_spawn` on the buffer: the slot of the new process or the error, if
    `elf_spawn` logs one; and what has been read of the buffer behind the
    header. -/
def elfSpawn (f : Image) (cmdline : List Byte) (background : Bool) (s : PSys) :
    Option (Except (Option String) Nat × List Access × PSys) :=
  match checkHeader f with
  | some e => some (.error (some e), [], s)
  | none =>
    (processCreate s).bind fun
      | (none, s) => some (.error none, [], s)
      | (some i, s) =>
        (loadLoop f s.nx (List.range (phnum f).toNat) (s.procs i) s.k).map fun r =>
          match r.error with
          | some e =>
            let s := { s with k := r.k }.setProc i r.proc
            (.error (some e), r.reads, processWait (processTerminate s r.proc.pid) r.proc.pid)
          | none =>
            (.ok i, r.reads, finishSpawn [0x414F4150#64] cmdline background i r.proc r.k s)

/-! ## AOB -/

/-- `sizeof(aob_header_t)`. -/
def aobHeaderSize : Nat := 72

/-- `aob_context_t`: the code lies behind the header in the buffer. -/
structure AobContext where
  image : Image
  codeSize : BitVec 32
  entryPoint : BitVec 32

/-- `aob_load` on the buffer. -/
def aobLoad (f : Image) : Except String AobContext :=
  if f.size.toNat < aobHeaderSize then .error "File too small to be valid AOB"
  else if f.u32 0#64 ≠ 0x00424F41#32 then .error "Invalid AOB magic number"
  else if f.u16 4#64 ≠ 1#16 then .error "Unsupported AOB version"
  else if f.u32 12#64 = 0#32 then .error "AOB has no code"
  else if f.size.toNat < aobHeaderSize + (f.u32 12#64).toNat then .error "File size mismatch"
  else .ok ⟨f, f.u32 12#64, f.u32 8#64⟩

/-- The pages `aob_spawn` maps: `(code_size + 4095) / 4096` in 32 bits, and one at
    least. -/
def aobPages (codeSize : BitVec 32) : List Word :=
  let pages := (codeSize + 4095#32).toNat / pageSize
  (List.range (if pages = 0 then 1 else pages)).map fun i =>
    userCodeBase + BitVec.ofNat 64 (i * pageSize)

/-- `aob_spawn`.  The addresses in the API page are those of four functions of
    the kernel. -/
def aobSpawn (ctx : AobContext) (api : List Word) (cmdline : List Byte) (background : Bool)
    (s : PSys) : Option (Except (Option String) Nat × PSys) :=
  if ctx.codeSize ≤ ctx.entryPoint then some (.error (some "Invalid entry point"), s)
  else
    (processCreate s).bind fun
      | (none, s) => some (.error (some "Failed to create process for AOB"), s)
      | (some i, s) =>
        (mapAll pteWritable (aobPages ctx.codeSize) (s.procs i) s.k).map fun (ok, p, k) =>
          if !ok then (.error none, processTerminate ({ s with k := k }.setProc i p) p.pid)
          else
            let src : Nat → Byte := fun j => ctx.image.byte (BitVec.ofNat 64 (aobHeaderSize + j))
            match processWriteUser p userCodeBase src (ctx.codeSize.setWidth 64) k with
            | (false, k) =>
              (.error none, processTerminate ({ s with k := k }.setProc i p) p.pid)
            | (true, k) =>
              (.ok i, finishSpawn (0x414F4150#64 :: api) cmdline background i p k s)

end Loader
