import AoOs.LoopIO
import AoOs.FatTable

/-! # The driver with its loops

    The operations again, with the four `while` loops of the source as loops that
    need not end: the cluster loops of `fat_read` and `fat_create`, the loop of
    `free_chain`, and the walk of `free_entry_index` to the end of a directory.
    The counting loops have a bound in the source and stay as they are.

    Three of the loops always end, each for a reason of its own: a round of
    `fat_read` or `fat_create` moves at least one byte, a round of `free_chain`
    frees an entry that was not free.  The walk ends when the chain does. -/

namespace FatLoops

open BlockIO LoopIO FatTypes FatDriver
open BlockIO.BlockM (run)

/-! ## The loops -/

/-- The variables of `fat_read`'s cluster loop. -/
structure ReadState where
  c : Nat
  done : Nat
  buf : List UInt8
  anchor : Nat
  power : Nat
  length : Nat
  seen : List Nat

/-- One round of it. -/
def readRound (v : Vol) (size : Nat) (s : ReadState) : BlockM (ReadState ⊕ ReadResult) := do
  if s.done < size then
    if !validDataCluster v s.c then pure (.inr ⟨false, some s.done, s.buf, s.seen⟩)
    else
      match ← readCluster v s.c size v.sectorsPerCluster 0 s.done s.buf with
      | none => pure (.inr ⟨false, none, s.buf, s.seen ++ [s.c]⟩)
      | some (done, buf) =>
        if done < size then
          match ← checkedNext v s.c with
          | none => pure (.inr ⟨false, some done, buf, s.seen ++ [s.c]⟩)
          | some (next, terminal) =>
            if terminal then pure (.inr ⟨false, some done, buf, s.seen ++ [s.c]⟩)
            else if next = s.anchor then
              pure (.inr ⟨false, some done, buf, s.seen ++ [s.c]⟩)
            else if u32 (s.length + 1) = s.power then
              pure (.inl ⟨next, done, buf, next, u32 (s.power * 2), 0, s.seen ++ [s.c]⟩)
            else
              pure (.inl ⟨next, done, buf, s.anchor, s.power, u32 (s.length + 1), s.seen ++ [s.c]⟩)
        else
          pure (.inl ⟨s.c, done, buf, s.anchor, s.power, s.length, s.seen ++ [s.c]⟩)
  else pure (.inr ⟨s.done == size, some s.done, s.buf, s.seen⟩)

def readLoop (v : Vol) (size : Nat) (s : ReadState) : LoopM ReadResult :=
  .loop (fun s => liftM (readRound v size s)) s

/-- One round of `free_chain`. -/
def freeRound (v : Vol) (c : Nat) : BlockM (Nat ⊕ Unit) := do
  if validDataCluster v c then
    let next ← fatGet v c
    let _ ← fatSet v c 0
    fsinfoAdjust v 1 c
    if isEoc v next ∨ next < 2 then pure (.inr ()) else pure (.inl next)
  else pure (.inr ())

def freeChain (v : Vol) (c : Nat) : LoopM Unit := .loop (fun c => liftM (freeRound v c)) c

/-- One round of the walk of `free_entry_index`. -/
def tailRound (v : Vol) (c : Nat) : BlockM (Nat ⊕ Option Nat) := do
  let next ← fatGet v c
  if isEoc v next then pure (.inr (some c))
  else if next < 2 then pure (.inr none)
  else pure (.inl next)

def lastCluster (v : Vol) (c : Nat) : LoopM (Option Nat) :=
  .loop (fun c => liftM (tailRound v c)) c

/-- The variables of `fat_create`'s cluster loop. -/
structure CreateState where
  first : Nat
  prev : Nat
  written : Nat

/-- The link from the cluster before, if there is one. -/
def linkTo (v : Vol) (prev c : Nat) : BlockM Bool :=
  if prev ≠ 0 then fatSet v prev c else pure true

/-- One round of it. -/
def createRound (v : Vol) (data : List UInt8) (s : CreateState) :
    LoopM (CreateState ⊕ Option Nat) := do
  if s.written < data.length ∨ (data.length = 0 ∧ s.first = 0) then
    let c ← allocCluster v
    if c = 0 then
      freeChain v s.first
      pure (.inr none)
    else
      let first := if s.first = 0 then c else s.first
      let linked ← linkTo v s.prev c
      if !linked then
        freeChain v first
        pure (.inr none)
      else
        match ← writeCluster v c data v.sectorsPerCluster 0 s.written with
        | none =>
          freeChain v first
          pure (.inr none)
        | some written => pure (.inl ⟨first, c, written⟩)
  else pure (.inr (some s.first))

def createLoop (v : Vol) (data : List UInt8) (s : CreateState) : LoopM (Option Nat) :=
  .loop (createRound v data) s

/-! ## The operations -/

/-- `fat_read`. -/
def fatRead (v : Vol) (name : CString) (maxSize : Nat) : LoopM ReadResult := do
  if v.type = .none then pure ⟨false, none, [], []⟩
  else
    match ← findEntry v v.currentCluster name with
    | none => pure ⟨false, none, [], []⟩
    | some (e, _) =>
      if e.isDirectory then pure ⟨false, none, [], []⟩
      else if maxSize < e.size then pure ⟨false, some e.size, [], []⟩
      else readLoop v e.size ⟨entryCluster v e, 0, [], entryCluster v e, 1, 0, []⟩

def growDirectory (v : Vol) (dir : Nat) : LoopM Bool := do
  match ← lastCluster v (if dir = 0 then v.rootCluster else dir) with
  | none => pure false
  | some c =>
    let added ← allocCluster v
    if added = 0 then pure false else fatSet v c added

def freeIndexFrom (v : Vol) (dir : Nat) : Nat → Nat → LoopM (Option Nat)
  | 0, _ => pure none
  | n + 1, i => do
      match ← dirRead v dir i with
      | none =>
        if dir = 0 ∧ v.type ≠ .fat32 then pure none
        else if ← growDirectory v dir then pure (some i) else pure none
      | some e =>
        if e 0 = 0 ∨ e 0 = 0xE5 then pure (some i) else freeIndexFrom v dir n (i + 1)

/-- `free_entry_index`. -/
def freeEntryIndex (v : Vol) (dir : Nat) : LoopM (Option Nat) :=
  freeIndexFrom v dir maxDirEntries 0

def createAt (v : Vol) (e : Entry) (index : Nat) (data : List UInt8) : LoopM Bool := do
  match ← createLoop v data ⟨0, 0, 0⟩ with
  | none => pure false
  | some first =>
    dirWrite v v.currentCluster index (setEntrySize (setEntryCluster v e first) data.length)

/-- `fat_create`. -/
def fatCreate (v : Vol) (name : CString) (data : List UInt8) : LoopM Bool := do
  if v.type = .none ∨ name.chars = [] then pure false
  else
    match ← findEntry v v.currentCluster name with
    | some (e, index) =>
      if e.isDirectory then pure false
      else
        freeChain v (entryCluster v e)
        createAt v e index data
    | none =>
      match ← freeEntryIndex v v.currentCluster with
      | none => pure false
      | some index => createAt v (freshEntry (makeSfn name) 0x20) index data

/-- `fat_delete`. -/
def fatDelete (v : Vol) (name : CString) : LoopM Bool := do
  match ← findEntry v v.currentCluster name with
  | none => pure false
  | some (e, i) =>
    if e.isDirectory then pure false
    else
      freeChain v (entryCluster v e)
      dirWrite v v.currentCluster i (markDeleted e)

/-- `fat_mkdir`. -/
def fatMkdir (v : Vol) (name : CString) : LoopM Bool := do
  if name.chars = [] then pure false
  else
    match ← findEntry v v.currentCluster name with
    | some _ => pure false
    | none =>
      let index ← freeEntryIndex v v.currentCluster
      let c ← allocCluster v
      match index with
      | none => pure false
      | some index =>
        if c = 0 then pure false
        else
          let e := setEntryCluster v (freshEntry (makeSfn name) 0x10) c
          let dot := setEntryCluster v (freshEntry dotName 0x10) c
          let _ ← dirWrite v c 0 dot
          let parent := if v.currentCluster = v.rootCluster then 0 else v.currentCluster
          let dotDot := setEntryCluster v (freshEntry dotDotName 0x10) parent
          let _ ← dirWrite v c 1 dotDot
          dirWrite v v.currentCluster index e

/-- `fat_rmdir`. -/
def fatRmdir (v : Vol) (name : CString) : LoopM Bool := do
  match ← findEntry v v.currentCluster name with
  | none => pure false
  | some (e, i) =>
    if !e.isDirectory then pure false
    else
      let c := entryCluster v e
      if ← emptyFrom v c (maxDirEntries - 2) 2 then
        freeChain v c
        dirWrite v v.currentCluster i (markDeleted e)
      else pure false

end FatLoops
