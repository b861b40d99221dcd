import Vault.Container.Access

/-!
# `Vault/Container/Resize.lean` — changing the size of the content

Growing appends zeros. Shrinking cuts the file at the start of the chunk that will be the last one
and writes the kept part of that chunk again, which takes several steps on the file. **With a
backup copy, a shrink that fails is undone:** the raw file is copied aside first, and put back
with the position and the mode of before when any step fails. Only when that fails too does the
backup copy stay on the disk.

The position asked for is not changed by any of this, so it may lie behind the end afterwards.
-/

set_option autoImplicit false

namespace Vault.Container

/-! ## Growing -/

/-- Appends zeros, a block at a time, until the content has its new size. Each turn adds at least
one byte, so as many turns as bytes are missing are enough. -/
def growBlocks (newSize block : Nat) : (turns : Nat) → Op Unit
  | 0 => pure ()
  | turns + 1 => do
    let before := (← get).size
    if before < newSize then
      writeAll (Bytes.zeros (min (newSize - before) block))
      let size := (← get).size
      -- a write that adds nothing would go on for ever
      if size ≤ before then throw (.aborted newSize size)
      growBlocks newSize block turns

/-- How many zeros are made at a time to grow to a size: as many as the configuration says, and no
more than are missing. -/
def zerosAtOnce (s : Session) (newSize : Nat) : Nat :=
  min (newSize - s.size) (max s.config.maxProcessingSize 1)

theorem zerosAtOnce_le (s : Session) (newSize : Nat) : zerosAtOnce s newSize ≤ newSize - s.size :=
  Nat.min_le_left _ _

theorem zerosAtOnce_pos {s : Session} {newSize : Nat} (hlt : s.size < newSize) :
    0 < zerosAtOnce s newSize :=
  Nat.lt_min.mpr ⟨Nat.sub_pos_of_lt hlt, Nat.lt_of_lt_of_le Nat.zero_lt_one (Nat.le_max_right _ 1)⟩

theorem lt_of_zerosAtOnce_pos {s : Session} {newSize : Nat} (hpos : 0 < zerosAtOnce s newSize) :
    s.size < newSize :=
  Nat.lt_of_sub_pos (Nat.lt_of_lt_of_le hpos (zerosAtOnce_le s newSize))

/-- Makes the content longer. The block of zeros is made before anything is changed; the program
breaks off if that is more than a buffer can be. -/
def grow (newSize : Nat) : Op Unit := do
  let s ← get
  let block := zerosAtOnce s newSize
  if allocationLimit < block then throw .brokenOff
  moveTo s.size 0
  growBlocks newSize block (newSize - s.size)
  -- in an appending mode the end is the only position
  if s.mode.isAppend then
    modify fun s => { s with seekCursor := s.size }
    moveTo (← get).size 0
  else moveTo s.cursor 0

/-! ## Shrinking -/

/-- How much plain content, chunk data and raw file there is. -/
structure Extent where
  plain : Nat
  cipher : Nat
  raw : Nat
deriving DecidableEq

/-- An extent without one chunk, if the chunk is in it. -/
def Extent.without (x : Extent) (chunk : Chunk) : Except Error Extent :=
  if chunk.content.length ≤ x.plain ∧ chunk.ciphertextSize ≤ x.cipher ∧
      chunk.ciphertextSize ≤ x.raw then
    .ok ⟨x.plain - chunk.content.length, x.cipher - chunk.ciphertextSize,
      x.raw - chunk.ciphertextSize⟩
  else .error .invalidSize

/-- The extent without a chunk and the `later` chunks behind it. -/
def extentBefore (chunk : Chunk) : (later : Nat) → Extent → Op Extent
  | 0, x => Op.ofExcept (x.without chunk)
  | later + 1, x => do
    let x ← Op.ofExcept (x.without chunk)
    let next ← loadChunk (chunk.seqnum + 1) 0 0
    extentBefore next later x

/-- Makes the content empty. -/
def shrinkToNothing (durable : Bool) : Op Unit := do
  modify fun s => { s with size := 0, ciphertextSize := 0, eofSeqnum := 0, sizeDirty := true }
  writeSize
  Raw.truncate (← get).layout.dataOffset durable
  moveTo 0 0

/-- Makes the content shorter but not empty: cuts it in front of the chunk with number `boundary`
and appends the first `keep` bytes of that again. -/
def shrinkToBoundary (newSize newPos boundary keep : Nat) (durable : Bool) : Op Unit := do
  let rawEnd := min (← Raw.size) (← get).eofPos
  -- what is kept of the boundary chunk is read before anything is changed
  let chunk ← loadChunk boundary 0 0
  let tail := chunk.content.take keep
  let s ← get
  let x ← extentBefore chunk (s.eofSeqnum - boundary) ⟨s.size, s.ciphertextSize, rawEnd⟩
  modify fun s => { s with
    size := x.plain
    ciphertextSize := x.cipher
    eofSeqnum := boundary
    sizeDirty := true }
  -- the header tells of the shorter content before the file is cut
  writeSize
  Raw.truncate x.raw durable
  moveTo (← get).size 0
  writeAll tail
  -- the tail is sealed again like data that is written
  let size := (← get).size
  if size ≠ newSize then throw (.aborted newSize size)
  moveTo newPos 0

/-- Makes the content shorter and puts the cursor at `newPos`. -/
def shrink (newSize newPos : Nat) (durable : Bool) : Op Unit := do
  flushAll none
  modify fun s => { s with pool := s.pool.clear, current := none }
  if newSize = 0 then shrinkToNothing durable
  else
    match (← get).layout.locate? newSize with
    | none =>
      discard Raw.size
      throw .invalidSize
    | some (boundary, keep) => shrinkToBoundary newSize newPos boundary keep durable

/-! ## Backup copies -/

/-- Closes the container, copies its raw file and opens it again where it was. -/
def takeBackup : Op Bytes := do
  let before ← get
  shut true
  -- the copy is made of a closed file, so everything was written
  let copied := (← get).disk.read? before.path
  launch .writeExisting false
  modify fun s => { s with mode := before.mode, seekCursor := before.seekCursor }
  match copied with
  | some data => return data
  | none => throw (.file .notFound)

/-- Puts a backup copy in the place of the raw file and opens that where the container was. -/
def rollback (backup : Bytes) (cursor seekCursor : Nat) : Op Unit := do
  let mode := (← get).mode
  shut false
  let s ← get
  if !s.disk.contains s.path then throw (.file .notFound)
  set { s with disk := ((s.disk.remove s.path).create s.path backup).2 }
  launch .writeExisting false
  modify fun s => { s with mode }
  moveTo cursor 0
  modify fun s => { s with seekCursor }

/-- Makes the content shorter; if that fails, puts everything back as it was. -/
def shrinkWithBackup (newSize : Nat) : Op Unit := do
  let before ← get
  let backup ← takeBackup
  match ← Op.attempt (shrink newSize (min before.cursor newSize) true) with
  | .ok () => pure ()
  | .error e =>
    -- the container is opened anew, since nothing is known of it after the failure
    match ← Op.attempt (rollback backup before.cursor before.seekCursor) with
    | .ok () => throw e
    | .error rollbackError =>
      -- the copy cannot be put back, and stays on the disk
      modify fun s => { s with disk := s.disk.keepBackup backup }
      throw rollbackError

/-! ## Any new size -/

/-- Gives the content of an open container a new size. -/
def resize (newSize : Nat) (backup : Bool) : Op Unit := do
  let s ← get
  if newSize = s.size then pure ()
  else if s.size < newSize then grow newSize
  else if s.mode.isAppend then throw (.invalidSeek newSize s.size)
  else if backup then shrinkWithBackup newSize
  else shrink newSize (min s.cursor newSize) false

/-- Gives the content a new size. A closed container is opened for that and closed again, unless the
program breaks off; when its chunks are streamed it can only grow. -/
def truncate (newSize : Nat) (backup : Bool) : Op Unit := do
  let s ← get
  if s.isOpen then
    if !s.mode.isWrite then throw .writeFailed
    resize newSize backup
  else
    launch (if s.processor.config.streaming then .appendExisting else .writeExisting) false
    -- growing would break off before it changes anything, and nothing is closed then
    if allocationLimit < zerosAtOnce (← get) newSize then throw .brokenOff
    -- the container is closed whatever came of the new size
    let result ← Op.attempt (resize newSize backup)
    let closed ← Op.attempt (shut true)
    Op.ofExcept result
    Op.ofExcept closed

/-- Writes data from the position on; the answer is its length. A gap between the end and the
position is filled with zeros first. -/
def write (data : Bytes) : Op Nat := do
  if data = [] then return 0
  else
    ensureOpen
    if !(← get).mode.isWrite then throw .writeFailed
    let s ← get
    if s.size < s.seekCursor then
      -- zeros up to the position that was asked for, and from there the data
      resize s.seekCursor false
      moveTo s.seekCursor 0
    syncCursor
    writeAll data
    modify fun s => { s with seekCursor := s.cursor }
    return data.length

end Vault.Container
