import Vault.Container.Raw

/-!
# `Vault/Container/Chunks.lean` — chunks between memory and file

Exactly one chunk is being worked on: the current one, which holds the position of the cursor.
`moveTo` makes another chunk current. The one before is put into the pool, or written back if no
pool is used, and the new one comes from the pool or from the file.

**Only the chunk that holds the end of the content can change the size,** so it is written as soon
as the container moves away from it. Every chunk in front of it is full, which is why the layout
can say where a chunk lies without looking at the file.

A chunk that has to be written and cannot be is not put back where it came from, unless it is the
current one or is being flushed in the pool.
-/

set_option autoImplicit false

namespace Vault.Container

/-- Fails unless the raw file is open. -/
def ensureOpen : Op Unit := do
  if !(← get).isOpen then throw .notOpen

/-- The current chunk, which has to be there. -/
def active : Op Chunk := do
  match (← get).current with
  | some chunk => return chunk
  | none => throw .notOpen

/-- Makes a chunk the current one. -/
def setCurrent (chunk : Chunk) : Op Unit := modify fun s => { s with current := some chunk }

/-! ## Through the processor -/

/-- The packed form of a chunk. -/
def packChunk (chunk : Chunk) : Op Bytes := do
  Raw.note (.packed chunk.seqnum chunk.content.length)
  Op.ofDraw ((← get).processor.packChunk chunk.content chunk.seqnum)

/-- The content in a packed chunk. -/
def unpackChunk (data : Bytes) (seqnum : Nat) : Op Bytes := do
  Raw.note (.unpacked seqnum data.length)
  Op.ofExcept ((← get).processor.unpackChunk data seqnum)

/-! ## Writing back -/

/-- The raw offset of a chunk, which must not lie behind the chunk data. -/
def rawPosOf (seqnum : Nat) : Op Nat := do
  let eof := (← get).eofPos
  -- chunk data that the header tells of is missing
  if (← Raw.size) < eof then throw .invalidSize
  let raw := (← get).layout.rawStartOf seqnum
  if eof < raw then throw (.invalidSeek raw eof)
  return raw

/-- Before chunk data first grows beyond its old end, cuts off what stands behind it: a stamp that
was there is out of date. -/
def cutTail (rawEnd : Nat) : Op Unit := do
  let s ← get
  if !s.tailCut && s.eofPos < rawEnd then
    -- what is cut is behind the chunk data, and there is at most one such cut while it is open
    if s.eofPos < (← Raw.size) then Raw.truncate s.eofPos false
    modify fun s => { s with tailCut := true }

/-- Writes bytes at a raw offset, all of them or none counts. -/
def writeAt (offset : Nat) (data : Bytes) : Op Unit := do
  Raw.seek offset
  if (← Raw.write data) ≠ data.length then throw .writeFailed

/-- Packs a chunk and writes it to its place. The answer is the chunk as it is then. -/
def flushChunk (chunk : Chunk) : Op Chunk := do
  let data ← packChunk chunk
  -- a streamed chunk went to the file when it was written to
  if data = [] then return { chunk with dirty := false }
  else
    let raw ← rawPosOf chunk.seqnum
    cutTail (raw + data.length)
    writeAt raw data
    if data.length ≠ chunk.ciphertextSize then
      modify fun s => { s with
        ciphertextSize := s.ciphertextSize - chunk.ciphertextSize + data.length
        sizeDirty := true }
    return { chunk with ciphertextSize := data.length, dirty := false }

/-- Writes the current chunk. -/
def flushActive : Op Unit := do
  setCurrent (← flushChunk (← active))

/-- Writes the current chunk if it is dirty and holds the end. -/
def flushLast : Op Unit := do
  let s ← get
  match s.current with
  | some chunk => if chunk.dirty && chunk.seqnum = s.eofSeqnum then flushActive
  | none => pure ()

/-- Writes chunks that have left the pool, as far as they are dirty. -/
def flushEvicted : List Chunk → Op Unit
  | [] => pure ()
  | chunk :: rest => do
    if chunk.dirty then discard (flushChunk chunk)
    flushEvicted rest

/-- Writes pooled chunks, as far as they are dirty. They stay in the pool. -/
def flushPooled : List Chunk → Op Unit
  | [] => pure ()
  | chunk :: rest => do
    if chunk.dirty then
      let chunk ← flushChunk chunk
      modify fun s => { s with pool := s.pool.refresh chunk }
    flushPooled rest

/-- Puts away a chunk that is current no longer. -/
def retire (chunk : Chunk) : Op Unit := do
  let s ← get
  if s.useCache then
    let (evicted, pool) := s.pool.insert chunk
    set { s with pool }
    -- a dirty chunk that made way is in hand only, and is gone if it cannot be written
    flushEvicted evicted.toList
  else if chunk.dirty then discard (flushChunk chunk)

/-! ## Reading -/

/-- Takes a chunk out of the pool, if one is used and the chunk is in it. -/
def takePooled (seqnum : Nat) : Op (Option Chunk) := do
  let s ← get
  if s.useCache then
    let (found, pool) := s.pool.take seqnum
    set { s with pool }
    return found
  else return none

/-- A chunk as it is in the file. Of a full chunk in front of the last one that is about to be
overwritten from its start, by `overwrite` bytes or more than it holds, the content is not read. -/
def loadChunk (seqnum offset overwrite : Nat) : Op Chunk := do
  let maxSize := (← get).processor.maxPlainSize seqnum
  let chunk := Chunk.new seqnum maxSize
  let raw ← rawPosOf seqnum
  let s ← get
  let len := min (s.processor.maxPackedSize seqnum s.ciphertextSize) (s.eofPos - raw)
  if len = 0 then return chunk
  -- every byte of the chunk will be replaced
  else if offset = 0 ∧ maxSize ≠ 0 ∧ maxSize ≤ overwrite ∧ seqnum < s.eofSeqnum then
    return { chunk with ciphertextSize := len }
  else
    Raw.seek raw
    let data ← Raw.read len
    if data.length ≠ len then throw .readFailed
    let content ← unpackChunk data seqnum
    return { chunk with content, streamed := content.length, ciphertextSize := len }

/-! ## Moving -/

/-- Makes the chunk that holds a position the current one and puts the cursor there. Of a chunk
that is about to be overwritten, `overwrite` is the number of bytes about to be written. -/
def moveTo (pos overwrite : Nat) : Op Unit := do
  ensureOpen
  let s ← get
  if (if s.mode.isAppend then pos ≠ s.size else s.size < pos) then throw (.invalidSeek pos s.size)
  match s.layout.locate? pos with
  | none => throw .invalidSize
  | some (seqnum, offset) =>
    -- the place in the current chunk is all that changes
    if s.current.any fun chunk => chunk.seqnum = seqnum then
      modify fun s => { s with
        current := s.current.map fun chunk => { chunk with offset }
        cursor := pos }
    else
      -- the place of the next chunk is looked up in the chunk data, so the last one goes first
      flushLast
      let previous := (← get).current
      modify fun s => { s with current := none }
      match previous with
      | some previous => retire previous
      | none => pure ()
      let chunk ← match ← takePooled seqnum with
        | some chunk => pure chunk
        | none => loadChunk seqnum offset overwrite
      modify fun s => { s with
        current := some { chunk with offset }
        cursor := pos
        eofSeqnum := max s.eofSeqnum seqnum }

/-- Brings the cursor to the position asked for. -/
def syncCursor : Op Unit := do
  let s ← get
  if s.current.isNone || s.seekCursor != s.cursor then moveTo s.seekCursor 0

end Vault.Container
