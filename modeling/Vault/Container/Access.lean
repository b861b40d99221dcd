import Vault.Container.Opening

/-!
# `Vault/Container/Access.lean` — seeking, reading and writing

A position may be asked for that lies behind the end; it is remembered (`seekCursor`), and the
next write fills the gap with zeros. Reading there gives nothing. **The position asked for changes
only when an operation succeeds,** while the cursor follows the chunks that were visited.

Sealed chunks are written when they are left or flushed; streamed ones are encrypted and written
at once, because nobody may come back to them (`streamOut`).
-/

set_option autoImplicit false

namespace Vault.Container

/-- Asks for a position. When only appending is allowed, it has to be the end. -/
def seek (pos : Nat) : Op Unit := do
  ensureOpen
  let s ← get
  if s.mode.isAppend && pos ≠ s.size then throw (.invalidSeek pos s.size)
  set { s with seekCursor := pos }
  -- behind the end nothing is made current; the gap is filled when something is written there
  if pos ≠ s.cursor ∧ pos ≤ s.size then moveTo pos 0

/-! ## Reading -/

/-- Reads up to `want` bytes from the cursor on, chunk by chunk. Each turn reads at least one
byte or is the last, so `want` turns are enough. -/
def readChunks : (turns want : Nat) → Op Bytes
  | 0, _ => return []
  | turns + 1, want => do
    let s ← get
    if want = 0 ∨ s.size ≤ s.cursor then return []
    else
      -- the chunk may have been read to its end before
      if (← active).remaining = 0 then moveTo s.cursor 0
      let chunk ← active
      if chunk.remaining = 0 then return []
      else
        let s ← get
        let (data, chunk) := chunk.read (min want (s.size - s.cursor))
        set { s with current := some chunk, cursor := s.cursor + data.length }
        return data ++ (← readChunks turns (want - data.length))

/-- Reads up to `n` bytes from the position on; at the end there are none. -/
def read (n : Nat) : Op Bytes := do
  if n = 0 then return []
  else
    ensureOpen
    let s ← get
    if s.mode.isAppend then throw .readFailed
    if s.size ≤ s.seekCursor then return []
    else
      syncCursor
      let data ← readChunks n n
      modify fun s => { s with seekCursor := s.cursor }
      return data

/-! ## Streamed chunks -/

/-- Makes sure that the processor's stream belongs to a chunk. The answer is what has to be
written in front of the chunk's ciphertext: its nonce, when the chunk is new. -/
def prepareStream (chunk : Chunk) (raw : Nat) : Op Bytes := do
  let s ← get
  -- nothing of the chunk is in the file, so its nonce goes first
  if chunk.ciphertextSize = 0 then
    Raw.note (.streamStarted chunk.seqnum)
    let (lead, processor) ← Op.ofDraw (s.processor.startStream chunk.seqnum)
    modify fun s => { s with processor }
    return lead
  else
    -- the nonce of a chunk that is in the file stands at its start
    if s.processor.streamSeqnum ≠ some chunk.seqnum then
      Raw.seek raw
      let lead ← readExactly s.processor.streamLead fun _ => .readFailed
      Raw.note (.streamResumed chunk.seqnum chunk.streamed)
      let processor ←
        Op.ofExcept (s.processor.resumeStream lead chunk.seqnum chunk.streamed)
      modify fun s => { s with processor }
    return []

/-- Encrypts the part of a chunk that is not yet in the file, and writes it behind the rest. The
answer is the chunk as it is then. -/
def streamOut (chunk : Chunk) : Op Chunk := do
  let raw ← rawPosOf chunk.seqnum
  let lead ← prepareStream chunk raw
  let plain := chunk.content.drop chunk.streamed
  Raw.note (.streamed plain.length)
  let (ciphertext, processor) ← Op.ofExcept ((← get).processor.encryptStream plain)
  modify fun s => { s with processor }
  let data := lead ++ ciphertext
  -- the stream has moved on, also if one of the next calls fails
  cutTail (raw + chunk.ciphertextSize + data.length)
  writeAt (raw + chunk.ciphertextSize) data
  modify fun s => { s with
    ciphertextSize := s.ciphertextSize + data.length
    sizeDirty := true }
  return { chunk with
    ciphertextSize := chunk.ciphertextSize + data.length
    streamed := chunk.content.length }

/-! ## Writing -/

/-- The room for data at the cursor; `none` when there is no bound. At the end of a full chunk the
next one is made current, `remaining` being the number of bytes still to be written. -/
def roomAtCursor (remaining : Nat) : Op (Option Nat) := do
  let chunk ← active
  if chunk.available = some 0 then
    -- no further chunk has a number behind the last one
    let next := chunk.seqnum + 1
    if seqnumLimit ≤ next then throw .invalidSize
    moveTo ((← get).layout.startOf next) remaining
    let room := (← active).available
    if room = some 0 then throw .writeFailed
    return room
  else return chunk.available

/-- Writes data into the current chunk, which has room for it. -/
def writeCurrent (data : Bytes) : Op Unit := do
  let (grown, chunk) := (← active).write data
  modify fun s =>
    let grows := chunk.seqnum = s.eofSeqnum ∧ 0 < grown
    { s with
      current := some { chunk with dirty := true }
      size := if grows then s.size + grown else s.size
      sizeDirty := s.sizeDirty || grows
      cursor := s.cursor + data.length }
  -- streamed chunks are written at once, sealed ones when they are flushed
  if (← get).processor.config.streaming then
    setCurrent (← streamOut (← active))

/-- Writes data from the cursor on, chunk by chunk. Each turn writes at least one byte, so as many
turns as there are bytes are enough. -/
def writeChunks : (turns : Nat) → (data : Bytes) → Op Unit
  | 0, _ => pure ()
  | turns + 1, data => do
    if data ≠ [] then
      let room ← roomAtCursor data.length
      let len := match room with
        | none => data.length
        | some room => min room data.length
      writeCurrent (data.take len)
      writeChunks turns (data.drop len)

/-- Writes all of the data from the cursor on. -/
def writeAll (data : Bytes) : Op Unit := writeChunks data.length data

end Vault.Container
