import Vault.Container.Upkeep
import Vault.Proofs.Checked

/-!
# `Vault/Proofs/CheckedReading.lean` — reading with every number checked

Everything that is done to a container that is only read: it is opened and closed, positions are
sought, bytes are read, chunks are loaded and forgotten. Here each of these computations is written
once more, with every sum, difference, product and quotient checked and every piece of a byte string
looked for before it is taken. **What is missing or does not fit is a trap** (`Stop.trap`), which
nothing catches. A loop that would have to go on after its last turn is a trap too, and so is
everything that writes, since a container that is only read has nothing to write.

The computations are those of the modules under `Vault/Container`, in the same order and with the
same names, followed by `Checked`. They are there to be compared with them.
-/

set_option autoImplicit false

namespace Vault

/-- Why a checked computation stops before its end. -/
inductive Stop where
  | error (cause : Error)
  /-- A number did not fit, or a place was not there. -/
  | trap
deriving DecidableEq

/-- A computation on a session that answers, fails or is trapped. -/
abbrev CheckedOp (α : Type) := EStateM Stop Session α

namespace CheckedOp

/-- A computation in which there is nothing to be checked. -/
def ofOp {α : Type} (x : Op α) : CheckedOp α := fun s =>
  match x s with
  | .ok a s => .ok a s
  | .error e s => .error (.error e) s

/-- The result of a checked computation with numbers. -/
def ofOption {α : Type} : Option α → CheckedOp α
  | some a => pure a
  | none => throw .trap

/-- The result of a checked computation with numbers that may fail. -/
def ofResult {α : Type} : Option (Except Error α) → CheckedOp α
  | some (.ok a) => pure a
  | some (.error e) => throw (.error e)
  | none => throw .trap

/-- The answer or the error of a computation, as a value. A trap stays a trap. -/
def attempt {α : Type} (x : CheckedOp α) : CheckedOp (Except Error α) := fun s =>
  match x s with
  | .ok a s => .ok (.ok a) s
  | .error (.error e) s => .ok (.error e) s
  | .error .trap s => .error .trap s

end CheckedOp

namespace Container

open CheckedOp

/-! ## Chunks

Whatever would write a dirty chunk is a trap: `flushLastChecked`, `flushEvictedChecked` and
`retireChecked` look whether there is one, and the statements about them show that there is none. -/

/-- The raw offset behind the chunk data. -/
def eofPosChecked : CheckedOp Nat := do
  let s ← get
  ofOption (Checked.add s.layout.dataOffset s.ciphertextSize)

/-- The raw offset of a chunk, which must not lie behind the chunk data. -/
def rawPosOfChecked (seqnum : Nat) : CheckedOp Nat := do
  let eof ← eofPosChecked
  if (← ofOp Raw.size) < eof then throw (.error .invalidSize)
  let raw ← ofOption ((← get).layout.rawStartChecked seqnum)
  if eof < raw then throw (.error (.invalidSeek raw eof))
  return raw

/-- The content in a packed chunk. -/
def unpackChunkChecked (data : Bytes) (seqnum : Nat) : CheckedOp Bytes := do
  ofOp (Raw.note (.unpacked seqnum data.length))
  ofResult ((← get).processor.unpackChunkChecked data seqnum)

/-- A chunk as it is in the file. -/
def loadChunkChecked (seqnum offset overwrite : Nat) : CheckedOp Chunk := do
  let maxSize := (← get).processor.maxPlainSize seqnum
  let chunk := Chunk.new seqnum maxSize
  let raw ← rawPosOfChecked seqnum
  let eof ← eofPosChecked
  let s ← get
  let packed ← ofOption (s.processor.maxPackedChecked seqnum s.ciphertextSize)
  -- the offset was compared with the end before, so this difference is there
  let left ← ofOption (Checked.sub eof raw)
  let len := min packed left
  if len = 0 then return chunk
  else if offset = 0 ∧ maxSize ≠ 0 ∧ maxSize ≤ overwrite ∧ seqnum < s.eofSeqnum then
    return { chunk with ciphertextSize := len }
  else
    ofOp (Raw.seek raw)
    let data ← ofOp (Raw.read len)
    if data.length ≠ len then throw (.error .readFailed)
    let content ← unpackChunkChecked data seqnum
    return { chunk with content, streamed := content.length, ciphertextSize := len }

/-- Writes the current chunk if it is dirty and holds the end. -/
def flushLastChecked : CheckedOp Unit := do
  let s ← get
  match s.current with
  | some chunk => if chunk.dirty && chunk.seqnum = s.eofSeqnum then throw .trap
  | none => pure ()

/-- Writes chunks that have left the pool, as far as they are dirty. -/
def flushEvictedChecked : List Chunk → CheckedOp Unit
  | [] => pure ()
  | chunk :: rest => do
    if chunk.dirty then throw .trap
    flushEvictedChecked rest

/-- Puts away a chunk that is current no longer. -/
def retireChecked (chunk : Chunk) : CheckedOp Unit := do
  let s ← get
  if s.useCache then
    let (evicted, pool) := s.pool.insert chunk
    set { s with pool }
    flushEvictedChecked evicted.toList
  else if chunk.dirty then throw .trap

/-- Makes the chunk that holds a position the current one and puts the cursor there. -/
def moveToChecked (pos overwrite : Nat) : CheckedOp Unit := do
  ofOp ensureOpen
  let s ← get
  if (if s.mode.isAppend then pos ≠ s.size else s.size < pos) then
    throw (.error (.invalidSeek pos s.size))
  match ← ofOption (s.layout.locateChecked pos) with
  | none => throw (.error .invalidSize)
  | some (seqnum, offset) =>
    if s.current.any fun chunk => chunk.seqnum = seqnum then
      modify fun s => { s with
        current := s.current.map fun chunk => { chunk with offset }
        cursor := pos }
    else
      flushLastChecked
      let previous := (← get).current
      modify fun s => { s with current := none }
      match previous with
      | some previous => retireChecked previous
      | none => pure ()
      let chunk ← match ← ofOp (takePooled seqnum) with
        | some chunk => pure chunk
        | none => loadChunkChecked seqnum offset overwrite
      modify fun s => { s with
        current := some { chunk with offset }
        cursor := pos
        eofSeqnum := max s.eofSeqnum seqnum }

/-- Brings the cursor to the position asked for. -/
def syncCursorChecked : CheckedOp Unit := do
  let s ← get
  if s.current.isNone || s.seekCursor != s.cursor then moveToChecked s.seekCursor 0

/-! ## Seeking and reading -/

/-- Asks for a position. -/
def seekChecked (pos : Nat) : CheckedOp Unit := do
  ofOp ensureOpen
  let s ← get
  if s.mode.isAppend && pos ≠ s.size then throw (.error (.invalidSeek pos s.size))
  set { s with seekCursor := pos }
  if pos ≠ s.cursor ∧ pos ≤ s.size then moveToChecked pos 0

/-- Reads up to `want` bytes from the cursor on, chunk by chunk. There have to be turns enough. -/
def readChunksChecked : (turns want : Nat) → CheckedOp Bytes
  -- the plain loop just stops when it has no turns left
  | 0, want => do
    let s ← get
    if want = 0 ∨ s.size ≤ s.cursor then return [] else throw .trap
  | turns + 1, want => do
    let s ← get
    if want = 0 ∨ s.size ≤ s.cursor then return []
    else
      if (← ofOp active).remaining = 0 then moveToChecked s.cursor 0
      let chunk ← ofOp active
      if chunk.remaining = 0 then return []
      else
        let s ← get
        let left ← ofOption (Checked.sub s.size s.cursor)
        let len := min (min want left) chunk.remaining
        let data ← ofOption (Checked.slice chunk.content chunk.offset len)
        let offset ← ofOption (Checked.add chunk.offset len)
        let cursor ← ofOption (Checked.add s.cursor len)
        let want ← ofOption (Checked.sub want len)
        set { s with current := some { chunk with offset }, cursor }
        return data ++ (← readChunksChecked turns want)

/-- Reads up to `n` bytes from the position on; at the end there are none. -/
def readChecked (n : Nat) : CheckedOp Bytes := do
  if n = 0 then return []
  else
    ofOp ensureOpen
    let s ← get
    if s.mode.isAppend then throw (.error .readFailed)
    if s.size ≤ s.seekCursor then return []
    else
      syncCursorChecked
      let data ← readChunksChecked n n
      modify fun s => { s with seekCursor := s.cursor }
      return data

/-! ## Closing -/

/-- Flushes if asked to, and closes the raw file in any case. -/
def closeRawChecked (flush : Bool) : CheckedOp Unit := do
  if (← get).isOpen then
    let flushed ← if flush && (← get).mode.isWrite then throw .trap else pure (.ok ())
    let closed ← attempt (ofOp Raw.close)
    ofOp (Op.ofExcept flushed)
    ofOp (Op.ofExcept closed)

/-- Closes the container, whether or not flushing and closing the raw file succeed. -/
def shutChecked (flush : Bool) : CheckedOp Unit := do
  let closed ← attempt (closeRawChecked flush)
  ofOp forgetAll
  ofOp (Op.ofExcept closed)

/-- Flushes and closes the container, if it is open. -/
def closeChecked : CheckedOp Unit := do
  if (← get).isOpen then shutChecked true

/-! ## Opening -/

/-- Takes over the sizes in a header and checks that they go together. -/
def loadSizesChecked (info : HeaderInfo) : CheckedOp Unit := do
  let s ← get
  let dataOffset ← ofOption (Checked.add Header.size info.descriptorSize)
  let layout ← ofOption (s.processor.layoutChecked dataOffset)
  let size ← ofOption <| if s.processor.config.streaming
    then layout.streamedSizeChecked info.ciphertextSize s.processor.streamLead
    else some info.plaintextSize
  set { s with layout, ciphertextSize := info.ciphertextSize, size }
  let s ← get
  let found := (← ofOp Raw.size) - s.layout.dataOffset
  if found < s.ciphertextSize then
    throw (.error (.malformed (.missingData found s.ciphertextSize)))
  match ← ofOption (s.layout.seqnumChecked s.size) with
  | none => throw (.error (.malformed (.unaddressable s.size)))
  | some eofSeqnum =>
    modify fun s => { s with eofSeqnum }
    match ← ofOption (s.layout.packedBeforeChecked eofSeqnum) with
    | none => throw (.error (.malformed (.overfull s.size s.ciphertextSize)))
    | some needed =>
      if s.ciphertextSize < needed then
        throw (.error (.malformed (.overfull s.size s.ciphertextSize)))

/-- Reads header and descriptor of a container that is there and, unless only those are wanted,
makes the chunk of the first position current. -/
def loadLayoutChecked (metadataOnly : Bool) : CheckedOp Unit := do
  ofOp (Raw.seek 0)
  let header ← ofOp
    (readExactly Header.size fun found => .malformed (.shortHeader Header.size found))
  let info ← ofResult ((← get).processor.unpackHeaderChecked header)
  let descriptor ← ofOp (readExactly info.descriptorSize fun found =>
    .malformed (.shortDescriptor info.descriptorSize found))
  let processor ← ofResult ((← get).processor.unpackDescriptorChecked descriptor)
  modify fun s => { s with processor }
  loadSizesChecked info
  if !metadataOnly then
    let s ← get
    let start := if s.mode.isAppend then s.size else 0
    moveToChecked start 0
    modify fun s => { s with seekCursor := start }

/-- Opens the container. -/
def launchChecked (mode : Mode) (metadataOnly : Bool) : CheckedOp Unit := do
  let fileExists := (← get).disk.contains (← get).path
  modify fun s =>
    let c := { s.toContainer.forget with mode }
    { s with toContainer := { c with useCache := c.cachePolicy } }
  ofOp (Raw.openAs (mode.raw fileExists))
  let opened ← attempt <|
    if mode.createsFile fileExists then throw .trap else loadLayoutChecked metadataOnly
  match opened with
  | .ok () => pure ()
  | .error e =>
    discard (attempt (shutChecked false))
    throw (.error e)

/-- Opens the container for users. -/
def openInChecked (mode : Mode) : CheckedOp Unit := do
  let s ← get
  if s.isOpen then throw (.error .alreadyOpen)
  if s.processor.config.streaming && !mode.allowsStreaming then throw (.error .streamMode)
  launchChecked mode false

/-- Opens a closed container as far as its header and descriptor. -/
def launchMetadataChecked (mode : Mode) : CheckedOp Unit := do
  if (← get).isOpen then throw (.error .alreadyOpen)
  launchChecked mode true

/-- Runs a computation on a closed container opened as far as its metadata, and closes it again. -/
def withMetadataChecked {α : Type} (mode : Mode) (x : CheckedOp α) : CheckedOp α := do
  launchMetadataChecked mode
  let result ← attempt x
  let closed ← attempt (shutChecked false)
  let a ← ofOp (Op.ofExcept result)
  ofOp (Op.ofExcept closed)
  return a

/-! ## Sizes and the chunks in memory -/

/-- The size of the content. -/
def contentSizeChecked : CheckedOp Nat := do
  if (← get).isOpen then return (← get).size
  else withMetadataChecked .scan do return (← get).size

/-- The bytes of header, descriptor and chunk data in the file. -/
def usedSizeChecked : CheckedOp Nat := do
  if (← get).isOpen then
    flushLastChecked
    eofPosChecked
  else withMetadataChecked .scan eofPosChecked

/-- Writes everything, forgets all chunks and reads the current one again. -/
def invalidateChecked : CheckedOp Unit := do
  ofOp ensureOpen
  let s ← get
  if s.mode.isWrite then throw .trap
  modify fun s => { s with pool := s.pool.clear }
  if !s.mode.isAppend then
    modify fun s => { s with current := none }
    moveToChecked (← get).cursor 0

/-- Changes the number of chunks in memory, which is at least 1. The chunks that have to make way
have to be there. -/
def setMaxCachedChecked (count : Nat) : CheckedOp Unit := do
  let count := max count 1
  let s ← get
  let chunks ← ofOption (Checked.add s.pool.entries.length 1)
  if s.pool.entries.length < chunks - count then throw .trap
  let (evicted, pool) := s.pool.setCapacity count
  set { s with config.maxCachedChunks := count, pool }
  flushEvictedChecked evicted

/-- Allows or forbids keeping chunks. -/
def setCacheEnabledChecked (enabled : Bool) : CheckedOp Unit := do
  modify fun s => { s with config.cacheEnabled := enabled }
  let s ← get
  if s.isOpen then
    let useCache := s.cachePolicy
    if useCache then set { s with useCache }
    else
      let (pooled, pool) := s.pool.drain
      set { s with useCache, pool }
      flushEvictedChecked pooled

end Container

end Vault
