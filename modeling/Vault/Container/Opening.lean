import Vault.Container.Chunks

/-!
# `Vault/Container/Opening.lean` — opening, flushing and closing

Opening reads header and descriptor, checks that the sizes in the header go together, and makes
the first chunk current — or, in an appending mode, the last one. Opening for metadata only
(`launch` with `metadataOnly`) stops before that. **A container that could not be opened is closed
again without flushing,** unless the raw file itself could not be opened; then there is nothing to
close.

Flushing writes every dirty chunk, then the sizes in the header, then flushes the raw file.
Closing flushes, closes the raw file and forgets everything; of several errors on that way the
first one is reported.
-/

set_option autoImplicit false

namespace Vault.Container

/-! ## Flushing -/

/-- Writes the two sizes into the header, if they differ from what is there. -/
def writeSize : Op Unit := do
  let s ← get
  if s.sizeDirty then
    writeAt Header.plaintextAt (Bytes.ofNatLE 8 s.size)
    writeAt Header.ciphertextAt (Bytes.ofNatLE 8 s.ciphertextSize)
    modify fun s => { s with sizeDirty := false }

/-- Writes everything that is not yet in the file. With `raw`, flushes the raw file as well,
deeply if it says so. Nothing happens unless the container is open for writing. -/
def flushAll (raw : Option Bool) : Op Unit := do
  let s ← get
  if s.isOpen && s.mode.isWrite then
    flushPooled s.pool.entries
    if (← get).current.any (·.dirty) then flushActive
    writeSize
    match raw with
    | some deep => Raw.flush deep
    | none => pure ()

/-! ## Closing -/

/-- Forgets everything that was known while the container was open, keys included. -/
def forgetAll : Op Unit :=
  modify fun s => { s with
    toContainer := { s.toContainer.forget with processor := s.processor.reset } }

/-- Flushes if asked to, and closes the raw file in any case. -/
def closeRaw (flush : Bool) : Op Unit := do
  if (← get).isOpen then
    -- the raw file is closed whether or not flushing failed
    let flushed ← if flush then Op.attempt (flushAll (some false)) else pure (.ok ())
    let closed ← Op.attempt Raw.close
    Op.ofExcept flushed
    Op.ofExcept closed

/-- Closes the container, whether or not flushing and closing the raw file succeed. -/
def shut (flush : Bool) : Op Unit := do
  let closed ← Op.attempt (closeRaw flush)
  forgetAll
  Op.ofExcept closed

/-! ## Opening -/

/-- Writes header and descriptor of a new container and an empty first chunk. -/
def createLayout : Op Unit := do
  let (metadata, processor) ← Op.ofDraw ((← get).processor.packMetadata 0)
  modify fun s => { s with processor }
  writeAt 0 metadata
  modify fun s => { s with layout := processor.layout metadata.length }
  moveTo 0 0
  flushActive
  writeSize

/-- Reads the next `n` bytes of the raw file; `short` makes the error of getting fewer. -/
def readExactly (n : Nat) (short : Nat → Error) : Op Bytes := do
  let data ← Raw.read n
  if data.length ≠ n then throw (short data.length)
  return data

/-- Takes over the sizes in a header and checks that they go together with each other, with the
length of the file and with the layout. -/
def loadSizes (info : HeaderInfo) : Op Unit := do
  modify fun s =>
    let layout := s.processor.layout (Header.size + info.descriptorSize)
    { s with
      layout
      ciphertextSize := info.ciphertextSize
      size := if s.processor.config.streaming
        then layout.streamedSize info.ciphertextSize s.processor.streamLead
        else info.plaintextSize }
  let s ← get
  let found := (← Raw.size) - s.layout.dataOffset
  -- a file may be longer than its chunk data, but not shorter
  if found < s.ciphertextSize then throw (.malformed (.missingData found s.ciphertextSize))
  match s.layout.seqnumOf? s.size with
  | none => throw (.malformed (.unaddressable s.size))
  | some eofSeqnum =>
    modify fun s => { s with eofSeqnum }
    match s.layout.packedBefore? eofSeqnum with
    | none => throw (.malformed (.overfull s.size s.ciphertextSize))
    | some needed =>
      -- the chunks in front of the last one are full, so they need this much
      if s.ciphertextSize < needed then throw (.malformed (.overfull s.size s.ciphertextSize))

/-- Reads header and descriptor of a container that is there and, unless only those are wanted,
makes the chunk of the first position current. -/
def loadLayout (metadataOnly : Bool) : Op Unit := do
  Raw.seek 0
  let header ← readExactly Header.size fun found => .malformed (.shortHeader Header.size found)
  let info ← Op.ofExcept ((← get).processor.unpackHeader header)
  let descriptor ← readExactly info.descriptorSize fun found =>
    .malformed (.shortDescriptor info.descriptorSize found)
  let processor ← Op.ofExcept ((← get).processor.unpackDescriptor descriptor)
  modify fun s => { s with processor }
  loadSizes info
  -- a closed container that is asked for its sizes needs no chunk
  if !metadataOnly then
    let s ← get
    let start := if s.mode.isAppend then s.size else 0
    moveTo start 0
    modify fun s => { s with seekCursor := start }

/-- Opens the container. -/
def launch (mode : Mode) (metadataOnly : Bool) : Op Unit := do
  let fileExists := (← get).disk.contains (← get).path
  -- the mode is settled before there is a raw file that could be closed again
  modify fun s =>
    let c := { s.toContainer.forget with mode }
    { s with toContainer := { c with useCache := c.cachePolicy } }
  Raw.openAs (mode.raw fileExists)
  let opened ← Op.attempt <|
    if mode.createsFile fileExists then createLayout else loadLayout metadataOnly
  match opened with
  | .ok () => pure ()
  -- whatever was opened is closed, and the first error is reported
  | .error e =>
    discard (Op.attempt (shut false))
    throw e

/-- Opens the container for users. Streamed chunks need a mode that goes with them. -/
def openIn (mode : Mode) : Op Unit := do
  let s ← get
  if s.isOpen then throw .alreadyOpen
  if s.processor.config.streaming && !mode.allowsStreaming then throw .streamMode
  launch mode false

/-- Flushes and closes the container, if it is open. -/
def close : Op Unit := do
  if (← get).isOpen then shut true

/-- Opens a closed container as far as its header and descriptor. -/
def launchMetadata (mode : Mode) : Op Unit := do
  if (← get).isOpen then throw .alreadyOpen
  launch mode true

/-- Closes a container that was opened as far as its metadata, and tells what came of it. An error
on the way comes before an error of closing. -/
def closeMetadata {α : Type} (result : Except Error α) : Op α := do
  let closed ← Op.attempt (shut false)
  let a ← Op.ofExcept result
  Op.ofExcept closed
  return a

/-- Runs a computation on a closed container opened as far as its metadata, and closes it again
whatever happens. -/
def withMetadata {α : Type} (mode : Mode) (x : Op α) : Op α := do
  launchMetadata mode
  closeMetadata (← Op.attempt x)

/-! ## Flushing for users -/

/-- Writes everything and flushes the raw file. -/
def flush (deep : Bool) : Op Unit := flushAll (some deep)

/-- Writes everything and synchronises the data. -/
def sync : Op Unit := do
  ensureOpen
  flushAll none
  Raw.sync

/-- Writes everything and synchronises the raw file with everything about it. -/
def fsync : Op Unit := do
  ensureOpen
  flushAll none
  Raw.fsync

end Vault.Container
