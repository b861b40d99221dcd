import Vault.Cipher.Sealed
import Vault.Cipher.Stream
import Vault.Config
import Vault.Layout
import Vault.Record.Descriptor
import Vault.Record.Header

/-!
# `Vault/Processor.lean` — keys, metadata and chunk encryption of a container

A `Processor` holds the master key and the configuration for new containers, and, while a
container is open, the working keys and the chunk capacities that its descriptor names. A
container never looks at keys or record bytes itself; it asks its processor.

**An operation that fails leaves the processor as it was.** Therefore the result of each is an
answer together with the new processor, or an error and nothing. What an operation draws from the
source of randomness is spent even when it fails, so those that draw are a `Draw`.
-/

set_option autoImplicit false

namespace Vault

/-- A computation that draws random bytes and may fail; what it drew stays spent. -/
abbrev Draw (α : Type) := EStateM Error Random α

/-- `n` random bytes. -/
def Draw.bytes (n : Nat) : Draw Bytes := modifyGet fun random => random.draw n

/-- An answer or an error that is already there. -/
def Draw.ofExcept {α : Type} : Except Error α → Draw α
  | .ok a => pure a
  | .error e => throw e

/-- What a header says about the sizes of a container. -/
structure HeaderInfo where
  plaintextSize : Nat
  descriptorSize : Nat
  ciphertextSize : Nat
deriving DecidableEq

/-! ## Working keys -/

/-- The keys of one open container. -/
structure WorkingKeys where
  deriver : KeyDeriver
  chunk : ChunkCipher
  /-- The key of the stream cipher, if the suite has one. -/
  stream : Option Bytes
deriving DecidableEq

/-- The keys that a master key and the contents of a descriptor lead to. -/
def WorkingKeys.derive (master : MasterKey) (kdf : Kdf) (suite : Suite) (salt : Bytes)
    (rounds : Nat) : Except CryptoError WorkingKeys :=
  match KeyDeriver.ofMaster master kdf salt rounds with
  | .error e => .error e
  | .ok deriver => .ok
    { deriver
      chunk := ChunkCipher.ofKey (deriver.derive KeyDeriver.chunkLabel)
      stream := if suite.streams then some (deriver.derive KeyDeriver.streamLabel) else none }

/-- Keys, metadata and chunk encryption of a container. -/
structure Processor where
  master : MasterKey
  /-- How new containers are made. -/
  config : ProcessorConfig
  /-- The suite of the open container. -/
  suite : Suite
  /-- The key derivation of the open container. -/
  kdf : Kdf
  /-- The capacity of chunk 0 of the open container; 0 when it is that of the others. -/
  firstMax : UInt32
  /-- The capacity of the other chunks of the open container; 0 when they are not bounded. -/
  chunkMax : UInt32
  keys : Option WorkingKeys
  stream : Option StreamEncryptor
deriving DecidableEq

namespace Processor

/-- A processor without keys, as its configuration has it. -/
def ofConfig (master : MasterKey) (config : ProcessorConfig) : Processor :=
  { master, config
    suite := config.suite
    kdf := config.kdf
    firstMax := config.firstMax
    chunkMax := config.chunkMax
    keys := none
    stream := none }

/-- The processor of a configuration that can be used. -/
def new (master : MasterKey) (config : ProcessorConfig) : Except Error Processor :=
  match config.validate with
  | .error e => .error e
  | .ok () => .ok (ofConfig master config)

/-- Forgets keys and stream, and returns to the configuration. -/
def reset (p : Processor) : Processor := ofConfig p.master p.config

/-! ## Sizes -/

/-- The capacity of a chunk; 0 when it is not bounded. -/
def maxPlainSize (p : Processor) (seqnum : Nat) : Nat :=
  if seqnum = 0 ∧ p.firstMax ≠ 0 then p.firstMax.toNat else p.chunkMax.toNat

/-- The bytes at the start of a streamed chunk that are no content. -/
def streamLead (p : Processor) : Nat := if p.config.streaming then Salsa20.nonceSize else 0

/-- The bytes that packing adds to a chunk. -/
def overhead (p : Processor) : Nat :=
  if p.config.streaming then Salsa20.nonceSize else ChunkCipher.overhead

/-- The bytes that a full chunk takes in the file; a chunk without bound takes what is there. -/
def maxPackedSize (p : Processor) (seqnum there : Nat) : Nat :=
  if p.maxPlainSize seqnum = 0 then there else p.maxPlainSize seqnum + p.overhead

/-- The layout of the open container, whose chunk data begins at `dataOffset`. -/
def layout (p : Processor) (dataOffset : Nat) : Layout where
  dataOffset
  firstPlain := p.maxPlainSize 0
  plain := p.maxPlainSize 1
  firstPacked := p.maxPackedSize 0 0
  packed := p.maxPackedSize 1 0

/-! ## Keys -/

/-- The working keys, if they were derived. -/
def workingKeys (p : Processor) : Except Error WorkingKeys :=
  match p.keys with
  | some keys => .ok keys
  | none => .error (.crypto .noWorkingKey)

/-- The key of the stream cipher. -/
def streamKey (p : Processor) : Except Error Bytes :=
  match p.workingKeys with
  | .error e => .error e
  | .ok keys =>
    match keys.stream with
    | some key => .ok key
    | none => .error (.unsupported (.noStream p.suite))

/-! ## Metadata -/

/-- The descriptor of a new container with a given salt. -/
def newDescriptor (p : Processor) (salt : Bytes) : Except Error Descriptor :=
  (Descriptor.new p.config.kdf.id p.config.suite.id p.config.rounds p.config.firstMax
    p.config.chunkMax salt).mapError .record

/-- Header and descriptor of a new container, and the processor with its keys. -/
def packMetadata (p : Processor) (initialSize : UInt64) : Draw (Bytes × Processor) := do
  let salt ← Draw.bytes KeyDeriver.saltSize
  let descriptor ← Draw.ofExcept (p.newDescriptor salt)
  let header :=
    Header.new p.config.streaming (UInt16.ofNat descriptor.encodedSize) initialSize
  let keys ← Draw.ofExcept
    ((WorkingKeys.derive p.master p.config.kdf p.config.suite salt p.config.rounds.toNat).mapError
      .crypto)
  return (header.build ++ descriptor.build, { p.reset with keys := some keys })

/-- The sizes in a header of the right kind of container. -/
def unpackHeader (p : Processor) (data : Bytes) : Except Error HeaderInfo :=
  match Header.parse data with
  | .error e => .error (.malformed (.header e))
  | .ok header =>
    if header.streaming = p.config.streaming then .ok
      { plaintextSize := header.plaintextSize.toNat
        descriptorSize := header.descriptorSize.toNat
        ciphertextSize := header.ciphertextSize.toNat }
    else .error .streamMode

/-- The processor with the keys and capacities that a descriptor leads to. -/
def unpackDescriptor (p : Processor) (data : Bytes) : Except Error Processor := do
  let descriptor ← (Descriptor.parse data).mapError fun e => .malformed (.descriptor e)
  let kdf ← (Kdf.ofId descriptor.kdf).mapError fun _ => .malformed (.unknownKdf descriptor.kdf)
  let suite ← (Suite.ofId descriptor.suite).mapError fun _ =>
    .unsupported (.unknownSuite descriptor.suite)
  -- a suite without a stream is not tried, since it has no key for one
  if p.config.streaming && !suite.streams then throw (.unsupported (.noStream suite))
  let keys ← (WorkingKeys.derive p.master kdf suite descriptor.salt
    descriptor.rounds.toNat).mapError .crypto
  return { p with
    suite, kdf
    firstMax := descriptor.firstMax
    chunkMax := descriptor.chunkMax
    keys := some keys
    stream := none }

/-! ## Chunks -/

/-- The packed form of a chunk, under a fresh nonce. A streaming processor packs nothing: its
chunks are written as they grow. -/
def packChunk (p : Processor) (plain : Bytes) (seqnum : Nat) : Draw Bytes :=
  if p.config.streaming then pure []
  else do
    let keys ← Draw.ofExcept p.workingKeys
    let nonce ← Draw.bytes Gcm.nonceSize
    return keys.chunk.pack nonce plain seqnum

/-- The chunk in a packed form. -/
def unpackChunk (p : Processor) (packed : Bytes) (seqnum : Nat) : Except Error Bytes :=
  if p.config.streaming then
    match p.streamKey with
    | .error e => .error e
    | .ok key => (StreamEncryptor.openChunk key packed).mapError .crypto
  else
    match p.workingKeys with
    | .error e => .error e
    | .ok keys => (keys.chunk.unpack packed seqnum).mapError .crypto

/-! ## Streams -/

/-- The number of the chunk that the stream belongs to. -/
def streamSeqnum (p : Processor) : Option Nat := p.stream.map (·.seqnum)

/-- Starts the stream of a new chunk; the answer is the nonce that the chunk begins with. The
nonce is drawn before the key is looked for. -/
def startStream (p : Processor) (seqnum : Nat) : Draw (Bytes × Processor) := do
  let nonce ← Draw.bytes Salsa20.nonceSize
  let key ← Draw.ofExcept p.streamKey
  let stream ← Draw.ofExcept ((StreamEncryptor.start key nonce seqnum).mapError .crypto)
  return (nonce, { p with stream := some stream })

/-- Goes on with the stream of a chunk that has a nonce and `offset` bytes already. -/
def resumeStream (p : Processor) (nonce : Bytes) (seqnum offset : Nat) :
    Except Error Processor := do
  let key ← p.streamKey
  let stream ← (StreamEncryptor.start key nonce seqnum).mapError .crypto
  return { p with stream := some (stream.seek offset) }

/-- The next bytes of the stream's chunk, encrypted. -/
def encryptStream (p : Processor) (plain : Bytes) : Except Error (Bytes × Processor) :=
  match p.stream with
  | none => .error (.crypto .noStream)
  | some stream =>
    let (data, stream) := stream.apply plain
    .ok (data, { p with stream := some stream })

/-! ## Stamps -/

/-- The computation of an integrity value; an authentication code takes the working keys. -/
def stampHasher (p : Processor) : StampKind → Except Error StampHasher
  | .digest => .ok StampHasher.newDigest
  | .mac =>
    match p.workingKeys with
    | .error e => .error e
    | .ok keys => .ok (StampHasher.newMac (keys.deriver.derive KeyDeriver.macLabel))

/-- What may be shown of a processor: everything but its keys. -/
def describe (p : Processor) : String :=
  s!"ContainerProcessor \x7b suite: {p.suite.label}, kdf: {p.kdf.label}, " ++
  s!"first_chunk_max_size: {p.firstMax.toNat}, chunk_max_size: {p.chunkMax.toNat}, " ++
  s!"streaming: {p.config.streaming}, keyed: {p.keys.isSome}, .. \x7d"

end Processor

end Vault
