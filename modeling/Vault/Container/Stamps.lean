import Vault.Container.Opening
import Vault.Record.Stamp

/-!
# `Vault/Container/Stamps.lean` — integrity values of a container

A digest or an authentication code covers the raw bytes up to the end of the chunk data. It can be
computed, compared with one that is known, or put into the stamp that stands behind the chunk
data. All of this is done on a closed container, which is opened as far as its metadata and closed
again on every path — but where blocks are configured that are larger than any buffer can be. There
hashing breaks off before it reads anything, and leaves the container open.

**Setting one field of the stamp keeps the other,** if the stamp that is there can be read; if it
cannot, for whatever reason, a new stamp is started.
-/

set_option autoImplicit false

namespace Vault.Container

/-! ## Hashing -/

/-- Feeds the raw bytes from the place of the handle on, `left` of them, a block at a time. Each
turn reads at least one byte, so `left` turns are enough. -/
def hashBlocks (block : Nat) : (turns left : Nat) → StampHasher → Op StampHasher
  | 0, _, hasher => return hasher
  | turns + 1, left, hasher => do
    if left = 0 then return hasher
    else
      -- the last block may be shorter
      let len := min left block
      let data ← readExactly len fun _ => .readFailed
      hashBlocks block turns (left - len) (hasher.update data)

/-- The hash of the raw bytes up to the end of the chunk data, of a container that is open. A whole
block is asked for first, however little there is to be read; there is no hash if that is more than
a buffer can be. -/
def hashOpen (kind : StampKind) : Op (Option StampHasher) := do
  let s ← get
  let hasher ← Op.ofExcept (s.processor.stampHasher kind)
  let block := max s.config.maxProcessingSize 1
  -- the block is not made smaller for a short file
  if allocationLimit < block then return none
  Raw.seek 0
  return some (← hashBlocks block s.eofPos s.eofPos hasher)

/-- The hash of the raw bytes up to the end of the chunk data. Where there is none the program
breaks off, and does not come to closing the container. -/
def hashFile (kind : StampKind) : Op StampHasher := do
  launchMetadata .scan
  match ← Op.attempt (hashOpen kind) with
  | .ok none => throw .brokenOff
  | .ok (some hasher) => closeMetadata (.ok hasher)
  | .error e => closeMetadata (.error e)

/-- The digest of the raw bytes up to the end of the chunk data. -/
def digest : Op Bytes := do return (← hashFile .digest).finish

/-- The authentication code of the raw bytes up to the end of the chunk data. -/
def mac : Op Bytes := do return (← hashFile .mac).finish

/-- Compares an integrity value with an expected one. -/
def verify (kind : StampKind) (expected : Bytes) : Op Unit := do
  let hasher ← hashFile kind
  Op.ofExcept ((hasher.verify expected).mapError .crypto)

/-- Compares the digest with an expected one. -/
def verifyDigest (expected : Bytes) : Op Unit := verify .digest expected

/-- Compares the authentication code with an expected one. -/
def verifyMac (expected : Bytes) : Op Unit := verify .mac expected

/-! ## The stamp behind the chunk data -/

/-- Reads the stamp of a container that is open. -/
def readStamp : Op Stamp := do
  let start := (← get).eofPos
  let available := (← Raw.size) - start
  -- nothing stands there, or not even a length
  if available < Stamp.lengthSize then throw (.stampFailed .absent)
  Raw.seek start
  let length := Bytes.toNatLE
    (← readExactly Stamp.lengthSize fun _ => .stampFailed .absent)
  if length = 0 ∨ available - Stamp.lengthSize < length then
    throw (.stampFailed (.length length available))
  let record ← readExactly length fun _ => .stampFailed .short
  Op.ofExcept ((Stamp.parse record).mapError fun e => .stampFailed (.record e))

/-- The stamp of a container. -/
def loadStamp : Op Stamp := withMetadata .read readStamp

/-- Puts a stamp behind the chunk data of a container that is open, and nothing behind it. -/
def writeStamp (framed : Bytes) : Op Unit := do
  let start := (← get).eofPos
  writeAt start framed
  Raw.truncate (start + framed.length) false
  Raw.flush false

/-- Computes an integrity value and puts it into the stamp. -/
def stamp (kind : StampKind) : Op Unit := do
  let value := (← hashFile kind).finish
  -- why a stamp could not be loaded is not asked
  let stamp := match ← Op.attempt loadStamp with
    | .ok stamp => stamp
    | .error _ => {}
  let stamp ← Op.ofExcept <| Except.mapError Error.record <| match kind with
    | .digest => stamp.setDigest value
    | .mac => stamp.setMac value
  let framed ← Op.ofExcept (stamp.buildFramed.mapError .record)
  withMetadata .writeExisting (writeStamp framed)

/-- Puts the digest into the stamp. -/
def stampDigest : Op Unit := stamp .digest

/-- Puts the authentication code into the stamp. -/
def stampMac : Op Unit := stamp .mac

/-- Compares the integrity value in the stamp with a recomputed one. -/
def checkStamp (kind : StampKind) : Op Unit := do
  let stamp ← loadStamp
  let field := match kind with
    | .digest => stamp.digest
    | .mac => stamp.mac
  match field with
  | none => throw (.stampFailed (.lacks kind))
  | some expected => verify kind expected

/-- Compares the digest in the stamp with a recomputed one. -/
def checkStampDigest : Op Unit := checkStamp .digest

/-- Compares the authentication code in the stamp with a recomputed one. -/
def verifyStampMac : Op Unit := checkStamp .mac

end Vault.Container
