/-!
# `Vault/Layout.lean` — which chunk holds a position, and where a chunk lies

The content of a container is cut into chunks of a fixed capacity; only the first may have
another one. A capacity of 0 means that the chunk is not bounded, and nothing comes behind it.
Every chunk but the last is full, so **positions and raw offsets are pure arithmetic on the
capacities,** and this module is that arithmetic.

Chunks are numbered in 32 bits and raw offsets are 64-bit numbers. Where a result does not fit,
the answer is `none`: `seqnumOf?` for a position behind the last chunk that has a number, and
`packedBefore?` for a chunk that would begin behind the last offset.
-/

set_option autoImplicit false

namespace Vault

/-- One more than the largest chunk number. -/
def seqnumLimit : Nat := 0x100000000

/-- One more than the largest position, size or raw offset. -/
def offsetLimit : Nat := 0x10000000000000000

/-- The capacities of a container's chunks, plain and packed, and where its chunk data begins. -/
structure Layout where
  /-- The raw offset of chunk 0. -/
  dataOffset : Nat := 0
  /-- The capacity of chunk 0; 0 when it is not bounded. -/
  firstPlain : Nat := 0
  /-- The capacity of every other chunk; 0 when they are not bounded. -/
  plain : Nat := 0
  /-- The bytes that a full chunk 0 takes in the file; 0 when it is not bounded. -/
  firstPacked : Nat := 0
  /-- The bytes that any other full chunk takes in the file; 0 when they are not bounded. -/
  packed : Nat := 0
deriving DecidableEq

namespace Layout

/-- The bytes that a full chunk takes in the file. -/
def packedSize (overhead plain : Nat) : Nat := if plain = 0 then 0 else plain + overhead

/-- The layout with the given capacities and the given number of bytes added to each chunk. For
chunk 0 a capacity of 0 means the same as for the others. -/
def ofSizes (first chunk : UInt32) (overhead dataOffset : Nat) : Layout :=
  let firstPlain := if first = 0 then chunk.toNat else first.toNat
  { dataOffset, firstPlain
    plain := chunk.toNat
    firstPacked := packedSize overhead firstPlain
    packed := packedSize overhead chunk.toNat }

/-- The number of the chunk that holds a position, if there is a number for it. -/
def seqnumOf? (l : Layout) (pos : Nat) : Option Nat :=
  if l.firstPlain = 0 ∨ pos < l.firstPlain then some 0
  -- a chunk without bounds has room for all that follows
  else if l.plain = 0 then some 1
  else
    let seqnum := (pos - l.firstPlain) / l.plain + 1
    if seqnum < seqnumLimit then some seqnum else none

/-- The position at which a chunk begins. -/
def startOf (l : Layout) (seqnum : Nat) : Nat :=
  if seqnum = 0 then 0 else l.firstPlain + (seqnum - 1) * l.plain

/-- The raw offset at which a chunk begins. -/
def rawStartOf (l : Layout) (seqnum : Nat) : Nat :=
  if seqnum = 0 then l.dataOffset else l.dataOffset + l.firstPacked + (seqnum - 1) * l.packed

/-- The place of a position: the number of its chunk and the offset inside that. -/
def locate? (l : Layout) (pos : Nat) : Option (Nat × Nat) :=
  (l.seqnumOf? pos).map fun seqnum => (seqnum, pos - l.startOf seqnum)

/-- The offset of a position inside its chunk. -/
def offsetOf? (l : Layout) (pos : Nat) : Option Nat := (l.locate? pos).map (·.2)

/-- The bytes that the full chunks in front of a chunk take, if that is a 64-bit number. -/
def packedBefore? (l : Layout) (seqnum : Nat) : Option Nat :=
  if seqnum = 0 then some 0
  else
    let later := (seqnum - 1) * l.packed
    if later < offsetLimit ∧ later + l.firstPacked < offsetLimit then some (later + l.firstPacked)
    else none

/-- The size of the content of a container whose chunks are streamed, from the size of its chunk
data: every chunk starts with `lead` bytes that are no content. -/
def streamedSize (l : Layout) (ciphertextSize lead : Nat) : Nat :=
  if ciphertextSize = 0 then 0
  else if l.firstPlain = 0 ∨ ciphertextSize ≤ l.firstPacked then ciphertextSize - lead
  else
    let rest := ciphertextSize - l.firstPacked
    -- all of the rest is one chunk, or it is full chunks and what was begun behind them
    if l.plain = 0 then l.firstPlain + (rest - lead)
    else l.firstPlain + rest / l.packed * l.plain + (rest % l.packed - lead)

end Layout

end Vault
