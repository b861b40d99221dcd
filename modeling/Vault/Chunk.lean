import Vault.Bytes

/-!
# `Vault/Chunk.lean` — a chunk in memory

A decrypted chunk with a place in it (`offset`), and what has to be known to write it back: how
many bytes it takes in the file, and whether it was changed since. **A chunk never shrinks by
reading or writing;** a write behind its end fills the gap with zeros.
-/

set_option autoImplicit false

namespace Vault

/-- A decrypted chunk. -/
structure Chunk where
  seqnum : Nat := 0
  content : Bytes := []
  /-- The place inside the content. -/
  offset : Nat := 0
  /-- The capacity; 0 when the chunk is not bounded. -/
  maxSize : Nat := 0
  /-- The bytes that the chunk takes in the file. -/
  ciphertextSize : Nat := 0
  /-- Changed since it was last written? -/
  dirty : Bool := false
  /-- For a streamed chunk: the bytes of the content that are already encrypted and written. -/
  streamed : Nat := 0
deriving DecidableEq

namespace Chunk

/-- An empty chunk. -/
def new (seqnum maxSize : Nat) : Chunk := { seqnum, maxSize }

/-- The room behind the place, or nothing for a chunk without bound. -/
def available (c : Chunk) : Option Nat :=
  if c.maxSize = 0 then none else some (c.maxSize - c.offset)

/-- The bytes of content behind the place. -/
def remaining (c : Chunk) : Nat := c.content.length - c.offset

/-- The chunk with data written at its place, and how many bytes it grew by. -/
def write (c : Chunk) (data : Bytes) : Nat × Chunk :=
  let content := c.content.overlay c.offset data
  (content.length - c.content.length, { c with content, offset := c.offset + data.length })

/-- At most `n` bytes from the place on, and the chunk standing behind them. -/
def read (c : Chunk) (n : Nat) : Bytes × Chunk :=
  let data := c.content.slice c.offset n
  (data, { c with offset := c.offset + data.length })

@[simp] theorem length_read (c : Chunk) (n : Nat) : (c.read n).1.length = min n c.remaining := by
  simp [read, Bytes.slice, remaining]

end Chunk

end Vault
