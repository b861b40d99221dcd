import Vault.Container.Resize

/-!
# `Vault/Container/Upkeep.lean` — sizes and the chunks in memory

What a container can be asked about its sizes, and what it can be told about the chunks it keeps.
**None of this changes the content.** Sizes can be asked of a closed container too, which is then
opened as far as its metadata.
-/

set_option autoImplicit false

namespace Vault.Container

/-! ## Sizes -/

/-- The size of the content. -/
def contentSize : Op Nat := do
  if (← get).isOpen then return (← get).size
  else withMetadata .scan do return (← get).size

/-- The bytes of header, descriptor and chunk data in the file. Of an open container the last
chunk is written first. -/
def usedSize : Op Nat := do
  if (← get).isOpen then
    flushLast
    return (← get).eofPos
  else withMetadata .scan do return (← get).eofPos

/-- The length of the raw file, whatever stands in it. -/
def storageSize : Op Nat := do
  let s ← get
  match s.disk.read? s.path with
  | some data => return data.length
  | none => throw (.file .notFound)

/-! ## Chunks in memory -/

/-- Writes everything, forgets all chunks and reads the current one again. -/
def invalidate : Op Unit := do
  ensureOpen
  let s ← get
  if s.mode.isWrite then flushAll none
  modify fun s => { s with pool := s.pool.clear }
  if !s.mode.isAppend then
    modify fun s => { s with current := none }
    moveTo (← get).cursor 0

/-- Changes the number of chunks in memory, which is at least 1. Chunks that have to make way are
written. -/
def setMaxCached (count : Nat) : Op Unit := do
  let count := max count 1
  let s ← get
  let (evicted, pool) := s.pool.setCapacity count
  set { s with config.maxCachedChunks := count, pool }
  flushEvicted evicted

/-- Allows or forbids keeping chunks. When they may no longer be kept, those in the pool are
written and forgotten. -/
def setCacheEnabled (enabled : Bool) : Op Unit := do
  modify fun s => { s with config.cacheEnabled := enabled }
  let s ← get
  if s.isOpen then
    let useCache := s.cachePolicy
    if useCache then set { s with useCache }
    else
      let (pooled, pool) := s.pool.drain
      set { s with useCache, pool }
      flushEvicted pooled

end Vault.Container
