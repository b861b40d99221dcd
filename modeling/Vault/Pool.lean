import Vault.Chunk

/-!
# `Vault/Pool.lean` — the chunks kept in memory

A container works on one chunk at a time, which is not in here. A chunk enters the pool when the
container moves on and leaves it when the container comes back, so that the capacity counts the
working chunk too: **at most `capacity - 1` chunks are pooled.** When there is no room, the chunk
that was put in longest ago makes way and is handed back to the caller, who has to write it if it
is dirty.
-/

set_option autoImplicit false

namespace Vault

/-- The pooled chunks, the one put in last at the end, and the number of chunks in memory. -/
structure Pool where
  entries : List Chunk := []
  capacity : Nat
deriving DecidableEq

namespace Pool

/-- An empty pool; the working chunk always has room. No room for the entries is set aside in
advance: the allocation of a queue of this capacity, which can be too large for one, is left out. -/
def new (capacity : Nat) : Pool := { capacity := max capacity 1 }

/-- The number of pooled chunks. -/
def size (p : Pool) : Nat := p.entries.length

/-- The numbers of the pooled chunks, the one put in last at the end. -/
def seqnums (p : Pool) : List Nat := p.entries.map (·.seqnum)

/-- Is a chunk pooled? -/
def contains (p : Pool) (seqnum : Nat) : Bool := p.entries.any fun c => c.seqnum == seqnum

/-- Takes a chunk out. -/
def take (p : Pool) (seqnum : Nat) : Option Chunk × Pool :=
  (p.entries.find? fun c => c.seqnum == seqnum,
    { p with entries := p.entries.eraseP fun c => c.seqnum == seqnum })

/-- Puts a chunk in, in place of one with the same number, and hands back the chunk that had to
make way. -/
def insert (p : Pool) (chunk : Chunk) : Option Chunk × Pool :=
  let entries := p.entries.filter (fun c => c.seqnum != chunk.seqnum) ++ [chunk]
  -- the working chunk counts too, so there is room for one entry less than the capacity
  if p.capacity ≤ entries.length then (entries.head?, { p with entries := entries.tail })
  else (none, { p with entries })

/-- Changes the capacity and hands back the chunks that had to make way, the oldest first. -/
def setCapacity (p : Pool) (capacity : Nat) : List Chunk × Pool :=
  let capacity := max capacity 1
  let excess := p.entries.length + 1 - capacity
  (p.entries.take excess, { entries := p.entries.drop excess, capacity })

/-- Takes all chunks out. -/
def drain (p : Pool) : List Chunk × Pool := (p.entries, { p with entries := [] })

/-- Puts chunks behind the pooled ones, in their order and whatever the capacity. -/
def restore (p : Pool) (chunks : List Chunk) : Pool := { p with entries := p.entries ++ chunks }

/-- Forgets all chunks. -/
def clear (p : Pool) : Pool := { p with entries := [] }

/-- Puts a chunk in the place of the pooled one with the same number. -/
def refresh (p : Pool) (chunk : Chunk) : Pool :=
  { p with entries := p.entries.map fun c => if c.seqnum = chunk.seqnum then chunk else c }

end Pool

end Vault
