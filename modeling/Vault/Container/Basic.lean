import Vault.Container.Event
import Vault.Container.Fault
import Vault.Disk
import Vault.Pool
import Vault.Processor
import Vault.Text.Quoted

/-!
# `Vault/Container/Basic.lean` — what a container is

A container is a file that looks like a plain string of bytes and lies on the disk in encrypted
chunks. Its parts:

* a `Processor` for keys, metadata and chunks;
* a `Handle` on its raw file while that is open, with the faults armed for it;
* the `Opening`: everything that is known about the content while the container is open. **A
  closed container is one whose opening is the default one,** so closing forgets by assignment and
  nothing can be left over;
* the `Pool` of chunks that are in memory besides the current one.

Operations run on a `Session`: a container together with the disk it lies on and the source of
randomness it draws from. They are computations in `Op`, which answer or fail, and **what they
changed before they failed stays changed.**
-/

set_option autoImplicit false

namespace Vault

/-- An open raw file: the file on the disk, and the place of the next transfer in it. -/
structure Handle where
  file : Nat
  position : Nat := 0
  writable : Bool
deriving DecidableEq

/-- What is known about the content of an open container. -/
structure Opening where
  mode : Mode := .scan
  /-- Are chunks kept when the container moves on? -/
  useCache : Bool := false
  layout : Layout := {}
  /-- The position of the current chunk's place. -/
  cursor : Nat := 0
  /-- The position asked for, which may lie behind the end. -/
  seekCursor : Nat := 0
  /-- The size of the content. -/
  size : Nat := 0
  /-- The size of the chunk data. -/
  ciphertextSize : Nat := 0
  /-- The number of the chunk that holds the end. -/
  eofSeqnum : Nat := 0
  /-- Do the sizes differ from those in the header? -/
  sizeDirty : Bool := false
  /-- Was everything behind the chunk data already cut off? -/
  tailCut : Bool := false
  /-- The chunk being worked on. -/
  current : Option Chunk := none
deriving DecidableEq

/-- An encrypted file. -/
structure Container extends Opening where
  /-- The name of the raw file. -/
  path : String
  processor : Processor
  config : ContainerConfig
  pool : Pool
  /-- The raw file, while it is open. -/
  handle : Option Handle := none
  /-- The faults armed for the raw file, in the order of arming. -/
  faults : List Fault := []
  /-- What the container did, the last first. -/
  trace : List Event := []
deriving DecidableEq

/-- A container, the disk it lies on, and the source of randomness. -/
structure Session extends Container where
  disk : Disk
  random : Random

/-- A computation on a session that answers or fails. What it changed stays, either way. -/
abbrev Op (α : Type) := EStateM Error Session α

namespace Op

/-- The answer or the error of a computation, as a value. -/
def attempt {α : Type} (x : Op α) : Op (Except Error α) := fun s =>
  match x s with
  | .ok a s => .ok (.ok a) s
  | .error e s => .ok (.error e) s

/-- An answer or an error that is already there. -/
def ofExcept {α : Type} : Except Error α → Op α
  | .ok a => pure a
  | .error e => throw e

/-- A computation that only draws random bytes. -/
def ofDraw {α : Type} (x : Draw α) : Op α := fun s =>
  match x s.random with
  | .ok a random => .ok a { s with random }
  | .error e random => .error e { s with random }

end Op

namespace Container

/-- A closed container; its configuration has to be one that can be used. -/
def new (path : String) (processor : Processor) (config : ContainerConfig) :
    Except Error Container :=
  match config.validate with
  | .error e => .error e
  | .ok () => .ok { path, processor, config, pool := Pool.new config.maxCachedChunks }

/-- Is the raw file open? -/
def isOpen (c : Container) : Bool := c.handle.isSome

/-- The position of the next read or write. -/
def pos (c : Container) : Nat := c.seekCursor

/-- The raw offset behind the chunk data. -/
def eofPos (c : Container) : Nat := c.layout.dataOffset + c.ciphertextSize

/-- The number of chunks in memory. -/
def chunksInMemory (c : Container) : Nat := c.pool.size + if c.current.isSome then 1 else 0

/-- Do configuration, mode and cipher allow chunks to be kept? -/
def cachePolicy (c : Container) : Bool :=
  c.config.cacheEnabled && c.mode.allowsCache && !c.processor.config.streaming

/-- The container without anything it knew while it was open. -/
def forget (c : Container) : Container :=
  { c with toOpening := {}, pool := c.pool.clear }

/-- The container with one more fault armed. -/
def arm (c : Container) (fault : Fault) : Container := { c with faults := c.faults ++ [fault] }

/-- The container with all faults disarmed. -/
def disarm (c : Container) : Container := { c with faults := [] }

/-- What the container did since its trace was last taken, in order, and the container with an
empty trace. -/
def takeTrace (c : Container) : List Event × Container :=
  (c.trace.reverse, { c with trace := [] })

/-- The container with another size for the blocks of growing and hashing, at least 1. -/
def setBlock (c : Container) (size : Nat) : Container :=
  { c with config.maxProcessingSize := max size 1 }

/-- What is shown of a container. -/
def describe (c : Container) : String :=
  s!"CryptFile \x7b path: {Text.quoted c.path}, open: {c.isOpen}, mode: {c.mode.name}, " ++
  s!"size: {c.size}, pos: {c.pos}, .. \x7d"

end Container

end Vault
