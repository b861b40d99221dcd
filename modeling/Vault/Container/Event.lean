import Vault.Mode

/-!
# `Vault/Container/Event.lean` — the trace of a container

A container notes what it asks of its raw file and of its processor, in order. Moving about in the
raw file and asking for its size leave no trace; reading and writing are noted with the place and
the count once they are done, everything else when it is tried.
-/

set_option autoImplicit false

namespace Vault

/-- One line of a trace. -/
inductive Event where
  /-- The raw file is opened. -/
  | opened (mode : Mode)
  /-- The raw file is closed. -/
  | closed
  /-- `count` bytes were read at an offset. -/
  | read (offset count : Nat)
  /-- `count` bytes were written at an offset. -/
  | wrote (offset count : Nat)
  /-- The raw file is cut or extended. -/
  | truncated (size : Nat) (durable : Bool)
  /-- The raw file is flushed. -/
  | flushed (deep : Bool)
  /-- The data of the raw file is synchronised. -/
  | synced
  /-- The raw file is synchronised with everything about it. -/
  | fsynced
  /-- A chunk of `size` bytes is packed. -/
  | packed (seqnum size : Nat)
  /-- A packed chunk of `size` bytes is unpacked. -/
  | unpacked (seqnum size : Nat)
  /-- The stream of a new chunk is started. -/
  | streamStarted (seqnum : Nat)
  /-- The stream of a chunk is gone on with. -/
  | streamResumed (seqnum offset : Nat)
  /-- `size` bytes are encrypted with the stream. -/
  | streamed (size : Nat)
deriving DecidableEq

namespace Event

/-- The line as it is shown. -/
def line : Event → String
  | opened mode => s!"open {mode.name}"
  | closed => "close"
  | read offset count => s!"read {offset} {count}"
  | wrote offset count => s!"write {offset} {count}"
  | truncated size durable => s!"truncate {size} {durable}"
  | flushed deep => s!"flush {deep}"
  | synced => "sync"
  | fsynced => "fsync"
  | packed seqnum size => s!"pack {seqnum} {size}"
  | unpacked seqnum size => s!"unpack {seqnum} {size}"
  | streamStarted seqnum => s!"init {seqnum}"
  | streamResumed seqnum offset => s!"resume {seqnum} {offset}"
  | streamed size => s!"stream {size}"

end Event

end Vault
