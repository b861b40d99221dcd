import Vault.Bytes

/-!
# `Vault/Container/Fault.lean` — failures on demand

What a container does when its raw file fails can only be said if the failure can be named. A raw
file therefore carries a list of armed faults, each waiting for a certain call. **A call is seen
by the first fault that waits for it and by no other:** that fault either counts down or fires and
is gone.
-/

set_option autoImplicit false

namespace Vault

/-- The calls of a raw file. -/
inductive RawCall where
  | openFile
  | close
  | seek
  | read
  | write
  | truncate
  | flush
  | size
  | sync
  | fsync
deriving DecidableEq

namespace RawCall

/-- All calls. -/
def all : List RawCall := [openFile, close, seek, read, write, truncate, flush, size, sync, fsync]

/-- The name by which a fault is armed. -/
def name : RawCall → String
  | openFile => "open"
  | close => "close"
  | seek => "seek"
  | read => "read"
  | write => "write"
  | truncate => "truncate"
  | flush => "flush"
  | size => "size"
  | sync => "sync"
  | fsync => "fsync"

/-- The call with a name. -/
def ofName? (name : String) : Option RawCall := all.find? fun c => c.name == name

end RawCall

/-- What a fault does to the call it fires on. -/
inductive FaultEffect where
  /-- The call fails like any read or write that is not possible. -/
  | fail
  /-- The call fails with an error of the file. -/
  | fileError
  /-- The call transfers one byte less than asked. On a call that transfers nothing this is no
  effect at all. -/
  | short
deriving DecidableEq

/-- A fault that waits for a call. -/
structure Fault where
  call : RawCall
  /-- The calls that are let through before the fault fires. -/
  after : Nat
  effect : FaultEffect
deriving DecidableEq

namespace Fault

/-- A call meets the armed faults: what the fault that fires does, if one does, and the faults
still armed. -/
def meet (call : RawCall) : List Fault → Option FaultEffect × List Fault
  | [] => (none, [])
  | fault :: rest =>
    if fault.call = call then
      if fault.after = 0 then (some fault.effect, rest)
      else (none, { fault with after := fault.after - 1 } :: rest)
    else
      let (effect, rest) := meet call rest
      (effect, fault :: rest)

end Fault

end Vault
