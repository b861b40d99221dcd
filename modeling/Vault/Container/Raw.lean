import Vault.Container.Basic

/-!
# `Vault/Container/Raw.lean` — the raw file under a container

The calls by which a container reaches its raw file. Each of them first meets the armed faults
(`meetFault`); **a call that a fault makes fail has no other effect,** except that closing closes
in any case. After that a call needs an open file, and transfers bytes at the place of the handle.

A handle that was opened for reading refuses to write and to change the length. Containers never
try; a raw file opened behind a container's back may come to it.
-/

set_option autoImplicit false

namespace Vault.Raw

/-- Adds a line to the trace. -/
def note (event : Event) : Op Unit := modify fun s => { s with trace := event :: s.trace }

/-- Lets the armed faults see a call. Fails if one of them says so; otherwise tells whether the
call falls short by one byte. -/
def meetFault (call : RawCall) : Op Bool := do
  let s ← get
  let (effect, faults) := Fault.meet call s.faults
  set { s with faults }
  match effect with
  | none => return false
  | some .short => return true
  -- a failed read has an error of its own, and all other calls share one
  | some .fail => throw (if call = .read then .readFailed else .writeFailed)
  | some .fileError => throw (.file .unspecified)

/-- The handle, which has to be there. -/
def handle : Op Handle := do
  match (← get).handle with
  | some handle => return handle
  | none => throw .notOpen

/-- Puts the handle at another place. -/
def moveTo (handle : Handle) (position : Nat) : Op Unit :=
  modify fun s => { s with handle := some { handle with position } }

/-! ## Opening and closing -/

/-- Opens a file of the disk that is there. -/
def openExisting (writable : Bool) : Op Unit := do
  let s ← get
  match s.disk.find? s.path with
  | some file => set { s with handle := some { file, writable } }
  | none => throw (.file .notFound)

/-- Makes a new, empty file and opens it. -/
def openCreated : Op Unit := do
  let s ← get
  if Disk.hasPlace s.path then
    let (file, disk) := s.disk.create s.path []
    set { s with disk, handle := some { file, writable := true } }
  else throw (.file .notFound)

/-- Opens the raw file. -/
def openAs (mode : Mode) : Op Unit := do
  note (.opened mode)
  discard (meetFault .openFile)
  let s ← get
  if s.handle.isSome then throw .alreadyOpen
  match mode with
  | .scan | .read => openExisting false
  | .write =>
    -- the file is emptied if it is there
    match s.disk.find? s.path with
    | some file =>
      set { s with
        disk := s.disk.setContents file []
        handle := some { file, writable := true } }
    | none => openCreated
  | .writeNew => if s.disk.contains s.path then throw (.file .alreadyExists) else openCreated
  | .writeExisting | .append | .appendExisting => openExisting true

/-- Closes the raw file, in any case. -/
def close : Op Unit := do
  note .closed
  let met ← Op.attempt (meetFault .close)
  -- the handle is given up whether or not closing failed
  modify fun s => { s with handle := none }
  discard (Op.ofExcept met)

/-! ## Transfers -/

/-- Puts the handle at an absolute place. -/
def seek (position : Nat) : Op Unit := do
  discard (meetFault .seek)
  moveTo (← handle) position

/-- Reads up to `n` bytes at the place of the handle. -/
def read (n : Nat) : Op Bytes := do
  let short ← meetFault .read
  let handle ← handle
  -- a short read gives one byte less than it was asked for
  let data := ((← get).disk.contents handle.file).slice handle.position (if short then n - 1 else n)
  moveTo handle (handle.position + data.length)
  note (.read handle.position data.length)
  return data

/-- Writes bytes at the place of the handle; the answer is their number. -/
def write (data : Bytes) : Op Nat := do
  let short ← meetFault .write
  let handle ← handle
  -- a short write takes one byte less, and says so in its answer
  let data := if short then data.dropLast else data
  if data ≠ [] then
    if !handle.writable then throw (.file .notWritable)
    modify fun s => { s with
      disk := s.disk.setContents handle.file
        ((s.disk.contents handle.file).overlay handle.position data) }
  moveTo handle (handle.position + data.length)
  note (.wrote handle.position data.length)
  return data.length

/-- Cuts the file to a length, or extends it with zeros. -/
def truncate (size : Nat) (durable : Bool) : Op Unit := do
  note (.truncated size durable)
  discard (meetFault .truncate)
  let handle ← handle
  if !handle.writable then throw (.file .notResizable)
  modify fun s => { s with
    disk := s.disk.setContents handle.file ((s.disk.contents handle.file).resize size) }

/-- The length of the file. -/
def size : Op Nat := do
  discard (meetFault .size)
  let handle ← handle
  return ((← get).disk.contents handle.file).length

/-! ## Making it last -/

/-- Flushes what was written. -/
def flush (deep : Bool) : Op Unit := do
  note (.flushed deep)
  discard (meetFault .flush)
  discard handle

/-- Synchronises the data. -/
def sync : Op Unit := do
  note .synced
  discard (meetFault .sync)
  discard handle

/-- Synchronises the data and everything about the file. -/
def fsync : Op Unit := do
  note .fsynced
  discard (meetFault .fsync)
  discard handle

end Vault.Raw
