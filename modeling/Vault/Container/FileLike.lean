import Vault.Container.Resize

/-!
# `Vault/Container/FileLike.lean` — a container for programs that only know files

Reading, writing, flushing and seeking with the errors of files. **A relative position is
computed before anything else,** so that a target in front of the content is refused even on a
closed container, where size and position count as 0.
-/

set_option autoImplicit false

namespace Vault

/-- A computation on a session whose errors are those of files. -/
abbrev FileOp (α : Type) := EStateM FileError Session α

namespace FileOp

/-- A computation on a container, seen as one on a file. -/
def ofOp {α : Type} (x : Op α) : FileOp α := fun s =>
  match x s with
  | .ok a s => .ok a s
  | .error e s => .error e.toFileError s

end FileOp

/-- A position, absolute or relative. -/
inductive SeekFrom where
  /-- So many bytes behind the start. -/
  | start (offset : Nat)
  /-- So many bytes behind the end. -/
  | fromEnd (delta : Int)
  /-- So many bytes behind the position. -/
  | current (delta : Int)
deriving DecidableEq

namespace Container

/-- The position that lies `delta` behind another one, if it is a 64-bit number. -/
def shifted? (base : Nat) (delta : Int) : Option Nat :=
  let target := (base : Int) + delta
  if 0 ≤ target ∧ target < (offsetLimit : Int) then some target.toNat else none

/-- The absolute position. -/
def target? (c : Container) : SeekFrom → Option Nat
  | .start offset => some offset
  | .fromEnd delta => shifted? c.size delta
  | .current delta => shifted? c.seekCursor delta

/-- Reads up to `n` bytes. -/
def fileRead (n : Nat) : FileOp Bytes := FileOp.ofOp (read n)

/-- Writes data; the answer is its length. -/
def fileWrite (data : Bytes) : FileOp Nat := FileOp.ofOp (write data)

/-- Flushes. -/
def fileFlush : FileOp Unit := FileOp.ofOp (flush false)

/-- Asks for a position; the answer is that position, absolute. -/
def fileSeek (place : SeekFrom) : FileOp Nat := do
  match (← get).target? place with
  | none => throw .seekBeforeStart
  | some target =>
    FileOp.ofOp (seek target)
    return (← get).seekCursor

end Container

end Vault
