/-!
# `Vault/Mode.lean` — how a container is opened

Seven modes, and the five questions that the rest of the library asks of them. **That writes happen
at the end only is enforced above the raw file:** the sizes in the header have to stay writable, so
the raw file of an appending container is opened for random access (`raw`).
-/

set_option autoImplicit false

namespace Vault

/-- How a container is opened. -/
inductive Mode where
  /-- Reading forward. -/
  | scan
  /-- Reading anywhere. -/
  | read
  /-- Reading and writing a new or emptied file. -/
  | write
  /-- Reading and writing a file that must not exist yet. -/
  | writeNew
  /-- Reading and writing a file that must exist. -/
  | writeExisting
  /-- Adding at the end of a file, which is made when it is missing. -/
  | append
  /-- Adding at the end of a file that must exist. -/
  | appendExisting
deriving DecidableEq

namespace Mode

instance : Inhabited Mode := ⟨scan⟩

/-- May the container be changed? -/
def isWrite : Mode → Bool
  | scan | read => false
  | _ => true

/-- Do writes happen at the end only? -/
def isAppend : Mode → Bool
  | append | appendExisting => true
  | _ => false

/-- Can chunks be visited again, so that keeping them pays? -/
def allowsCache : Mode → Bool
  | scan | append | appendExisting => false
  | _ => true

/-- Does the mode go with chunks that are streamed? -/
def allowsStreaming : Mode → Bool
  | scan | append | appendExisting => true
  | _ => false

/-- Does opening start a new container, given whether the file exists? -/
def createsFile (mode : Mode) (fileExists : Bool) : Bool :=
  match mode with
  | write | writeNew => true
  | append => !fileExists
  | _ => false

/-- The mode in which the raw file is opened, given whether it exists. -/
def raw (mode : Mode) (fileExists : Bool) : Mode :=
  match mode with
  | append => if fileExists then writeExisting else write
  | appendExisting => writeExisting
  | other => other

/-- The name in traces and descriptions. -/
def name : Mode → String
  | scan => "Scan"
  | read => "Read"
  | write => "Write"
  | writeNew => "WriteNew"
  | writeExisting => "WriteExisting"
  | append => "Append"
  | appendExisting => "AppendExisting"

/-- All modes. -/
def all : List Mode := [scan, read, write, writeNew, writeExisting, append, appendExisting]

/-- The mode with a name. -/
def ofName? (name : String) : Option Mode := all.find? fun m => m.name == name

theorem isWrite_of_isAppend {mode : Mode} (h : mode.isAppend = true) : mode.isWrite = true := by
  cases mode <;> first | rfl | simp [isAppend] at h

end Mode

end Vault
