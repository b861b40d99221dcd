import Vault.Bytes

/-!
# `Vault/Disk.lean` — files and their names

A disk holds the contents of files, numbered in the order in which they were made, and a table of
names. **A name leads to a file and is not the file:** removing a name leaves the contents to
whoever has the file open, and putting new contents under a name that is taken changes the file
that is there.

There is a single directory. A name with a slash in it means a directory that does not exist, so
no file is ever found or made under it. Backup copies lie in a place of their own.
-/

set_option autoImplicit false

namespace Vault

/-- Files, their names, and the backup copies that were left behind. -/
structure Disk where
  /-- The contents of file `i`. Files that lost their name stay. -/
  files : List Bytes := []
  /-- The files that have a name. -/
  names : List (String × Nat) := []
  /-- The backup copies that could not be put back. -/
  backups : List Bytes := []
deriving DecidableEq

namespace Disk

/-- Can there be a file with this name? -/
def hasPlace (name : String) : Bool := !(name.toList.contains '/')

/-- The file with a name. -/
def find? (d : Disk) (name : String) : Option Nat := d.names.lookup name

/-- Is there a file with this name? -/
def contains (d : Disk) (name : String) : Bool := (d.find? name).isSome

/-- The contents of a file. -/
def contents (d : Disk) (file : Nat) : Bytes := d.files.getD file []

/-- The contents of the file with a name. -/
def read? (d : Disk) (name : String) : Option Bytes := (d.find? name).map d.contents

/-- The disk with other contents in a file. -/
def setContents (d : Disk) (file : Nat) (data : Bytes) : Disk :=
  { d with files := d.files.set file data }

/-- The disk with a new file under a name, and the number of that file. -/
def create (d : Disk) (name : String) (data : Bytes) : Nat × Disk :=
  (d.files.length, { d with
    files := d.files ++ [data]
    names := (name, d.files.length) :: d.names.filter fun entry => entry.1 != name })

/-- The disk with contents under a name, in the file that is there or in a new one. -/
def put (d : Disk) (name : String) (data : Bytes) : Disk :=
  match d.find? name with
  | some file => d.setContents file data
  | none => (d.create name data).2

/-- The disk without a name. -/
def remove (d : Disk) (name : String) : Disk :=
  { d with names := d.names.filter fun entry => entry.1 != name }

/-- The disk with one more backup copy left behind. -/
def keepBackup (d : Disk) (data : Bytes) : Disk := { d with backups := data :: d.backups }

end Disk

end Vault
