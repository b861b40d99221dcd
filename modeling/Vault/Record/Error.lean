import Vault.Text.Hex

/-!
# `Vault/Record/Error.lean` — what can be wrong with a record

Header, descriptor and stamp are read strictly: **a byte string is a record or it has one of these
faults**, and the first fault met is the one reported.
-/

set_option autoImplicit false

namespace Vault

/-- The records that are cut to a length before they are read. -/
inductive RecordKind where
  | header
  | descriptor
deriving DecidableEq

/-- The fields whose length must fit the bytes that hold it. -/
inductive RecordField where
  | salt
  | digest
  | mac
  | stamp
deriving DecidableEq

/-- What can be wrong with a stamp whose fields could be read. -/
inductive StampFlaw where
  /-- So many bytes behind the last field. -/
  | trailing (count : Nat)
  /-- Flags beyond the two known ones. -/
  | unknownFlags (flags : UInt8)
  /-- A field that is flagged and holds nothing. -/
  | emptyField
deriving DecidableEq

/-- What can be wrong with a record. -/
inductive RecordError where
  /-- A header that starts with something else. -/
  | magic (bytes : Bytes)
  /-- A header of another version. -/
  | headerVersion (version : UInt8)
  /-- A descriptor of another version. -/
  | descriptorVersion (version : UInt8)
  /-- A record of the wrong length. -/
  | truncated (kind : RecordKind) (expected actual : Nat)
  /-- A field that is too long to be written. -/
  | tooLarge (field : RecordField) (size : Nat)
  /-- A stamp that contradicts itself. -/
  | stamp (flaw : StampFlaw)
  /-- The bytes end inside a field. -/
  | cutShort
deriving DecidableEq

namespace RecordKind

/-- The name in messages. -/
def name : RecordKind → String
  | header => "header"
  | descriptor => "descriptor"

end RecordKind

namespace RecordField

/-- The name in messages. -/
def name : RecordField → String
  | salt => "salt"
  | digest => "digest"
  | mac => "mac"
  | stamp => "stamp"

end RecordField

namespace StampFlaw

/-- The wording of the flaw. -/
def message : StampFlaw → String
  | trailing count => s!"{count} trailing bytes"
  | unknownFlags flags => "unknown flags 0x" ++ Hex.upper flags
  | emptyField => "empty field"

end StampFlaw

namespace RecordError

/-- The wording of the error. -/
def message : RecordError → String
  | magic bytes => "invalid container magic: " ++ Hex.listed bytes
  | headerVersion version => s!"unsupported container version: {version.toNat}"
  | descriptorVersion version => s!"unsupported descriptor version: {version.toNat}"
  | truncated kind expected actual =>
    s!"truncated {kind.name}: need {expected} bytes, got {actual}"
  | tooLarge field size => s!"{field.name} too large: {size}"
  | stamp flaw => s!"invalid stamp: {flaw.message}"
  | cutShort => "binary parsing error"

end RecordError

end Vault
