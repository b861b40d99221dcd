import Vault.Cipher.Suite
import Vault.Hash.Stamping
import Vault.Record.Error

/-!
# `Vault/Error.lean` — what can go wrong with a container

Every cause is a constructor, with what its wording shows; where several causes share the first
words of their wording they are a type of their own. Each of those types has a constructor for a
reason that a caller gives in its own words.

A container also serves programs that only know files. For them **every error has a counterpart
among the errors of files** (`Error.toFileError`): the kind says roughly what happened, and the
text is kept.
-/

set_option autoImplicit false

namespace Vault

/-! ## Errors of files -/

/-- Roughly what happened to a file. -/
inductive FileErrorKind where
  | notFound
  | alreadyExists
  | notConnected
  | invalidInput
  | invalidData
  | other
  | uncategorized
deriving DecidableEq

/-- An error of a file: what happened, and its text. -/
structure FileError where
  kind : FileErrorKind
  text : String
deriving DecidableEq

namespace FileError

/-- A file, or the directory it should be in, does not exist. -/
def notFound : FileError := ⟨.notFound, "No such file or directory (os error 2)"⟩

/-- A file exists that should be new. -/
def alreadyExists : FileError := ⟨.alreadyExists, "File exists (os error 17)"⟩

/-- A write through a handle that only reads. -/
def notWritable : FileError := ⟨.uncategorized, "Bad file descriptor (os error 9)"⟩

/-- A change of length through a handle that only reads. -/
def notResizable : FileError := ⟨.invalidInput, "Invalid argument (os error 22)"⟩

/-- A failure without further particulars. -/
def unspecified : FileError := ⟨.other, "other error"⟩

/-- A relative position that would lie in front of the file, or behind all positions. -/
def seekBeforeStart : FileError := ⟨.invalidInput, "seek before start"⟩

end FileError

/-! ## Causes that share their first words -/

/-- Why a raw file is no container. -/
inductive Malformation where
  /-- It ends inside the header. -/
  | shortHeader (needed found : Nat)
  /-- The header has a fault. -/
  | header (cause : RecordError)
  /-- It ends inside the descriptor. -/
  | shortDescriptor (needed found : Nat)
  /-- The descriptor has a fault. -/
  | descriptor (cause : RecordError)
  /-- The descriptor names a key derivation function nobody knows. -/
  | unknownKdf (id : UInt8)
  /-- It ends inside the chunk data. -/
  | missingData (found claimed : Nat)
  /-- Its content is longer than its chunks have numbers for. -/
  | unaddressable (size : Nat)
  /-- Its content is longer than its chunk data can hold. -/
  | overfull (size ciphertextSize : Nat)
  /-- A reason in a caller's own words. -/
  | described (text : String)
deriving DecidableEq

/-- Why there is no stamp to work with. -/
inductive StampProblem where
  /-- Nothing stands behind the chunk data. -/
  | absent
  /-- The length in front of the stamp does not go with the bytes behind the chunk data. -/
  | length (claimed available : Nat)
  /-- The stamp could not be read to its end. -/
  | short
  /-- The stamp has a fault. -/
  | record (cause : RecordError)
  /-- The stamp does not have the field asked for. -/
  | lacks (kind : StampKind)
  /-- A reason in a caller's own words. -/
  | described (text : String)
deriving DecidableEq

/-- What a cipher suite does not provide. -/
inductive Unsupported where
  /-- It has no stream cipher. -/
  | noStream (suite : Suite)
  /-- It is not known at all. -/
  | unknownSuite (id : UInt8)
  /-- A reason in a caller's own words. -/
  | described (text : String)
deriving DecidableEq

/-- What a configuration must not say. -/
inductive Misconfiguration where
  /-- No chunk may be kept in memory. -/
  | noChunks
  /-- Blocks of no size. -/
  | noBlock
  /-- Key stretching without a single round. -/
  | noRounds
  /-- A reason in a caller's own words. -/
  | described (text : String)
deriving DecidableEq

/-! ## Errors of containers -/

/-- What can go wrong with a container. -/
inductive Error where
  /-- The container has to be open. -/
  | notOpen
  /-- The container has to be closed. -/
  | alreadyOpen
  /-- Reading is not possible in this mode, or failed. -/
  | readFailed
  /-- Writing is not possible in this mode, or failed. -/
  | writeFailed
  /-- The raw file is shorter than the container says, or a position has no chunk. -/
  | invalidSize
  /-- A position that cannot be reached. -/
  | invalidSeek (pos size : Nat)
  /-- The raw file is no container. -/
  | malformed (cause : Malformation)
  /-- Streamed chunks do not go with this mode or this container. -/
  | streamMode
  /-- There is no stamp to work with. -/
  | stampFailed (cause : StampProblem)
  /-- The cipher suite does not provide what is needed. -/
  | unsupported (cause : Unsupported)
  /-- A change of size ended at another size. -/
  | aborted (expected actual : Nat)
  /-- The configuration cannot be used. -/
  | misconfigured (cause : Misconfiguration)
  /-- An error of the raw file. -/
  | file (cause : FileError)
  /-- An error of keys, ciphertexts or integrity values. -/
  | crypto (cause : CryptoError)
  /-- A record with a fault. -/
  | record (cause : RecordError)
  /-- No error that is reported: the program broke off where it asked for a larger buffer than there
  can be, and nothing that would have come behind that was done. -/
  | brokenOff
deriving DecidableEq

/-! ## Wordings -/

namespace Malformation

/-- The wording of the cause. -/
def message : Malformation → String
  | shortHeader needed found => s!"header needs {needed} bytes, file has {found}"
  | header cause => s!"header: {cause.message}"
  | shortDescriptor needed found => s!"descriptor needs {needed} bytes, file has {found}"
  | descriptor cause => s!"descriptor: {cause.message}"
  | unknownKdf id => (CryptoError.unknownKdf id).message
  | missingData found claimed => s!"{found} bytes of chunk data, header claims {claimed}"
  | unaddressable size => s!"plaintext size {size} exceeds the chunk sequence"
  | overfull size ciphertextSize =>
    s!"plaintext size {size} does not fit {ciphertextSize} bytes of chunk data"
  | described text => text

end Malformation

namespace StampProblem

/-- The wording of the cause. -/
def message : StampProblem → String
  | absent => "no stamp"
  | length claimed available => s!"stamp length {claimed} with {available} trailing bytes"
  | short => "short stamp"
  | record cause => cause.message
  | lacks kind => s!"no {kind.name} in stamp"
  | described text => text

end StampProblem

namespace Unsupported

/-- The wording of the cause. -/
def message : Unsupported → String
  | noStream suite => s!"{suite.name} has no stream cipher"
  | unknownSuite id => (CryptoError.unknownSuite id).message
  | described text => text

end Unsupported

namespace Misconfiguration

/-- The wording of the cause. -/
def message : Misconfiguration → String
  | noChunks => "max_cached_chunks must be at least 1"
  | noBlock => "max_processing_size must not be 0"
  | noRounds => "PBKDF2 needs at least one round"
  | described text => text

end Misconfiguration

namespace Error

/-- The wording of the error. -/
def message : Error → String
  | notOpen => "File is not open"
  | alreadyOpen => "File is already open"
  | readFailed => "File read failed"
  | writeFailed => "File write failed"
  | invalidSize => "Invalid file size"
  | invalidSeek pos size => s!"Invalid seek to {pos} (size {size})"
  | malformed cause => s!"Invalid container format: {cause.message}"
  | streamMode => "Invalid open mode for a streaming container"
  | stampFailed cause => s!"File stamp failed: {cause.message}"
  | unsupported cause => s!"Not supported by cipher suite: {cause.message}"
  | aborted expected actual => s!"Operation aborted: expected size {expected}, got {actual}"
  | misconfigured cause => s!"Configuration error: {cause.message}"
  | file cause => s!"I/O error: {cause.text}"
  | crypto cause => s!"Crypto error: {cause.message}"
  | record cause => s!"Format error: {cause.message}"
  | brokenOff => "capacity overflow"

/-- The error as a program sees it that only knows files. -/
def toFileError : Error → FileError
  | file cause => cause
  | notOpen => ⟨.notConnected, notOpen.message⟩
  | invalidSeek pos size => ⟨.invalidInput, (invalidSeek pos size).message⟩
  | malformed cause => ⟨.invalidData, (malformed cause).message⟩
  | record cause => ⟨.invalidData, (record cause).message⟩
  | e => ⟨.other, e.message⟩

end Error

end Vault
