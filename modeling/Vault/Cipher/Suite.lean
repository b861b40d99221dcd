import Vault.Cipher.Error

/-!
# `Vault/Cipher/Suite.lean` — cipher suites

A container names its algorithms by one byte in its descriptor. **Both suites seal chunks the same
way; they differ only in whether there is a stream cipher** for containers that are only appended
to.
-/

set_option autoImplicit false

namespace Vault

/-- The algorithms that protect a container. -/
inductive Suite where
  /-- Sealed chunks only. -/
  | aesGcm
  /-- Sealed chunks, and a stream cipher for appending. -/
  | aesGcmSalsa20
deriving DecidableEq

namespace Suite

instance : Inhabited Suite := ⟨aesGcmSalsa20⟩

/-- The byte in the descriptor. -/
def id : Suite → UInt8
  | aesGcm => 1
  | aesGcmSalsa20 => 2

/-- The suite that a byte names. -/
def ofId (byte : UInt8) : Except CryptoError Suite :=
  if byte = 1 then .ok aesGcm
  else if byte = 2 then .ok aesGcmSalsa20
  else .error (.unknownSuite byte)

/-- Does the suite have a stream cipher? -/
def streams : Suite → Bool
  | aesGcm => false
  | aesGcmSalsa20 => true

/-- The name in messages. -/
def name : Suite → String
  | aesGcm => "AES-256-GCM"
  | aesGcmSalsa20 => "AES-256-GCM+Salsa20"

/-- The name in configurations. -/
def key : Suite → String
  | aesGcm => "aes256_gcm"
  | aesGcmSalsa20 => "aes256_gcm_salsa20"

/-- The name in descriptions of a processor. -/
def label : Suite → String
  | aesGcm => "Aes256Gcm"
  | aesGcmSalsa20 => "Aes256GcmSalsa20"

/-- The suite that a configuration names. -/
def ofKey? (name : String) : Option Suite := [aesGcm, aesGcmSalsa20].find? fun s => s.key == name

theorem ofId_id (s : Suite) : ofId s.id = .ok s := by cases s <;> rfl

end Suite

end Vault
