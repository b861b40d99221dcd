import Vault.Cipher.Error
import Vault.Random
import Vault.Text.Quoted

/-!
# `Vault/Key/Master.lean` — the master key

A container is protected by one secret: 32 raw bytes, or a passphrase of any length but zero.
**The master key itself encrypts nothing;** all working keys are derived from it (`Key/Derivation`).
-/

set_option autoImplicit false

namespace Vault

/-- The secret that all keys of a container are derived from. -/
structure MasterKey where
  bytes : Bytes
deriving DecidableEq

namespace MasterKey

/-- The bytes of a raw key. -/
def size : Nat := 32

/-- The key written in hexadecimal, with any blanks around it. -/
def ofHex (text : String) : Except CryptoError MasterKey :=
  match Hex.decode (Text.trim text).toUTF8.toList with
  | .error cause => .error (.keyText (.hex cause))
  | .ok bytes =>
    if bytes.length = size then .ok ⟨bytes⟩ else .error (.keySize size bytes.length)

/-- A passphrase as it was typed, blanks and all. -/
def ofPassphrase (text : String) : Except CryptoError MasterKey :=
  if text.isEmpty then .error (.keyText .emptyPassphrase) else .ok ⟨text.toUTF8.toList⟩

/-- A fresh raw key. -/
def generate (random : Random) : MasterKey × Random :=
  let (bytes, random) := random.draw size
  (⟨bytes⟩, random)

/-- What may be shown of a key: its length. -/
def describe (key : MasterKey) : String :=
  let len := key.bytes.length
  s!"MasterKey \x7b len: {len}, .. \x7d"

end MasterKey

end Vault
