import Vault.Cipher.Error
import Vault.Cipher.Salsa20

/-!
# `Vault/Cipher/Stream.lean` — chunks that grow under a stream cipher

A streamed chunk is its nonce followed by the ciphertext. The ciphertext is as long as the
plaintext, so **bytes can be put behind a chunk without touching those already there** — provided
that the key stream goes on exactly where it stopped, which is what `position` is for.
-/

set_option autoImplicit false

namespace Vault

/-- The key stream of one chunk, standing at a position. -/
structure StreamEncryptor where
  key : Bytes
  nonce : Bytes
  seqnum : Nat
  position : Nat
deriving DecidableEq

namespace StreamEncryptor

/-- The key stream of a chunk at its start. -/
def start (key nonce : Bytes) (seqnum : Nat) : Except CryptoError StreamEncryptor :=
  if nonce.length = Salsa20.nonceSize then .ok ⟨key, nonce, seqnum, 0⟩
  else .error (.nonceSize Salsa20.nonceSize nonce.length)

/-- The same key stream at another position. -/
def seek (e : StreamEncryptor) (position : Nat) : StreamEncryptor := { e with position }

/-- The data combined with the key stream, and the key stream behind it. The same call encrypts
and decrypts. -/
def apply (e : StreamEncryptor) (data : Bytes) : Bytes × StreamEncryptor :=
  (Bytes.xor data (Salsa20.keystream e.key e.nonce e.position data.length),
    { e with position := e.position + data.length })

@[simp] theorem length_apply (e : StreamEncryptor) (data : Bytes) :
    (e.apply data).1.length = data.length := by
  simp [apply]

/-- The plaintext of a whole streamed chunk, nonce included. -/
def openChunk (key packed : Bytes) : Except CryptoError Bytes :=
  if packed.length < Salsa20.nonceSize then
    .error (.ciphertextSize Salsa20.nonceSize packed.length)
  else do
    let e ← start key (packed.take Salsa20.nonceSize) 0
    return (e.apply (packed.drop Salsa20.nonceSize)).1

end StreamEncryptor

end Vault
