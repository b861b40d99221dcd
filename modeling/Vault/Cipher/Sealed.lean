import Vault.Cipher.Error
import Vault.Cipher.Gcm

/-!
# `Vault/Cipher/Sealed.lean` — chunks sealed one by one

A sealed chunk is

    nonce (12 bytes) | ciphertext | tag (16 bytes)

with the chunk's number as associated data: **a chunk copied to another slot does not open
there.** Sealing takes its nonce as an argument; drawing it is the business of whoever holds the
source of randomness.
-/

set_option autoImplicit false

namespace Vault

/-- Seals and opens the chunks of one container. -/
structure ChunkCipher where
  key : Gcm.Key
deriving DecidableEq

namespace ChunkCipher

/-- The bytes that sealing adds to a chunk. -/
def overhead : Nat := Gcm.nonceSize + Gcm.tagSize

/-- The cipher of a 32-byte working key. -/
def ofKey (key : Bytes) : ChunkCipher := ⟨Gcm.Key.ofBytes key⟩

/-- The associated data of a chunk: its number in four bytes. -/
def associated (seqnum : Nat) : Bytes := Bytes.ofNatLE 4 seqnum

/-- The sealed form of a chunk. Sealing refuses plaintexts of more than `2^36` bytes, for which the
mode has no key stream; that refusal is left out, so that sealing cannot fail here. -/
def pack (c : ChunkCipher) (nonce plain : Bytes) (seqnum : Nat) : Bytes :=
  nonce ++ Gcm.encrypt c.key nonce (associated seqnum) plain

/-- The chunk in a sealed form that was made for this number. -/
def unpack (c : ChunkCipher) (packed : Bytes) (seqnum : Nat) : Except CryptoError Bytes :=
  if packed.length < overhead then .error (.ciphertextSize overhead packed.length)
  else
    let nonce := packed.take Gcm.nonceSize
    match Gcm.decrypt? c.key nonce (associated seqnum) (packed.drop Gcm.nonceSize) with
    | some plain => .ok plain
    | none => .error (.authentication seqnum)

theorem length_pack (c : ChunkCipher) (nonce plain : Bytes) (seqnum : Nat)
    (h : nonce.length = Gcm.nonceSize) :
    (c.pack nonce plain seqnum).length = plain.length + overhead := by
  simp only [pack, List.length_append, Gcm.length_encrypt, overhead, h]
  omega

end ChunkCipher

end Vault
