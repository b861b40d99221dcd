import Vault.Cipher.Error
import Vault.Hash.Hmac

/-!
# `Vault/Hash/Stamping.lean` — the two kinds of integrity value

A stamp holds a digest, which anyone can recompute, and an authentication code, which takes the
container's key. Both are 32 bytes, both are computed piece by piece over the raw file, and
**a value is right only if it is equal to the recomputed one, length included.**
-/

set_option autoImplicit false

namespace Vault

/-- Which integrity value. -/
inductive StampKind where
  /-- The plain digest. -/
  | digest
  /-- The authentication code. -/
  | mac
deriving DecidableEq

namespace StampKind

/-- The name in messages. -/
def name : StampKind → String
  | digest => "Digest"
  | mac => "Mac"

end StampKind

/-- The computation of an integrity value under way. -/
inductive StampHasher where
  /-- A digest. -/
  | digest (hasher : Sha256.Hasher)
  /-- An authentication code. -/
  | mac (hasher : Hmac.Hasher)
deriving DecidableEq

namespace StampHasher

/-- A digest of nothing yet. -/
def newDigest : StampHasher := digest {}

/-- An authentication code of nothing yet. -/
def newMac (key : Bytes) : StampHasher := mac (Hmac.Hasher.ofKey key)

/-- Which kind of value comes out. -/
def kind : StampHasher → StampKind
  | digest _ => .digest
  | mac _ => .mac

/-- Feeds the next piece. -/
def update (data : Bytes) : StampHasher → StampHasher
  | digest h => digest (h.update data)
  | mac h => mac (h.update data)

/-- The value of everything fed. -/
def finish : StampHasher → Bytes
  | digest h => h.finish
  | mac h => h.finish

/-- The error of a value that differs. -/
def mismatch : StampHasher → CryptoError
  | digest _ => .digestMismatch
  | mac _ => .macMismatch

/-- Compares the value with an expected one. -/
def verify (h : StampHasher) (expected : Bytes) : Except CryptoError Unit :=
  if h.finish = expected then .ok () else .error h.mismatch

@[simp] theorem length_finish (h : StampHasher) : h.finish.length = Sha256.digestSize := by
  cases h <;> simp [finish]

end StampHasher

end Vault
