import Vault.Hash.Sha256

/-!
# `Vault/Hash/Hmac.lean` — HMAC over SHA-256

**A keyed hash is two hashes with a keyed first block each.** `Hmac.mac` says that directly, on a
whole message; `Hmac.Hasher` has both first blocks behind it and is fed piece by piece, which is
also what makes ten thousand rounds of key stretching affordable.
-/

set_option autoImplicit false

namespace Vault.Hmac

/-- The key as one block: hashed when it is longer, filled up with zeros. -/
def keyBlock (key : Bytes) : Bytes :=
  Bytes.resize (if Sha256.blockSize < key.length then Sha256.hash key else key) Sha256.blockSize

/-- The first block of the inner hash. -/
def innerPad (key : Bytes) : Bytes := (keyBlock key).map (· ^^^ 0x36)

/-- The first block of the outer hash. -/
def outerPad (key : Bytes) : Bytes := (keyBlock key).map (· ^^^ 0x5c)

/-- The authentication code of a message. -/
def mac (key message : Bytes) : Bytes :=
  Sha256.hash (outerPad key ++ Sha256.hash (innerPad key ++ message))

@[simp] theorem length_mac (key message : Bytes) :
    (mac key message).length = Sha256.digestSize := by
  simp [mac]

/-- A keyed hash under way: the inner hash, and the outer one behind its first block. -/
structure Hasher where
  inner : Sha256.Hasher
  outer : Sha256.Hasher
deriving DecidableEq

namespace Hasher

/-- The keyed hash of nothing yet. -/
def ofKey (key : Bytes) : Hasher where
  inner := Sha256.Hasher.update {} (innerPad key)
  outer := Sha256.Hasher.update {} (outerPad key)

/-- Feeds the next piece of the message. -/
def update (h : Hasher) (data : Bytes) : Hasher := { h with inner := h.inner.update data }

/-- The authentication code of everything fed. -/
def finish (h : Hasher) : Bytes := (h.outer.update h.inner.finish).finish

/-- The authentication code of one message, from a hasher that has seen nothing but its key. -/
def run (h : Hasher) (message : Bytes) : Bytes := (h.update message).finish

@[simp] theorem length_finish (h : Hasher) : h.finish.length = Sha256.digestSize := by
  simp [finish]

end Hasher

end Vault.Hmac
