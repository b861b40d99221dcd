import Vault.Hash.Hmac
import Vault.Key.Master

/-!
# `Vault/Key/Derivation.lean` — working keys from the master key

Every container has a salt of its own. Master key and salt are turned into one pseudorandom key,
and the working keys are expanded from that, each under its own label: **whoever learns one of
them learns nothing about the others or the master key.**

A passphrase is stretched first (`stretch`), so that every guess costs as many rounds as the
descriptor says.
-/

set_option autoImplicit false

namespace Vault

/-- How a container turns its master key into a pseudorandom key. -/
inductive Kdf where
  /-- Extraction alone, for raw keys. -/
  | hkdf
  /-- Stretching and then extraction, for passphrases. -/
  | pbkdf2Hkdf
deriving DecidableEq

namespace Kdf

instance : Inhabited Kdf := ⟨hkdf⟩

/-- The byte in the descriptor. -/
def id : Kdf → UInt8
  | hkdf => 1
  | pbkdf2Hkdf => 2

/-- The function that a byte names. -/
def ofId (byte : UInt8) : Except CryptoError Kdf :=
  if byte = 1 then .ok hkdf
  else if byte = 2 then .ok pbkdf2Hkdf
  else .error (.unknownKdf byte)

/-- The name in configurations. -/
def key : Kdf → String
  | hkdf => "hkdf"
  | pbkdf2Hkdf => "pbkdf2_hkdf"

/-- The name in descriptions of a processor. -/
def label : Kdf → String
  | hkdf => "Hkdf"
  | pbkdf2Hkdf => "Pbkdf2Hkdf"

/-- The function that a configuration names. -/
def ofKey? (name : String) : Option Kdf := [hkdf, pbkdf2Hkdf].find? fun k => k.key == name

theorem ofId_id (k : Kdf) : ofId k.id = .ok k := by cases k <;> rfl

end Kdf

/-- The pseudorandom key that all working keys of a container are expanded from. -/
structure KeyDeriver where
  secret : Bytes
deriving DecidableEq

namespace KeyDeriver

/-- The bytes of a container's salt. -/
def saltSize : Nat := 16

/-- The bytes of a working key. -/
def keySize : Nat := 32

/-- The rounds of stretching when nothing else is said. -/
def defaultRounds : Nat := 10000

/-! ## Labels of the working keys -/

/-- The label of the key that seals chunks. -/
def chunkLabel : Bytes := "strongbox chunk".toUTF8.toList

/-- The label of the key of the stream cipher. -/
def streamLabel : Bytes := "strongbox stream".toUTF8.toList

/-- The label of the key that signs stamps. -/
def macLabel : Bytes := "mac".toUTF8.toList

/-! ## Stretching -/

/-- The later rounds: each value is the authentication code of the one before, and all are
combined. -/
def stretchMore (keyed : Hmac.Hasher) : (rounds : Nat) → (last sum : Bytes) → Bytes
  | 0, _, sum => sum
  | rounds + 1, last, sum =>
    let next := keyed.run last
    stretchMore keyed rounds next (Bytes.xor sum next)

/-- Thirty-two bytes from a secret and a salt that cost `rounds` keyed hashes to compute. -/
def stretch (secret salt : Bytes) (rounds : Nat) : Bytes :=
  let keyed := Hmac.Hasher.ofKey secret
  -- the number of the block, of which thirty-two bytes need only the first
  let first := keyed.run (salt ++ Bytes.ofNatBE 4 1)
  stretchMore keyed (rounds - 1) first first

/-! ## Extraction and expansion -/

/-- The pseudorandom key of a master key under a salt. -/
def ofMaster (master : MasterKey) (kdf : Kdf) (salt : Bytes) (rounds : Nat) :
    Except CryptoError KeyDeriver :=
  match kdf with
  | .hkdf => .ok ⟨Hmac.mac salt master.bytes⟩
  | .pbkdf2Hkdf =>
    if rounds = 0 then .error .noRounds
    else .ok ⟨Hmac.mac salt (stretch master.bytes salt rounds)⟩

/-- The working key with a label. -/
def derive (d : KeyDeriver) (label : Bytes) : Bytes := Hmac.mac d.secret (label ++ [1])

/-- What may be shown of a pseudorandom key: nothing. -/
def describe (_ : KeyDeriver) : String := "KeyDeriver \x7b .. \x7d"

@[simp] theorem length_derive (d : KeyDeriver) (label : Bytes) :
    (d.derive label).length = keySize := by
  simp [derive, keySize, Sha256.digestSize]

end KeyDeriver

end Vault
