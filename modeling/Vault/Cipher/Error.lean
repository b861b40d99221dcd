import Vault.Text.Hex

/-!
# `Vault/Cipher/Error.lean` — what can go wrong with keys and ciphertexts

One constructor for each cause, with the numbers that its wording shows. **The wording stands in
`message` and nowhere else.**
-/

set_option autoImplicit false

namespace Vault

/-- Why a text gives no master key. -/
inductive KeyTextError where
  /-- It is no byte string in hexadecimal. -/
  | hex (cause : HexError)
  /-- It is an empty passphrase. -/
  | emptyPassphrase
deriving DecidableEq

/-- What can go wrong with keys, nonces, ciphertexts and integrity values. -/
inductive CryptoError where
  /-- A key of the wrong length. -/
  | keySize (expected actual : Nat)
  /-- A nonce of the wrong length. -/
  | nonceSize (expected actual : Nat)
  /-- A text that gives no key. -/
  | keyText (cause : KeyTextError)
  /-- Key stretching without a single round. -/
  | noRounds
  /-- A chunk that does not authenticate under its number. -/
  | authentication (seqnum : Nat)
  /-- A packed chunk shorter than what every packed chunk carries. -/
  | ciphertextSize (expected actual : Nat)
  /-- A key derivation function nobody knows. -/
  | unknownKdf (id : UInt8)
  /-- A cipher suite nobody knows. -/
  | unknownSuite (id : UInt8)
  /-- Stream encryption before a stream was started. -/
  | noStream
  /-- Working keys asked for before they were derived. -/
  | noWorkingKey
  /-- A digest that differs from the expected one. -/
  | digestMismatch
  /-- An authentication code that differs from the expected one. -/
  | macMismatch
deriving DecidableEq

namespace KeyTextError

/-- The wording of the cause. -/
def message : KeyTextError → String
  | hex cause => s!"invalid hex: {cause.message}"
  | emptyPassphrase => "empty passphrase"

end KeyTextError

namespace CryptoError

/-- The wording of the error. -/
def message : CryptoError → String
  | keySize expected actual => s!"Invalid key size: expected {expected}, got {actual}"
  | nonceSize expected actual => s!"Invalid IV size: expected {expected}, got {actual}"
  | keyText cause => s!"Invalid key format: {cause.message}"
  | noRounds => "Key derivation failed: PBKDF2 requires at least one round"
  | authentication seqnum => s!"Authentication failed for chunk {seqnum}"
  | ciphertextSize expected actual =>
    s!"Invalid ciphertext: need at least {expected} bytes, got {actual}"
  | unknownKdf id => s!"Unknown KDF type: {id.toNat}"
  | unknownSuite id => s!"Unknown cipher suite: {id.toNat}"
  | noStream => "Stream encryptor is not initialized"
  | noWorkingKey => "Working keys are not derived"
  | digestMismatch => "Digest mismatch"
  | macMismatch => "MAC verification failed"

end CryptoError

end Vault
