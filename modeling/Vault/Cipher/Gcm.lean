import Vault.Cipher.Aes

/-!
# `Vault/Cipher/Gcm.lean` — authenticated encryption: AES in Galois/counter mode

A message is combined with a key stream, and a tag is computed from the result together with data
that is authenticated but not hidden. **Encrypting and decrypting a message are the same
combination** (`crypt`); what makes the mode authentic is that `decrypt?` recomputes the tag of
the ciphertext and answers only when it agrees.

Nonces have 96 bits here, so that the first counter block is the nonce followed by a one, which
masks the tag; the key stream starts at the counter after it.
-/

set_option autoImplicit false

namespace Vault.Gcm

/-- The bytes of a nonce. -/
def nonceSize : Nat := 12

/-- The bytes of an authentication tag. -/
def tagSize : Nat := 16

/-- What is made of a key once: the round keys, and the encrypted zero block that keys the hash. -/
structure Key where
  rounds : Aes.RoundKeys
  hashKey : Block
deriving DecidableEq

/-- The prepared form of a 32-byte key. -/
def Key.ofBytes (key : Bytes) : Key :=
  let rounds := Aes.RoundKeys.ofKey key
  ⟨rounds, Aes.encrypt rounds Block.zero⟩

/-! ## The key stream -/

/-- The counter block of a nonce with counter `n`. -/
def counterBlock (nonce : Bytes) (n : UInt32) : Block :=
  let start := Block.ofBytes nonce
  ⟨start.hi, (start.lo &&& 0xFFFFFFFF00000000) ||| n.toUInt64⟩

/-- `blocks` blocks of key stream from counter `n` on; the counter wraps around. -/
def keystream (key : Key) (nonce : Bytes) : (blocks : Nat) → (n : UInt32) → Bytes
  | 0, _ => []
  | blocks + 1, n =>
    (Aes.encrypt key.rounds (counterBlock nonce n)).toBytes ++ keystream key nonce blocks (n + 1)

/-- The data combined with the key stream, which starts at counter 2. -/
def crypt (key : Key) (nonce data : Bytes) : Bytes :=
  Bytes.xor data (keystream key nonce ((data.length + 15) / 16) 2)

/-! ## The tag -/

/-- The product of two blocks as elements of the field of 2^128 elements, most significant bit
first: `bits` bits of `x` are still to come, `z` is the sum so far and `v` the multiple of the
other factor that belongs to the next bit. -/
def multiply : (bits : Nat) → (xhi xlo zhi zlo vhi vlo : UInt64) → Block
  | 0, _, _, zhi, zlo, _, _ => ⟨zhi, zlo⟩
  | bits + 1, xhi, xlo, zhi, zlo, vhi, vlo =>
    -- masks in place of branches: all ones if the next bit of x is set
    let take := (0 : UInt64) - (xhi >>> 63)
    -- halving v drops its last bit, which comes back as the reduction polynomial
    let reduce := ((0 : UInt64) - (vlo &&& 1)) &&& 0xe100000000000000
    multiply bits ((xhi <<< 1) ||| (xlo >>> 63)) (xlo <<< 1) (zhi ^^^ (vhi &&& take))
      (zlo ^^^ (vlo &&& take)) ((vhi >>> 1) ^^^ reduce) ((vlo >>> 1) ||| (vhi <<< 63))

/-- The product of two field elements. -/
def product (x y : Block) : Block := multiply 128 x.hi x.lo 0 0 y.hi y.lo

/-- The hash carried over the first `n` blocks of `data`; the last one is filled up with zeros. -/
def absorb (hashKey : Block) : (n : Nat) → Block → (data : Bytes) → Block
  | 0, y, _ => y
  | n + 1, y, data =>
    absorb hashKey n (product (y.xor (Block.ofBytes (data.take 16))) hashKey) (data.drop 16)

/-- The hash of the associated data, the ciphertext and their lengths in bits. -/
def hash (hashKey : Block) (aad ciphertext : Bytes) : Block :=
  let y := absorb hashKey ((aad.length + 15) / 16) Block.zero aad
  let y := absorb hashKey ((ciphertext.length + 15) / 16) y ciphertext
  let lengths : Block := ⟨UInt64.ofNat (8 * aad.length), UInt64.ofNat (8 * ciphertext.length)⟩
  product (y.xor lengths) hashKey

/-- The authentication tag. -/
def tag (key : Key) (nonce aad ciphertext : Bytes) : Bytes :=
  ((hash key.hashKey aad ciphertext).xor
    (Aes.encrypt key.rounds (counterBlock nonce 1))).toBytes

/-! ## Messages -/

/-- Ciphertext and tag of a message. The mode admits messages of at most `2^36` bytes, which is all
that its 32-bit counter has key stream for. The refusal of a longer one is left out: the counter
wraps around instead. -/
def encrypt (key : Key) (nonce aad plain : Bytes) : Bytes :=
  let ciphertext := crypt key nonce plain
  ciphertext ++ tag key nonce aad ciphertext

/-- The message in a ciphertext with its tag behind it, if the tag is right. -/
def decrypt? (key : Key) (nonce aad data : Bytes) : Option Bytes :=
  let size := data.length - tagSize
  let ciphertext := data.take size
  if tagSize ≤ data.length ∧ tag key nonce aad ciphertext = data.drop size then
    some (crypt key nonce ciphertext)
  else none

/-! ## Lengths -/

@[simp] theorem length_keystream (key : Key) (nonce : Bytes) (blocks : Nat) (n : UInt32) :
    (keystream key nonce blocks n).length = 16 * blocks := by
  induction blocks generalizing n with
  | zero => rfl
  | succ blocks ih => simp [keystream, ih]; omega

@[simp] theorem length_crypt (key : Key) (nonce data : Bytes) :
    (crypt key nonce data).length = data.length := by
  simp only [crypt, Bytes.length_xor, length_keystream]
  omega

@[simp] theorem length_tag (key : Key) (nonce aad ciphertext : Bytes) :
    (tag key nonce aad ciphertext).length = tagSize := by
  simp [tag, tagSize]

@[simp] theorem length_encrypt (key : Key) (nonce aad plain : Bytes) :
    (encrypt key nonce aad plain).length = plain.length + tagSize := by
  simp [encrypt]

end Vault.Gcm
