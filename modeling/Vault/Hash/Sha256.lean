import Vault.Bytes

/-!
# `Vault/Hash/Sha256.lean` — SHA-256

The hash function twice over: `Sha256.hash` takes a whole message, pads it and compresses block
after block; a `Sha256.Hasher` is fed piece by piece and keeps the bytes of the last incomplete
block. **Both run the same `absorb` over the same blocks,** so that what remains to be said about
the hasher is only which bytes it has seen.

`absorb` takes the number of blocks and not a bound: the data may be longer, and what lies behind
the blocks is ignored.
-/

set_option autoImplicit false

namespace Vault.Sha256

/-- The bytes of a block. -/
def blockSize : Nat := 64

/-- The bytes of a digest. -/
def digestSize : Nat := 32

/-- The eight words that are carried from block to block. -/
structure State where
  (a b c d e f g h : UInt32)
deriving DecidableEq

/-- The state in front of the first block. -/
def initial : State :=
  ⟨0x6a09e667, 0xbb67ae85, 0x3c6ef372, 0xa54ff53a, 0x510e527f, 0x9b05688c, 0x1f83d9ab, 0x5be0cd19⟩

/-- The words added in the 64 rounds. -/
def roundConstants : List UInt32 :=
  [0x428a2f98, 0x71374491, 0xb5c0fbcf, 0xe9b5dba5, 0x3956c25b, 0x59f111f1, 0x923f82a4, 0xab1c5ed5,
    0xd807aa98, 0x12835b01, 0x243185be, 0x550c7dc3, 0x72be5d74, 0x80deb1fe, 0x9bdc06a7, 0xc19bf174,
    0xe49b69c1, 0xefbe4786, 0x0fc19dc6, 0x240ca1cc, 0x2de92c6f, 0x4a7484aa, 0x5cb0a9dc, 0x76f988da,
    0x983e5152, 0xa831c66d, 0xb00327c8, 0xbf597fc7, 0xc6e00bf3, 0xd5a79147, 0x06ca6351, 0x14292967,
    0x27b70a85, 0x2e1b2138, 0x4d2c6dfc, 0x53380d13, 0x650a7354, 0x766a0abb, 0x81c2c92e, 0x92722c85,
    0xa2bfe8a1, 0xa81a664b, 0xc24b8b70, 0xc76c51a3, 0xd192e819, 0xd6990624, 0xf40e3585, 0x106aa070,
    0x19a4c116, 0x1e376c08, 0x2748774c, 0x34b0bcb5, 0x391c0cb3, 0x4ed8aa4a, 0x5b9cca4f, 0x682e6ff3,
    0x748f82ee, 0x78a5636f, 0x84c87814, 0x8cc70208, 0x90befffa, 0xa4506ceb, 0xbef9a3f7, 0xc67178f2]

/-- Rotation to the right by `n` of 32 bits. -/
@[inline] def rotateRight (x : UInt32) (n : UInt32) : UInt32 := (x >>> n) ||| (x <<< (32 - n))

/-! ## One block -/

/-- The 64 words of a block's rounds: its own sixteen, and then each from four before it. -/
def schedule (block : Bytes) : Array UInt32 :=
  (List.range 48).foldl (fun w i =>
      let early := w.getD (i + 1) 0
      let late := w.getD (i + 14) 0
      -- the words 15 and 2 places back are mixed, those 16 and 7 places back are added as they are
      let small0 := rotateRight early 7 ^^^ rotateRight early 18 ^^^ (early >>> 3)
      let small1 := rotateRight late 17 ^^^ rotateRight late 19 ^^^ (late >>> 10)
      w.push (small1 + w.getD (i + 9) 0 + small0 + w.getD i 0))
    (Bytes.wordsBE block).toArray

/-- One round, with its constant and its word of the schedule. -/
@[inline] def round (s : State) (k w : UInt32) : State :=
  let big1 := rotateRight s.e 6 ^^^ rotateRight s.e 11 ^^^ rotateRight s.e 25
  let choice := (s.e &&& s.f) ^^^ (~~~s.e &&& s.g)
  let t1 := s.h + big1 + choice + k + w
  let big0 := rotateRight s.a 2 ^^^ rotateRight s.a 13 ^^^ rotateRight s.a 22
  let majority := (s.a &&& s.b) ^^^ (s.a &&& s.c) ^^^ (s.b &&& s.c)
  ⟨t1 + big0 + majority, s.a, s.b, s.c, s.d + t1, s.e, s.f, s.g⟩

/-- The rounds, one for each constant. -/
def rounds (w : Array UInt32) : State → (i : Nat) → List UInt32 → State
  | s, _, [] => s
  | s, i, k :: ks => rounds w (round s k (w.getD i 0)) (i + 1) ks

/-- Word by word sum of two states. -/
def State.add (s t : State) : State :=
  ⟨s.a + t.a, s.b + t.b, s.c + t.c, s.d + t.d, s.e + t.e, s.f + t.f, s.g + t.g, s.h + t.h⟩

/-- The state behind one more block. -/
def compress (s : State) (block : Bytes) : State :=
  s.add (rounds (schedule block) s 0 roundConstants)

/-- The bytes of a state, which are the digest when the last block is done. -/
def State.toBytes (s : State) : Bytes :=
  [s.a, s.b, s.c, s.d, s.e, s.f, s.g, s.h].flatMap Bytes.ofWordBE

/-- The state behind the first `n` blocks of `data`. -/
def absorb : (n : Nat) → State → (data : Bytes) → State
  | 0, s, _ => s
  | n + 1, s, data => absorb n (compress s (data.take blockSize)) (data.drop blockSize)

/-! ## Whole messages -/

/-- What is put behind a message of `n` bytes to fill its last block: a one bit, zeros, and the
number of bits in eight bytes. -/
def padding (n : Nat) : Bytes :=
  0x80 :: Bytes.zeros ((119 - n % 64) % 64) ++ Bytes.ofNatBE 8 (8 * n)

/-- The digest of a message. -/
def hash (message : Bytes) : Bytes :=
  let padded := message ++ padding message.length
  (absorb (padded.length / blockSize) initial padded).toBytes

@[simp] theorem State.length_toBytes (s : State) : s.toBytes.length = digestSize := by
  simp [State.toBytes, digestSize]

@[simp] theorem length_hash (message : Bytes) : (hash message).length = digestSize := by
  simp [hash]

/-- A padded message is a whole number of blocks. -/
theorem length_padded (n : Nat) : (n + (padding n).length) % blockSize = 0 := by
  simp only [padding, List.length_append, List.length_cons, Bytes.length_zeros,
    Bytes.length_ofNatBE, blockSize]
  omega

/-! ## Piece by piece -/

/-- A hash computation under way: the state behind the full blocks seen so far, the bytes behind
them, and how many bytes there were altogether. -/
structure Hasher where
  state : State := initial
  pending : Bytes := []
  length : Nat := 0
deriving DecidableEq

namespace Hasher

/-- Feeds the next piece. -/
def update (h : Hasher) (data : Bytes) : Hasher :=
  let all := h.pending ++ data
  let blocks := all.length / blockSize
  { state := absorb blocks h.state all
    pending := all.drop (blockSize * blocks)
    length := h.length + data.length }

/-- The digest of everything fed. -/
def finish (h : Hasher) : Bytes :=
  let last := h.pending ++ padding h.length
  (absorb (last.length / blockSize) h.state last).toBytes

@[simp] theorem length_finish (h : Hasher) : h.finish.length = digestSize := by
  simp [finish]

end Hasher

end Vault.Sha256
