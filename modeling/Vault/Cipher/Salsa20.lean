import Vault.Bytes

/-!
# `Vault/Cipher/Salsa20.lean` — the stream cipher Salsa20 with 20 rounds

A key and a nonce determine an endless key stream, made of blocks of 64 bytes that are numbered
by a 64-bit counter. **The key stream is a function of key, nonce and position:** nothing is
carried from one call to the next, so continuing at a position and arriving there are the same.
-/

set_option autoImplicit false

namespace Vault.Salsa20

/-- The bytes of a block of key stream. -/
def blockSize : Nat := 64

/-- The bytes of a nonce. -/
def nonceSize : Nat := 8

/-- Sixteen words, in four rows. -/
structure Matrix where
  (x0 x1 x2 x3 x4 x5 x6 x7 x8 x9 x10 x11 x12 x13 x14 x15 : UInt32)
deriving DecidableEq

/-- Four words, as one step of a round changes them. -/
structure Quarter where
  (a b c d : UInt32)

/-- Rotation to the left by `n` of 32 bits. -/
@[inline] def rotateLeft (x : UInt32) (n : UInt32) : UInt32 := (x <<< n) ||| (x >>> (32 - n))

/-- The step that every round consists of. -/
@[inline] def quarterRound (a b c d : UInt32) : Quarter :=
  let b := b ^^^ rotateLeft (a + d) 7
  let c := c ^^^ rotateLeft (b + a) 9
  let d := d ^^^ rotateLeft (c + b) 13
  let a := a ^^^ rotateLeft (d + c) 18
  ⟨a, b, c, d⟩

/-- A round down the columns. -/
def columnRound (m : Matrix) : Matrix :=
  let p := quarterRound m.x0 m.x4 m.x8 m.x12
  let q := quarterRound m.x5 m.x9 m.x13 m.x1
  let r := quarterRound m.x10 m.x14 m.x2 m.x6
  let s := quarterRound m.x15 m.x3 m.x7 m.x11
  ⟨p.a, q.d, r.c, s.b, p.b, q.a, r.d, s.c, p.c, q.b, r.a, s.d, p.d, q.c, r.b, s.a⟩

/-- A round along the rows. -/
def rowRound (m : Matrix) : Matrix :=
  let p := quarterRound m.x0 m.x1 m.x2 m.x3
  let q := quarterRound m.x5 m.x6 m.x7 m.x4
  let r := quarterRound m.x10 m.x11 m.x8 m.x9
  let s := quarterRound m.x15 m.x12 m.x13 m.x14
  ⟨p.a, p.b, p.c, p.d, q.d, q.a, q.b, q.c, r.c, r.d, r.a, r.b, s.b, s.c, s.d, s.a⟩

/-- The given number of double rounds. -/
def doubleRounds : Nat → Matrix → Matrix
  | 0, m => m
  | n + 1, m => doubleRounds n (rowRound (columnRound m))

/-- The words of a matrix in order. -/
def Matrix.toList (m : Matrix) : List UInt32 :=
  [m.x0, m.x1, m.x2, m.x3, m.x4, m.x5, m.x6, m.x7, m.x8, m.x9, m.x10, m.x11, m.x12, m.x13, m.x14,
    m.x15]

/-- The matrix that a block is made from: constants on the diagonal, the key above and below, the
nonce and the block's number in the middle. -/
def input (key nonce : Bytes) (number : UInt64) : Matrix :=
  let k := (Bytes.wordsLE key).toArray
  let n := (Bytes.wordsLE nonce).toArray
  { x0 := 0x61707865, x1 := k.getD 0 0, x2 := k.getD 1 0, x3 := k.getD 2 0
    x4 := k.getD 3 0, x5 := 0x3320646e, x6 := n.getD 0 0, x7 := n.getD 1 0
    x8 := number.toUInt32, x9 := (number >>> 32).toUInt32, x10 := 0x79622d32, x11 := k.getD 4 0
    x12 := k.getD 5 0, x13 := k.getD 6 0, x14 := k.getD 7 0, x15 := 0x6b206574 }

/-- The block of key stream with a given number. -/
def block (key nonce : Bytes) (number : Nat) : Bytes :=
  let start := input key nonce (UInt64.ofNat number)
  (List.zipWith (· + ·) start.toList (doubleRounds 10 start).toList).flatMap Bytes.ofWordLE

@[simp] theorem length_block (key nonce : Bytes) (number : Nat) :
    (block key nonce number).length = blockSize := rfl

/-- The `count` blocks of key stream from block `number` on. -/
def blocks (key nonce : Bytes) : (count number : Nat) → Bytes
  | 0, _ => []
  | count + 1, number => block key nonce number ++ blocks key nonce count (number + 1)

@[simp] theorem length_blocks (key nonce : Bytes) (count number : Nat) :
    (blocks key nonce count number).length = blockSize * count := by
  induction count generalizing number with
  | zero => rfl
  | succ count ih => simp [blocks, ih, Nat.mul_succ, Nat.add_comm]

/-- The `len` bytes of key stream from byte `position` on. -/
def keystream (key nonce : Bytes) (position len : Nat) : Bytes :=
  Bytes.slice
    (blocks key nonce ((position % blockSize + len + 63) / blockSize) (position / blockSize))
    (position % blockSize) len

@[simp] theorem length_keystream (key nonce : Bytes) (position len : Nat) :
    (keystream key nonce position len).length = len := by
  simp only [keystream, Bytes.slice, List.length_take, List.length_drop, length_blocks, blockSize]
  omega

end Vault.Salsa20
