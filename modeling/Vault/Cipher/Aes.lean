import Vault.Bytes

/-!
# `Vault/Cipher/Aes.lean` — the block cipher AES with a 256-bit key

Only encryption: counter mode never runs the cipher backwards. A block is held as two 64-bit
halves (`Block`), because the field arithmetic of the authentication tag wants it so; the rounds
work on its four columns, each a 32-bit word with the first row in the top byte.

**Mixing a column is one line of word arithmetic:** doubling all four bytes at once (`double`) and
three rotations, since every row of the mixing matrix is the first one rotated.
-/

set_option autoImplicit false

namespace Vault

/-- Sixteen bytes as two halves, most significant byte first. -/
structure Block where
  hi : UInt64
  lo : UInt64
deriving DecidableEq

namespace Block

/-- The block of zeros. -/
def zero : Block := ⟨0, 0⟩

/-- Bitwise exclusive or. -/
def xor (x y : Block) : Block := ⟨x.hi ^^^ y.hi, x.lo ^^^ y.lo⟩

/-- Two words as one half. -/
def join (hi lo : UInt32) : UInt64 := (hi.toUInt64 <<< 32) ||| lo.toUInt64

/-- The block of four words. -/
def ofWords (a b c d : UInt32) : Block := ⟨join a b, join c d⟩

/-- The four bytes of the top word of a half, and of its bottom word. -/
def halfBytes (x : UInt64) : Bytes :=
  Bytes.ofWordBE (x >>> 32).toUInt32 ++ Bytes.ofWordBE x.toUInt32

/-- The sixteen bytes. -/
def toBytes (x : Block) : Bytes := halfBytes x.hi ++ halfBytes x.lo

/-- The block that starts a byte string, filled up with zeros. -/
def ofBytes (b : Bytes) : Block :=
  match Bytes.wordsBE (Bytes.resize b 16) with
  | a :: b :: c :: d :: _ => ofWords a b c d
  | _ => zero

@[simp] theorem length_toBytes (x : Block) : x.toBytes.length = 16 := rfl

end Block

namespace Aes

/-- The substitution box: inversion in the field of 256 elements and an affine map. -/
def box : Array UInt8 := #[
  0x63, 0x7c, 0x77, 0x7b, 0xf2, 0x6b, 0x6f, 0xc5, 0x30, 0x01, 0x67, 0x2b, 0xfe, 0xd7, 0xab, 0x76,
  0xca, 0x82, 0xc9, 0x7d, 0xfa, 0x59, 0x47, 0xf0, 0xad, 0xd4, 0xa2, 0xaf, 0x9c, 0xa4, 0x72, 0xc0,
  0xb7, 0xfd, 0x93, 0x26, 0x36, 0x3f, 0xf7, 0xcc, 0x34, 0xa5, 0xe5, 0xf1, 0x71, 0xd8, 0x31, 0x15,
  0x04, 0xc7, 0x23, 0xc3, 0x18, 0x96, 0x05, 0x9a, 0x07, 0x12, 0x80, 0xe2, 0xeb, 0x27, 0xb2, 0x75,
  0x09, 0x83, 0x2c, 0x1a, 0x1b, 0x6e, 0x5a, 0xa0, 0x52, 0x3b, 0xd6, 0xb3, 0x29, 0xe3, 0x2f, 0x84,
  0x53, 0xd1, 0x00, 0xed, 0x20, 0xfc, 0xb1, 0x5b, 0x6a, 0xcb, 0xbe, 0x39, 0x4a, 0x4c, 0x58, 0xcf,
  0xd0, 0xef, 0xaa, 0xfb, 0x43, 0x4d, 0x33, 0x85, 0x45, 0xf9, 0x02, 0x7f, 0x50, 0x3c, 0x9f, 0xa8,
  0x51, 0xa3, 0x40, 0x8f, 0x92, 0x9d, 0x38, 0xf5, 0xbc, 0xb6, 0xda, 0x21, 0x10, 0xff, 0xf3, 0xd2,
  0xcd, 0x0c, 0x13, 0xec, 0x5f, 0x97, 0x44, 0x17, 0xc4, 0xa7, 0x7e, 0x3d, 0x64, 0x5d, 0x19, 0x73,
  0x60, 0x81, 0x4f, 0xdc, 0x22, 0x2a, 0x90, 0x88, 0x46, 0xee, 0xb8, 0x14, 0xde, 0x5e, 0x0b, 0xdb,
  0xe0, 0x32, 0x3a, 0x0a, 0x49, 0x06, 0x24, 0x5c, 0xc2, 0xd3, 0xac, 0x62, 0x91, 0x95, 0xe4, 0x79,
  0xe7, 0xc8, 0x37, 0x6d, 0x8d, 0xd5, 0x4e, 0xa9, 0x6c, 0x56, 0xf4, 0xea, 0x65, 0x7a, 0xae, 0x08,
  0xba, 0x78, 0x25, 0x2e, 0x1c, 0xa6, 0xb4, 0xc6, 0xe8, 0xdd, 0x74, 0x1f, 0x4b, 0xbd, 0x8b, 0x8a,
  0x70, 0x3e, 0xb5, 0x66, 0x48, 0x03, 0xf6, 0x0e, 0x61, 0x35, 0x57, 0xb9, 0x86, 0xc1, 0x1d, 0x9e,
  0xe1, 0xf8, 0x98, 0x11, 0x69, 0xd9, 0x8e, 0x94, 0x9b, 0x1e, 0x87, 0xe9, 0xce, 0x55, 0x28, 0xdf,
  0x8c, 0xa1, 0x89, 0x0d, 0xbf, 0xe6, 0x42, 0x68, 0x41, 0x99, 0x2d, 0x0f, 0xb0, 0x54, 0xbb, 0x16]

/-- The substitution of one byte. -/
@[inline] def substitute (b : UInt8) : UInt8 := box.getD b.toNat 0

/-- The substitution of each byte of a word. -/
def substituteWord (w : UInt32) : UInt32 :=
  Bytes.word (substitute (w >>> 24).toUInt8) (substitute (w >>> 16).toUInt8)
    (substitute (w >>> 8).toUInt8) (substitute w.toUInt8)

/-- Rotation to the left by `n` of 32 bits. -/
@[inline] def rotateLeft (x : UInt32) (n : UInt32) : UInt32 := (x <<< n) ||| (x >>> (32 - n))

/-- Doubles each byte of a word in the field of 256 elements. -/
@[inline] def double (w : UInt32) : UInt32 :=
  ((w &&& 0x7f7f7f7f) <<< 1) ^^^ (((w >>> 7) &&& 0x01010101) * 0x1b)

/-! ## Round keys -/

/-- The words added while the round keys are made, one for each turn of eight words. -/
def turnConstants : List UInt32 :=
  [0x01000000, 0x02000000, 0x04000000, 0x08000000, 0x10000000, 0x20000000, 0x40000000]

/-- The next eight words of the round keys. -/
def nextWords (constant : UInt32) : List UInt32 → List UInt32
  | [a, b, c, d, e, f, g, h] =>
    let a := a ^^^ substituteWord (rotateLeft h 8) ^^^ constant
    let b := b ^^^ a
    let c := c ^^^ b
    let d := d ^^^ c
    let e := e ^^^ substituteWord d
    let f := f ^^^ e
    let g := g ^^^ f
    let h := h ^^^ g
    [a, b, c, d, e, f, g, h]
  | words => words

/-- All words of the round keys, from the eight of the key. -/
def expandWords : List UInt32 → List UInt32 → List UInt32
  | words, [] => words
  | words, constant :: rest => words ++ expandWords (nextWords constant words) rest

/-- Four columns: the state of the cipher between two rounds, or a round key. -/
structure Columns where
  (a b c d : UInt32)
deriving DecidableEq

/-- Every four words as columns. -/
def columns : List UInt32 → List Columns
  | a :: b :: c :: d :: rest => ⟨a, b, c, d⟩ :: columns rest
  | _ => []

/-- The key of the start and the keys of the fourteen rounds. -/
structure RoundKeys where
  first : Columns
  rest : List Columns
deriving DecidableEq

/-- The round keys of a 32-byte key. -/
def RoundKeys.ofKey (key : Bytes) : RoundKeys :=
  match (columns (expandWords (Bytes.wordsBE (Bytes.resize key 32)) turnConstants)).take 15 with
  | first :: rest => ⟨first, rest⟩
  | [] => ⟨⟨0, 0, 0, 0⟩, []⟩

/-! ## Rounds -/

/-- Column by column exclusive or. -/
@[inline] def Columns.xor (x y : Columns) : Columns :=
  ⟨x.a ^^^ y.a, x.b ^^^ y.b, x.c ^^^ y.c, x.d ^^^ y.d⟩

/-- One column behind substitution and row shift: row `i` comes from the `i`-th column on. -/
@[inline] def shifted (a b c d : UInt32) : UInt32 :=
  Bytes.word (substitute (a >>> 24).toUInt8) (substitute (b >>> 16).toUInt8)
    (substitute (c >>> 8).toUInt8) (substitute d.toUInt8)

/-- Substitution and row shift. -/
def Columns.shift (s : Columns) : Columns :=
  ⟨shifted s.a s.b s.c s.d, shifted s.b s.c s.d s.a, shifted s.c s.d s.a s.b,
    shifted s.d s.a s.b s.c⟩

/-- One column mixed. -/
@[inline] def mix (w : UInt32) : UInt32 :=
  double w ^^^ rotateLeft (w ^^^ double w) 8 ^^^ rotateLeft w 16 ^^^ rotateLeft w 24

/-- All columns mixed. -/
def Columns.mix (s : Columns) : Columns := ⟨Aes.mix s.a, Aes.mix s.b, Aes.mix s.c, Aes.mix s.d⟩

/-- The rounds; the last one does not mix. -/
def rounds : Columns → List Columns → Columns
  | s, [] => s
  | s, [key] => s.shift.xor key
  | s, key :: keys => rounds (s.shift.mix.xor key) keys

/-- The encryption of a block. -/
def encrypt (keys : RoundKeys) (x : Block) : Block :=
  let start : Columns :=
    ⟨(x.hi >>> 32).toUInt32, x.hi.toUInt32, (x.lo >>> 32).toUInt32, x.lo.toUInt32⟩
  let s := rounds (start.xor keys.first) keys.rest
  Block.ofWords s.a s.b s.c s.d

end Aes

end Vault
