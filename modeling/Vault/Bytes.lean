/-!
# `Vault/Bytes.lean` — byte strings, and numbers written in them

A raw file, a chunk, a key and a record are all byte strings, and the whole library treats them
as plain lists. The one operation that is not a list operation already is `overlay`: laying new
bytes over old ones from some position, filling the gap with zeros when the old bytes end before
it. **Writing into a chunk, writing into a raw file and writing into the flat content of a
container are the same `overlay`,** which is what lets the three be compared.

Numbers are written least significant byte first (`ofNatLE`, `toNatLE`) in every record, and
most significant byte first (`ofNatBE`) inside the hash functions.
-/

set_option autoImplicit false

namespace Vault

/-- A byte string. -/
abbrev Bytes := List UInt8

namespace Bytes

/-! ## Cutting, filling and laying over -/

/-- `n` zero bytes. -/
def zeros (n : Nat) : Bytes := List.replicate n 0

/-- The `len` bytes from `start` on, or what there is of them. -/
def slice (b : Bytes) (start len : Nat) : Bytes := (b.drop start).take len

/-- `base` with `data` laid over it from `start` on; a gap between them is filled with zeros. -/
def overlay (base : Bytes) (start : Nat) (data : Bytes) : Bytes :=
  base.take start ++ (zeros (start - base.length) ++ (data ++ base.drop (start + data.length)))

/-- The first `n` bytes of `b`, with zeros behind them when `b` is shorter. -/
def resize (b : Bytes) (n : Nat) : Bytes := b.take n ++ zeros (n - b.length)

/-- Byte by byte exclusive or, as long as both last. -/
def xor (a b : Bytes) : Bytes := List.zipWith (· ^^^ ·) a b

@[simp] theorem length_zeros (n : Nat) : (zeros n).length = n := by simp [zeros]

@[simp] theorem length_overlay (base : Bytes) (start : Nat) (data : Bytes) :
    (overlay base start data).length = max base.length (start + data.length) := by
  simp only [overlay, List.length_append, List.length_take, length_zeros, List.length_drop]
  omega

@[simp] theorem length_resize (b : Bytes) (n : Nat) : (resize b n).length = n := by
  simp only [resize, List.length_append, List.length_take, length_zeros]
  omega

@[simp] theorem length_xor (a b : Bytes) : (xor a b).length = min a.length b.length := by
  simp [xor]

/-! ## Numbers -/

/-- The `width` low bytes of `n`, least significant first. -/
def ofNatLE : Nat → Nat → Bytes
  | 0, _ => []
  | width + 1, n => UInt8.ofNat (n % 256) :: ofNatLE width (n / 256)

/-- The number whose bytes are `b`, least significant first. -/
def toNatLE : Bytes → Nat
  | [] => 0
  | b :: rest => b.toNat + 256 * toNatLE rest

/-- One more than the largest number that `width` bytes can hold. -/
def limit : Nat → Nat
  | 0 => 1
  | width + 1 => 256 * limit width

/-- The `width` low bytes of `n`, most significant first. -/
def ofNatBE (width n : Nat) : Bytes := (ofNatLE width n).reverse

/-- The four bytes of a word, least significant first. -/
def ofWordLE (w : UInt32) : Bytes :=
  [w.toUInt8, (w >>> 8).toUInt8, (w >>> 16).toUInt8, (w >>> 24).toUInt8]

/-- The four bytes of a word, most significant first. -/
def ofWordBE (w : UInt32) : Bytes :=
  [(w >>> 24).toUInt8, (w >>> 16).toUInt8, (w >>> 8).toUInt8, w.toUInt8]

/-- The word made of four bytes, most significant first. -/
def word (a b c d : UInt8) : UInt32 :=
  (a.toUInt32 <<< 24) ||| (b.toUInt32 <<< 16) ||| (c.toUInt32 <<< 8) ||| d.toUInt32

/-- The words of a byte string, most significant byte first; an incomplete last one is left out. -/
def wordsBE : Bytes → List UInt32
  | a :: b :: c :: d :: rest => word a b c d :: wordsBE rest
  | _ => []

/-- The words of a byte string, least significant byte first; an incomplete last one is left out. -/
def wordsLE : Bytes → List UInt32
  | a :: b :: c :: d :: rest => word d c b a :: wordsLE rest
  | _ => []

@[simp] theorem length_ofNatLE (width n : Nat) : (ofNatLE width n).length = width := by
  induction width generalizing n with
  | zero => rfl
  | succ width ih => simp [ofNatLE, ih]

@[simp] theorem length_ofNatBE (width n : Nat) : (ofNatBE width n).length = width := by
  simp [ofNatBE]

@[simp] theorem length_ofWordLE (w : UInt32) : (ofWordLE w).length = 4 := rfl

@[simp] theorem length_ofWordBE (w : UInt32) : (ofWordBE w).length = 4 := rfl

/-- Reading back what was written gives the number, cut to the width. -/
theorem toNatLE_ofNatLE (width n : Nat) : toNatLE (ofNatLE width n) = n % limit width := by
  induction width generalizing n with
  | zero => simp [ofNatLE, toNatLE, limit, Nat.mod_one]
  | succ width ih =>
    have h : (UInt8.ofNat (n % 256)).toNat = n % 256 := by
      simp [UInt8.toNat_ofNat']
    rw [ofNatLE, toNatLE, ih, h, limit, Nat.mod_mul]

theorem toNatLE_lt (b : Bytes) : toNatLE b < limit b.length := by
  induction b with
  | nil => simp [toNatLE, limit]
  | cons x rest ih =>
    have hx : x.toNat < 256 := x.toNat_lt
    rw [toNatLE, List.length_cons, limit]
    omega

/-- Writing back what was read gives the same bytes. -/
theorem ofNatLE_toNatLE (b : Bytes) : ofNatLE b.length (toNatLE b) = b := by
  induction b with
  | nil => rfl
  | cons x rest ih =>
    have hx : x.toNat < 256 := x.toNat_lt
    have hmod : (x.toNat + 256 * toNatLE rest) % 256 = x.toNat := by omega
    have hdiv : (x.toNat + 256 * toNatLE rest) / 256 = toNatLE rest := by omega
    rw [List.length_cons, toNatLE, ofNatLE, hmod, hdiv, ih]
    simp

end Bytes

end Vault
