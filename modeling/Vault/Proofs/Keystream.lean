import Vault.Cipher.Stream
import Vault.Proofs.Bytes
import Vault.Proofs.Sealing

/-!
# `Vault/Proofs/Keystream.lean` — a key stream goes on where it stopped

The key stream of a chunk is one endless string of bytes, whatever pieces it is asked for in:
**asking for some bytes and then for those behind them is asking for all of them at once.** So a
chunk that was encrypted piece by piece is what it would be if it had been encrypted as a whole
(`StreamEncryptor.packed_append`), and it opens to what went into it.

Both facts are about positions: byte `i` of the stream is byte `i % 64` of block `i / 64`, wherever
the stream is entered.
-/

set_option autoImplicit false

namespace Vault

namespace Bytes

theorem xor_append {a b k l : Bytes} (h : a.length = k.length) :
    xor (a ++ b) (k ++ l) = xor a k ++ xor b l :=
  List.zipWith_append h

end Bytes

namespace Salsa20

variable (key nonce : Bytes)

/-! ## Byte by byte -/

theorem getElem?_blocks (count number i : Nat) :
    (blocks key nonce count number)[i]? =
      if i < 64 * count then (block key nonce (number + i / 64))[i % 64]? else none := by
  -- on the blocks; behind the first one the others are counted on from it
  induction count generalizing number i with
  | zero => simp [blocks]
  | succ count ih =>
    rw [blocks, List.getElem?_append, length_block, ih, blockSize]
    by_cases hfirst : i < 64
    · rw [if_pos hfirst, if_pos (by omega), Nat.div_eq_of_lt hfirst, Nat.mod_eq_of_lt hfirst]
      rfl
    · have hnumber : number + 1 + (i - 64) / 64 = number + i / 64 := by omega
      have hplace : (i - 64) % 64 = i % 64 := by omega
      have hinside : i - 64 < 64 * count ↔ i < 64 * (count + 1) := by omega
      simp only [if_neg hfirst, hnumber, hplace, hinside]

theorem getElem?_keystream (position len i : Nat) :
    (keystream key nonce position len)[i]? =
      if i < len then (block key nonce ((position + i) / 64))[(position + i) % 64]? else none := by
  rw [keystream, Bytes.getElem?_slice, getElem?_blocks, blockSize]
  by_cases hi : i < len
  · have hnumber : position / 64 + (position % 64 + i) / 64 = (position + i) / 64 := by omega
    have hplace : (position % 64 + i) % 64 = (position + i) % 64 := by omega
    rw [if_pos hi, if_pos hi, if_pos (by omega), hnumber, hplace]
  · rw [if_neg hi, if_neg hi]

/-- **The key stream goes on where it stopped.** -/
theorem keystream_append (position m n : Nat) :
    keystream key nonce position m ++ keystream key nonce (position + m) n
      = keystream key nonce position (m + n) := by
  apply List.ext_getElem?
  intro i
  rw [List.getElem?_append, length_keystream, getElem?_keystream, getElem?_keystream,
    getElem?_keystream]
  by_cases hi : i < m
  · rw [if_pos hi, if_pos hi, if_pos (by omega)]
  · have hplace : position + m + (i - m) = position + i := by omega
    have hinside : i - m < n ↔ i < m + n := by omega
    simp only [if_neg hi, hplace, hinside]

end Salsa20

/-! ## Chunks that grow

The stream of a chunk starts at its first byte, behind the nonce. A chunk that is longer has the
same nonce, so its first bytes are encrypted as they were. -/

namespace StreamEncryptor

/-- A content encrypted as a whole, behind its nonce. -/
def packed (key nonce plain : Bytes) : Bytes :=
  nonce ++ Bytes.xor plain (Salsa20.keystream key nonce 0 plain.length)

variable {key nonce plain data : Bytes}

@[simp] theorem length_packed :
    (packed key nonce plain).length = nonce.length + plain.length := by
  simp [packed]

/-- **What comes behind a content is encrypted with the key stream from its end on,** and what was
encrypted before stays as it is. -/
theorem packed_append (key nonce plain data : Bytes) :
    packed key nonce (plain ++ data)
      = packed key nonce plain ++
        Bytes.xor data (Salsa20.keystream key nonce plain.length data.length) := by
  have hsplit := Salsa20.keystream_append key nonce 0 plain.length data.length
  rw [Nat.zero_add] at hsplit
  rw [packed, packed, List.length_append, ← hsplit, Bytes.xor_append (by simp), List.append_assoc]

/-- What was encrypted opens again. -/
theorem openChunk_packed (hnonce : nonce.length = Salsa20.nonceSize) :
    openChunk key (packed key nonce plain) = .ok plain := by
  have htake : (packed key nonce plain).take Salsa20.nonceSize = nonce := by
    rw [packed, ← hnonce, List.take_left]
  have hdrop : (packed key nonce plain).drop Salsa20.nonceSize
      = Bytes.xor plain (Salsa20.keystream key nonce 0 plain.length) := by
    rw [packed, ← hnonce, List.drop_left]
  have hlen : ¬(packed key nonce plain).length < Salsa20.nonceSize := by
    rw [length_packed, hnonce]
    omega
  have hback := Bytes.xor_xor_cancel (a := plain)
    (k := Salsa20.keystream key nonce 0 plain.length) (by simp)
  simp only [openChunk, if_neg hlen, htake, hdrop, start, if_pos hnonce, bind, Except.bind, apply,
    Bytes.length_xor, Salsa20.length_keystream, Nat.min_self, hback]
  rfl

/-- Any bytes behind a chunk are opened with the key stream of their places. -/
theorem openChunk_packed_append (hnonce : nonce.length = Salsa20.nonceSize) :
    openChunk key (packed key nonce plain ++ data)
      = .ok (plain ++ Bytes.xor data (Salsa20.keystream key nonce plain.length data.length)) := by
  have hback := Bytes.xor_xor_cancel (a := data)
    (k := Salsa20.keystream key nonce plain.length data.length) (by simp)
  have hwhole := packed_append key nonce plain
    (Bytes.xor data (Salsa20.keystream key nonce plain.length data.length))
  rw [Bytes.length_xor, Salsa20.length_keystream, Nat.min_self, hback] at hwhole
  rw [← hwhole, openChunk_packed hnonce]

end StreamEncryptor

end Vault
