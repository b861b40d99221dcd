import Vault.Proofs.Sealing
import Vault.Proofs.Words

/-!
# `Vault/Proofs/GaloisCounter.lean` — sealed chunks, byte by byte

The mode in which chunks are sealed works on halves of blocks and on words of them, a block at a
time. Its definition does not: a message is combined with encrypted counter blocks byte by byte
(`Gcm.mask`), and the tag is a polynomial over blocks of 128 bits, in which the associated data and
the ciphertext are filled up with zeros and followed by their lengths (`Gcm.ghash`). **Both come to
the same for messages of every length** (`Gcm.encrypts_iff`), the empty one and those that end
inside a block among them.

So a sealed chunk opens to a content if and only if sealing the content, under the nonce that the
chunk begins with, gives that chunk and no other.
-/

set_option autoImplicit false

namespace Vault

/-! ## Words and blocks

A block is two halves of 64 bits, each of them two words of four bytes. The three lemmas on
`ofWords` and bytes say that these are three ways of writing the same; `Block.bits` is a fourth,
in which the operations of the mode have their definitions. -/

namespace Block

theorem toBytes_ofWords (a b c d : UInt32) : (ofWords a b c d).toBytes
    = Bytes.ofWordBE a ++ (Bytes.ofWordBE b ++ (Bytes.ofWordBE c ++ Bytes.ofWordBE d)) := by
  have hhi (x y : UInt32) : (join x y >>> 32).toUInt32 = x := by
    refine Bytes.word_ext fun i hi => ?_
    simp [join]
    grind
  have hlo (x y : UInt32) : (join x y).toUInt32 = y := by
    refine Bytes.word_ext fun i hi => ?_
    simp [join]
  simp only [toBytes, ofWords, halfBytes, hhi, hlo, List.append_assoc]

theorem exists_ofWords (x : Block) : ∃ a b c d, x = ofWords a b c d := by
  have hjoin (w : UInt64) : join (w >>> 32).toUInt32 w.toUInt32 = w := by
    refine Bytes.half_ext fun i hi => ?_
    simp [join, -UInt64.toUInt64_toUInt32]
    grind
  refine ⟨(x.hi >>> 32).toUInt32, x.hi.toUInt32, (x.lo >>> 32).toUInt32, x.lo.toUInt32, ?_⟩
  rw [ofWords, hjoin, hjoin]

/-- A block is made of its bytes. -/
theorem ofBytes_toBytes (x : Block) : ofBytes x.toBytes = x := by
  obtain ⟨a, b, c, d, rfl⟩ := x.exists_ofWords
  have hwords : Bytes.wordsBE (ofWords a b c d).toBytes = [a, b, c, d] := by
    have hlast := Bytes.wordsBE_ofWordBE d []
    rw [List.append_nil] at hlast
    simp only [toBytes_ofWords, Bytes.wordsBE_ofWordBE, hlast]
    rfl
  rw [ofBytes, Bytes.resize_of_le (Nat.le_refl 16), List.take_of_length_le (Nat.le_refl 16), hwords]

/-- A block has the bytes that it was made of. -/
theorem toBytes_ofBytes {b : Bytes} (h : b.length = 16) : (ofBytes b).toBytes = b := by
  match b, h with
  | [a₀, a₁, a₂, a₃, b₀, b₁, b₂, b₃, c₀, c₁, c₂, c₃, d₀, d₁, d₂, d₃], _ =>
    have hbytes := toBytes_ofWords (Bytes.word a₀ a₁ a₂ a₃) (Bytes.word b₀ b₁ b₂ b₃)
      (Bytes.word c₀ c₁ c₂ c₃) (Bytes.word d₀ d₁ d₂ d₃)
    simp only [Bytes.ofWordBE_word, List.cons_append, List.nil_append] at hbytes
    rw [← hbytes, ofBytes_toBytes]

/-- The bits of a block, the first one in the top place. -/
def bits (x : Block) : BitVec 128 := x.hi.toBitVec ++ x.lo.toBitVec

theorem getLsbD_bits (x : Block) (i : Nat) : x.bits.getLsbD i =
    if i < 64 then x.lo.toBitVec.getLsbD i else x.hi.toBitVec.getLsbD (i - 64) := by
  rw [bits, BitVec.getLsbD_append]

theorem lsb_bits (x : Block) : x.bits.getLsbD 0 = x.lo.toBitVec.getLsbD 0 := by
  rw [getLsbD_bits, if_pos (by decide : 0 < 64)]

theorem msb_bits (x : Block) : x.bits.msb = x.hi.toBitVec.msb := by
  rw [bits, BitVec.msb_append]
  simp

theorem bits_injective {x y : Block} (h : x.bits = y.bits) : x = y := by
  have hbit (i : Nat) := congrArg (BitVec.getLsbD · i) h
  simp only [getLsbD_bits] at hbit
  have hlo : x.lo = y.lo := by
    refine Bytes.half_ext fun i hi => ?_
    have h := hbit i
    rwa [if_pos hi, if_pos hi] at h
  have hhi : x.hi = y.hi := by
    refine Bytes.half_ext fun i _ => ?_
    have h := hbit (i + 64)
    rwa [if_neg (by omega), if_neg (by omega), Nat.add_sub_cancel] at h
  cases x
  cases y
  rw [mk.injEq]
  exact ⟨hhi, hlo⟩

theorem bits_xor (x y : Block) : (x.xor y).bits = x.bits ^^^ y.bits := by
  apply BitVec.eq_of_getLsbD_eq
  intro i hi
  rw [BitVec.getLsbD_xor, getLsbD_bits, getLsbD_bits, getLsbD_bits]
  simp [xor]
  grind

end Block

namespace Gcm

variable {key : Key} {nonce aad plain ciphertext tag : Bytes}

/-! ## The key stream -/

/-- The encrypted counter block of a nonce and a number. -/
def mask (key : Key) (nonce : Bytes) (n : Nat) : Block :=
  Aes.encrypt key.rounds (Block.ofBytes (nonce ++ Bytes.ofNatBE 4 n))

/-- A counter block is the nonce with the number behind it. -/
theorem counterBlock_eq (hnonce : nonce.length = nonceSize) (n : Nat) :
    counterBlock nonce (UInt32.ofNat n) = Block.ofBytes (nonce ++ Bytes.ofNatBE 4 n) := by
  -- the mask keeps the upper word of the half, and the number takes the place of the lower one
  have hlow (x y w : UInt32) :
      (Block.join x y &&& 0xFFFFFFFF00000000) ||| w.toUInt64 = Block.join x w := by
    have hones : ∀ i < 64, (0xFFFFFFFF00000000#64).getLsbD i = decide (32 ≤ i) := by decide
    refine Bytes.half_ext fun i hi => ?_
    simp [Block.join, hones i hi]
    grind
  rw [← Bytes.ofWordBE_ofNat]
  match nonce, hnonce with
  | [a₀, a₁, a₂, a₃, b₀, b₁, b₂, b₃, c₀, c₁, c₂, c₃], _ =>
    have hblock (w : UInt32) := Block.ofBytes_toBytes (Block.ofWords (Bytes.word a₀ a₁ a₂ a₃)
      (Bytes.word b₀ b₁ b₂ b₃) (Bytes.word c₀ c₁ c₂ c₃) w)
    simp only [Block.toBytes_ofWords, Bytes.ofWordBE_word] at hblock
    have hstart : Block.ofBytes [a₀, a₁, a₂, a₃, b₀, b₁, b₂, b₃, c₀, c₁, c₂, c₃] = _ := hblock 0
    rw [counterBlock, hstart]
    exact (congrArg (Block.mk _) (hlow _ _ _)).trans (hblock _).symm

/-! ## Byte by byte -/

theorem getElem?_keystream (blocks n i : Nat) (hnonce : nonce.length = nonceSize) :
    (keystream key nonce blocks (UInt32.ofNat n))[i]? =
      if i < 16 * blocks then (mask key nonce (n + i / 16)).toBytes[i % 16]? else none := by
  -- on the blocks; the first one has the first 16 bytes, and the others are counted on from it
  induction blocks generalizing n i with
  | zero => simp [keystream]
  | succ blocks ih =>
    have hnext : UInt32.ofNat n + 1 = UInt32.ofNat (n + 1) := by
      rw [UInt32.ofNat_add]
      rfl
    rw [keystream, counterBlock_eq hnonce, List.getElem?_append, Block.length_toBytes, hnext, ih]
    by_cases hfirst : i < 16
    · rw [if_pos hfirst, if_pos (by omega), Nat.div_eq_of_lt hfirst, Nat.mod_eq_of_lt hfirst]
      rfl
    · have hnumber : n + 1 + (i - 16) / 16 = n + i / 16 := by omega
      have hplace : (i - 16) % 16 = i % 16 := by omega
      have hinside : i - 16 < 16 * blocks ↔ i < 16 * (blocks + 1) := by omega
      simp only [if_neg hfirst, hnumber, hplace, hinside]

/-- Each byte of a message is combined with its byte of the key stream. -/
theorem getElem?_crypt (hnonce : nonce.length = nonceSize) (k : Nat) :
    (crypt key nonce plain)[k]? =
      if k < plain.length then
        some (plain.getD k 0 ^^^ (mask key nonce (2 + k / 16)).toBytes.getD (k % 16) 0)
      else none := by
  have hstream : (keystream key nonce ((plain.length + 15) / 16) 2)[k]? = _ :=
    getElem?_keystream _ 2 k hnonce
  rw [crypt, Bytes.xor, List.getElem?_zipWith, hstream]
  by_cases hk : k < plain.length
  · have hplace : k % 16 < (mask key nonce (2 + k / 16)).toBytes.length :=
      Nat.mod_lt k (by decide)
    rw [if_pos hk, if_pos (by omega), List.getD_eq_getElem?_getD, List.getD_eq_getElem?_getD,
      List.getElem?_eq_getElem hk, List.getElem?_eq_getElem hplace]
    rfl
  · rw [if_neg hk, List.getElem?_eq_none (Nat.le_of_not_lt hk)]

/-! ## Products

The product is computed from one factor bit by bit, while the other one is doubled. The
definition takes the bits as they are; the program shifts two halves and turns each bit into a
mask. -/

/-- The product of two elements of the field of 2^128 elements, of which `x` has `n` more bits, `z`
is the sum so far and `v` the multiple of the other factor that belongs to the next bit. -/
def timesFrom : (n : Nat) → (x z v : BitVec 128) → BitVec 128
  | 0, _, z, _ => z
  | n + 1, x, z, v =>
    timesFrom n (x <<< 1) (if x.msb then z ^^^ v else z)
      (if v.getLsbD 0 then (v >>> 1) ^^^ (0xe1#128 <<< 120) else v >>> 1)

/-- The product of two field elements, bit by bit. -/
def times (x y : BitVec 128) : BitVec 128 := timesFrom 128 x 0 y

theorem bits_double (hi lo : UInt64) :
    (Block.mk ((hi <<< 1) ||| (lo >>> 63)) (lo <<< 1)).bits = (Block.mk hi lo).bits <<< 1 := by
  apply BitVec.eq_of_getLsbD_eq
  intro i hi
  rw [BitVec.getLsbD_shiftLeft, Block.getLsbD_bits, Block.getLsbD_bits]
  simp
  grind

theorem bits_halve (hi lo : UInt64) :
    (Block.mk (hi >>> 1) ((lo >>> 1) ||| (hi <<< 63))).bits = (Block.mk hi lo).bits >>> 1 := by
  apply BitVec.eq_of_getLsbD_eq
  intro i hi
  rw [BitVec.getLsbD_ushiftRight, Block.getLsbD_bits, Block.getLsbD_bits]
  simp
  grind

/-! The two bits that decide about a step are taken as numbers, and made into masks. -/

theorem shift_top (x : UInt64) : x >>> 63 = if x.toBitVec.msb then 1 else 0 := by
  have hlt := x.toNat_lt
  have hshift : (x >>> 63).toNat = x.toNat / 2 ^ 63 := by
    rw [UInt64.toNat_shiftRight, Nat.shiftRight_eq_div_pow]
    rfl
  cases htop : x.toBitVec.msb with
  | false =>
    have hlow : x.toNat < 2 ^ 63 := by
      rw [BitVec.msb_eq_decide, decide_eq_false_iff_not] at htop
      exact Nat.lt_of_not_le htop
    exact UInt64.toNat_inj.mp (hshift.trans (Nat.div_eq_of_lt hlow))
  | true =>
    have hhigh : 2 ^ 63 ≤ x.toNat := by
      rw [BitVec.msb_eq_decide, decide_eq_true_iff] at htop
      exact htop
    have hone : x.toNat / 2 ^ 63 = 1 := Nat.div_eq_of_lt_le (by omega) (by omega)
    exact UInt64.toNat_inj.mp (hshift.trans hone)

theorem and_one (x : UInt64) : x &&& 1 = if x.toBitVec.getLsbD 0 then 1 else 0 := by
  have hand : (x &&& 1).toNat = x.toNat % 2 := by
    rw [UInt64.toNat_and]
    exact Nat.and_one_is_mod _
  have hbit : x.toBitVec.getLsbD 0 = decide (x.toNat % 2 = 1) := Nat.testBit_zero _
  rw [hbit]
  rcases Nat.mod_two_eq_zero_or_one x.toNat with heven | hodd
  · rw [heven] at hand ⊢
    exact UInt64.toNat_inj.mp hand
  · rw [hodd] at hand ⊢
    exact UInt64.toNat_inj.mp hand

theorem and_mask (b : Bool) (v : UInt64) :
    v &&& (0 - (if b then 1 else 0)) = if b then v else 0 := by
  cases b with
  | false => simp
  | true => exact UInt64.eq_of_toBitVec_eq (by simp)

theorem bits_multiply (n : Nat) (xhi xlo zhi zlo vhi vlo : UInt64) :
    (multiply n xhi xlo zhi zlo vhi vlo).bits
      = timesFrom n (Block.mk xhi xlo).bits (Block.mk zhi zlo).bits (Block.mk vhi vlo).bits := by
  -- one step of either computation, and then the rest of both
  induction n generalizing xhi xlo zhi zlo vhi vlo with
  | zero => rfl
  | succ n ih =>
    rw [multiply, timesFrom, ih, bits_double]
    congr 1
    · rw [Block.msb_bits, shift_top, and_mask, and_mask]
      cases xhi.toBitVec.msb with
      | false => simp
      | true => exact Block.bits_xor ⟨zhi, zlo⟩ ⟨vhi, vlo⟩
    · rw [Block.lsb_bits, and_one, UInt64.and_comm, and_mask, ← bits_halve]
      cases vlo.toBitVec.getLsbD 0 with
      -- without the bit the mask is zero, and nothing is added to the halved factor
      | false => simp
      | true =>
        have hreduce := Block.bits_xor ⟨vhi >>> 1, (vlo >>> 1) ||| (vhi <<< 63)⟩
          ⟨0xe100000000000000, 0⟩
        rw [Block.xor, UInt64.xor_zero] at hreduce
        exact hreduce

theorem bits_product (x y : Block) : (product x y).bits = times x.bits y.bits :=
  bits_multiply 128 x.hi x.lo 0 0 y.hi y.lo

/-! ## The tag

The blocks of a byte string are numbered here, and absorbed one after the other there. The last
block may be short; both fill it up with zeros. -/

/-- The blocks of a byte string, the last one filled up with zeros. -/
def blocks (data : Bytes) : List (BitVec 128) :=
  (List.range ((data.length + 15) / 16)).map fun k => (Block.ofBytes (data.slice (16 * k) 16)).bits

/-- What a tag is a hash of: associated data and ciphertext, filled up, and their lengths in bits.
-/
def hashed (aad ciphertext : Bytes) : List (BitVec 128) :=
  blocks aad ++ blocks ciphertext ++
    [BitVec.ofNat 64 (8 * aad.length) ++ BitVec.ofNat 64 (8 * ciphertext.length)]

/-- The hash of some blocks, which is a polynomial in the key. -/
def ghash (hashKey : BitVec 128) (xs : List (BitVec 128)) : BitVec 128 :=
  xs.foldl (fun y x => times (y ^^^ x) hashKey) 0

theorem bits_absorb (hashKey y : Block) (data : Bytes) (n : Nat) :
    (absorb hashKey n y data).bits =
      ((List.range n).map fun k => (Block.ofBytes (data.slice (16 * k) 16)).bits).foldl
        (fun y x => times (y ^^^ x) hashKey.bits) y.bits := by
  induction n generalizing y data with
  | zero => rfl
  | succ n ih =>
    have hfirst : data.slice (16 * 0) 16 = data.take 16 := rfl
    have hrest (k : Nat) : data.slice (16 * k.succ) 16 = Bytes.slice (data.drop 16) (16 * k) 16 := by
      simp only [Bytes.slice, List.drop_drop, Nat.mul_succ, Nat.add_comm]
    simp only [absorb, ih, List.range_succ_eq_map, List.map_cons, List.foldl_cons, List.map_map,
      Function.comp_def, bits_product, Block.bits_xor, hfirst, hrest]

theorem bits_hash (hashKey : Block) (aad ciphertext : Bytes) :
    (hash hashKey aad ciphertext).bits = ghash hashKey.bits (hashed aad ciphertext) := by
  have hzero : Block.zero.bits = 0 := rfl
  have hlengths : Block.bits ⟨UInt64.ofNat (8 * aad.length), UInt64.ofNat (8 * ciphertext.length)⟩
      = BitVec.ofNat 64 (8 * aad.length) ++ BitVec.ofNat 64 (8 * ciphertext.length) := rfl
  simp only [hash, ghash, hashed, blocks, bits_product, Block.bits_xor, bits_absorb, hzero, hlengths,
    List.foldl_append, List.foldl_cons, List.foldl_nil]

/-! ## Messages

A tag is compared as a block of bits, and bytes are compared each for itself. As a block has no
more than its bits, this fixes ciphertext and tag as strings of bytes. -/

/-- What encrypting a message comes to, by definition of the mode. -/
structure Encrypts (key : Key) (nonce aad plain ciphertext tag : Bytes) : Prop where
  length_ciphertext : ciphertext.length = plain.length
  length_tag : tag.length = tagSize
  byte : ∀ k < plain.length, ciphertext.getD k 0
    = plain.getD k 0 ^^^ (mask key nonce (2 + k / 16)).toBytes.getD (k % 16) 0
  tag : (Block.ofBytes tag).bits
    = (mask key nonce 1).bits ^^^ ghash key.hashKey.bits (hashed aad ciphertext)

/-- A tag is the one that the definition gives. -/
theorem eq_tag_iff (hnonce : nonce.length = nonceSize) (hlen : tag.length = tagSize) :
    tag = Gcm.tag key nonce aad ciphertext ↔
      (Block.ofBytes tag).bits
        = (mask key nonce 1).bits ^^^ ghash key.hashKey.bits (hashed aad ciphertext) := by
  have hmask : Aes.encrypt key.rounds (counterBlock nonce 1) = mask key nonce 1 :=
    congrArg (Aes.encrypt key.rounds) (counterBlock_eq hnonce 1)
  rw [Gcm.tag, hmask, ← bits_hash, BitVec.xor_comm, ← Block.bits_xor]
  constructor
  · intro h
    rw [h, Block.ofBytes_toBytes]
  · intro h
    rw [← Block.bits_injective h, Block.toBytes_ofBytes hlen]

/-- **Encrypting is what the definition says,** and nothing else is. -/
theorem encrypts_iff (hnonce : nonce.length = nonceSize) :
    Encrypts key nonce aad plain ciphertext tag ↔
      ciphertext = crypt key nonce plain ∧ tag = Gcm.tag key nonce aad ciphertext := by
  have hbyte (k : Nat) (hk : k < plain.length) : (crypt key nonce plain).getD k 0
      = plain.getD k 0 ^^^ (mask key nonce (2 + k / 16)).toBytes.getD (k % 16) 0 := by
    rw [List.getD_eq_getElem?_getD, getElem?_crypt hnonce, if_pos hk, Option.getD_some]
  constructor
  · intro h
    refine ⟨?_, (eq_tag_iff hnonce h.length_tag).mpr h.tag⟩
    refine List.ext_getElem (by rw [h.length_ciphertext, length_crypt]) fun k hk hk' => ?_
    have hplain : k < plain.length := h.length_ciphertext ▸ hk
    have hsame := (h.byte k hplain).trans (hbyte k hplain).symm
    rwa [List.getD_eq_getElem?_getD, List.getD_eq_getElem?_getD, List.getElem?_eq_getElem hk,
      List.getElem?_eq_getElem hk', Option.getD_some, Option.getD_some] at hsame
  · rintro ⟨rfl, rfl⟩
    have hlen := length_tag key nonce aad (crypt key nonce plain)
    exact ⟨length_crypt key nonce plain, hlen, hbyte, (eq_tag_iff hnonce hlen).mp rfl⟩

end Gcm

/-! ## Sealed chunks -/

namespace ChunkCipher

variable {c : ChunkCipher} {packed plain : Bytes} {i : Nat}

/-- **What opens to a content is a nonce, and behind it the ciphertext and the tag of the content.**
-/
theorem unpack_eq_ok_iff_encrypts : c.unpack packed i = .ok plain ↔
    ∃ nonce ciphertext tag : Bytes, nonce.length = Gcm.nonceSize ∧
      packed = nonce ++ (ciphertext ++ tag) ∧
      Gcm.Encrypts c.key nonce (associated i) plain ciphertext tag := by
  constructor
  · intro h
    obtain ⟨nonce, hnonce, hpack⟩ := unpack_eq_ok_iff.mp h
    exact ⟨nonce, _, _, hnonce, hpack, (Gcm.encrypts_iff hnonce).mpr ⟨rfl, rfl⟩⟩
  · rintro ⟨nonce, ciphertext, tag, hnonce, rfl, hencrypts⟩
    obtain ⟨rfl, rfl⟩ := (Gcm.encrypts_iff hnonce).mp hencrypts
    exact unpack_pack c plain i hnonce

/-- **Sealing and opening are inverse to each other.** Under every key and for every number, a chunk
is sealed with 28 more bytes under any nonce, and opens to what it was; and what opens to a content
is a nonce with the ciphertext and the tag of this content behind it, which is what sealing the
content under that nonce gives. What is shorter than 28 bytes is refused for that, and everything
else that does not open for not being authentic. -/
theorem sealing_inverts_opening (key : Bytes) (i : Nat) :
    (∀ nonce plain : Bytes, nonce.length = 12 →
      ((ofKey key).pack nonce plain i).length = plain.length + 28 ∧
      (ofKey key).unpack ((ofKey key).pack nonce plain i) i = .ok plain) ∧
    ∀ packed : Bytes,
      (∀ plain, (ofKey key).unpack packed i = .ok plain →
        packed.length = plain.length + 28 ∧
        packed = (ofKey key).pack (packed.take 12) plain i) ∧
      (∀ plain, (ofKey key).unpack packed i = .ok plain ↔
        ∃ nonce ciphertext tag : Bytes, nonce.length = 12 ∧ packed = nonce ++ (ciphertext ++ tag) ∧
          Gcm.Encrypts (Gcm.Key.ofBytes key) nonce (Bytes.ofNatLE 4 i) plain ciphertext tag) ∧
      (packed.length < 28 →
        (ofKey key).unpack packed i = .error (.ciphertextSize 28 packed.length)) ∧
      (28 ≤ packed.length → (∀ plain, (ofKey key).unpack packed i ≠ .ok plain) →
        (ofKey key).unpack packed i = .error (.authentication i)) := by
  refine ⟨fun nonce plain hnonce => ?_, fun packed => ⟨fun plain h => ?_, fun plain => ?_, ?_, ?_⟩⟩
  · exact ⟨length_pack _ nonce plain i hnonce, unpack_pack _ plain i hnonce⟩
  · obtain ⟨nonce, hnonce, rfl⟩ := unpack_eq_ok_iff.mp h
    have htake : ((ofKey key).pack nonce plain i).take 12 = nonce := take_pack _ plain i hnonce
    rw [htake]
    exact ⟨length_pack _ nonce plain i hnonce, rfl⟩
  · exact unpack_eq_ok_iff_encrypts
  · intro hshort
    exact if_pos hshort
  · exact unpack_eq_error

end ChunkCipher

end Vault
