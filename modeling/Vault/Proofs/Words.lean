import Vault.Proofs.Bytes

/-!
# `Vault/Proofs/Words.lean` — words and the bytes they are made of

The ciphers compute with words, keys and messages are bytes. **A word and its four bytes determine
each other,** in either order of the bytes, and the words of a byte string stand at every fourth
byte of it. So what a cipher does to words can be said of bytes, where its definition says it.
-/

set_option autoImplicit false

namespace Vault.Bytes

/-! ## Bit by bit

Byte order is a matter of which bit of the word is which bit of which byte. So equalities of
words and bytes are shown bit by bit, and nothing is computed. -/

/-- Bytes, words and halves of blocks are told apart by their bits. -/
theorem byte_ext {x y : UInt8} (h : ∀ i < 8, x.toBitVec.getLsbD i = y.toBitVec.getLsbD i) :
    x = y :=
  UInt8.eq_of_toBitVec_eq (BitVec.eq_of_getLsbD_eq h)

theorem word_ext {x y : UInt32} (h : ∀ i < 32, x.toBitVec.getLsbD i = y.toBitVec.getLsbD i) :
    x = y :=
  UInt32.eq_of_toBitVec_eq (BitVec.eq_of_getLsbD_eq h)

theorem half_ext {x y : UInt64} (h : ∀ i < 64, x.toBitVec.getLsbD i = y.toBitVec.getLsbD i) :
    x = y :=
  UInt64.eq_of_toBitVec_eq (BitVec.eq_of_getLsbD_eq h)

/-! ## Most significant byte first -/

/-- The bytes of a word are those that it was made of. -/
theorem ofWordBE_word (a b c d : UInt8) : ofWordBE (word a b c d) = [a, b, c, d] := by
  simp only [ofWordBE, word, List.cons.injEq, and_true]
  refine ⟨byte_ext fun i hi => ?_, byte_ext fun i hi => ?_, byte_ext fun i hi => ?_,
    byte_ext fun i hi => ?_⟩
  · simp
    grind
  · simp
    grind
  · simp
    grind
  · simp

/-- A word is made of its bytes. -/
theorem wordsBE_ofWordBE (w : UInt32) (rest : Bytes) :
    wordsBE (ofWordBE w ++ rest) = w :: wordsBE rest := by
  have hword : word (w >>> 24).toUInt8 (w >>> 16).toUInt8 (w >>> 8).toUInt8 w.toUInt8 = w := by
    refine word_ext fun i hi => ?_
    simp [word, -UInt32.toUInt32_toUInt8]
    grind
  simp [ofWordBE, wordsBE, hword]

theorem ofWordBE_injective {x y : UInt32} (h : ofWordBE x = ofWordBE y) : x = y := by
  have hx := wordsBE_ofWordBE x []
  rw [h, wordsBE_ofWordBE] at hx
  exact (List.cons.inj hx).1.symm

theorem ofWordBE_ofNat (n : Nat) : ofWordBE (UInt32.ofNat n) = ofNatBE 4 n := by
  have hbyte {x y : UInt8} (h : x.toNat = y.toNat) : x = y := UInt8.toNat_inj.mp h
  simp only [ofWordBE, ofNatBE, ofNatLE, List.reverse_cons, List.reverse_nil, List.nil_append,
    List.cons_append, List.cons.injEq, and_true]
  refine ⟨hbyte ?_, hbyte ?_, hbyte ?_, hbyte ?_⟩
  · simp [Nat.shiftRight_eq_div_pow]
    omega
  · simp [Nat.shiftRight_eq_div_pow]
    omega
  · simp [Nat.shiftRight_eq_div_pow]
    omega
  · simp

/-! ## Least significant byte first -/

theorem ofWordLE_eq (w : UInt32) : ofWordLE w = ofNatLE 4 w.toNat := by
  have hreverse : ofWordLE w = (ofWordBE w).reverse := rfl
  have hbytes := ofWordBE_ofNat w.toNat
  rw [UInt32.ofNat_toNat] at hbytes
  rw [hreverse, hbytes, ofNatBE, List.reverse_reverse]

/-- A word is the number that its bytes are. -/
theorem word_eq (a b c d : UInt8) : word d c b a = UInt32.ofNat (toNatLE [a, b, c, d]) := by
  have hbytes : ofNatLE 4 (toNatLE [a, b, c, d]) = [a, b, c, d] := ofNatLE_toNatLE [a, b, c, d]
  apply ofWordBE_injective
  rw [ofWordBE_word, ofWordBE_ofNat, ofNatBE, hbytes]
  rfl

/-! ## The words of a byte string

`wordsLE` takes four bytes at a time. By its own recursion each word is found at every fourth
byte, and what is left over makes none. -/

/-- What does not begin with a word is too short for one. -/
theorem length_lt_of_no_word {b : Bytes}
    (h : ∀ w x y z rest, b = w :: x :: y :: z :: rest → False) : b.length < 4 := by
  match b with
  | [] | [_] | [_, _] | [_, _, _] => simp
  | w :: x :: y :: z :: rest => exact absurd rfl (h w x y z rest)

/-- Each word is made of the four bytes at its place. -/
theorem getElem?_wordsLE (b : Bytes) (k : Nat) : (wordsLE b)[k]? =
    if 4 * k + 4 ≤ b.length then some (UInt32.ofNat (toNatLE (b.slice (4 * k) 4))) else none := by
  fun_induction wordsLE b generalizing k with
  | case1 w x y z rest ih =>
    -- the first word, or a word of the bytes behind the first four
    cases k with
    | zero => simp [slice, word_eq]
    | succ k =>
      have hplace : slice (w :: x :: y :: z :: rest) (4 * (k + 1)) 4 = slice rest (4 * k) 4 := rfl
      have hinside : 4 * (k + 1) + 4 ≤ (w :: x :: y :: z :: rest).length ↔
          4 * k + 4 ≤ rest.length := by
        simp only [List.length_cons]
        omega
      simp only [List.getElem?_cons_succ, ih, hplace, hinside]
  | case2 b hnone =>
    have hshort := length_lt_of_no_word hnone
    rw [if_neg (by omega), List.getElem?_nil]

@[simp] theorem length_wordsLE (b : Bytes) : (wordsLE b).length = b.length / 4 := by
  fun_induction wordsLE b with
  | case1 w x y z rest ih =>
    simp only [List.length_cons, ih]
    omega
  | case2 b hnone =>
    rw [Nat.div_eq_of_lt (length_lt_of_no_word hnone)]
    rfl

/-- Behind whole words the next word begins. -/
theorem wordsLE_append {a : Bytes} (h : a.length % 4 = 0) (b : Bytes) :
    wordsLE (a ++ b) = wordsLE a ++ wordsLE b := by
  fun_induction wordsLE a with
  | case1 w x y z rest ih =>
    have hrest : rest.length % 4 = 0 := by
      simp only [List.length_cons] at h
      omega
    simp only [List.cons_append, wordsLE, ih hrest]
  | case2 a hnone =>
    have hshort := length_lt_of_no_word hnone
    obtain rfl : a = [] := List.eq_nil_of_length_eq_zero (by omega)
    rfl

theorem wordsLE_ofNatLE_four (n : Nat) : wordsLE (ofNatLE 4 n) = [UInt32.ofNat n] := by
  have hword : wordsLE (ofNatLE 4 n) = [UInt32.ofNat (toNatLE (ofNatLE 4 n))] := by
    simp only [ofNatLE, wordsLE, word_eq]
  have hmod : UInt32.ofNat (n % limit 4) = UInt32.ofNat n := by
    apply UInt32.toNat_inj.mp
    simp [limit]
  rw [hword, toNatLE_ofNatLE, hmod]

/-- A number of eight bytes is written as its lower word and its upper one. -/
theorem wordsLE_ofNatLE_eight (n : Nat) : wordsLE (ofNatLE 8 n) =
    [(UInt64.ofNat n).toUInt32, (UInt64.ofNat n >>> 32).toUInt32] := by
  have hsplit : ofNatLE 8 n = ofNatLE 4 n ++ ofNatLE 4 (n / 256 / 256 / 256 / 256) := rfl
  have hlow : UInt32.ofNat n = (UInt64.ofNat n).toUInt32 := by
    apply UInt32.toNat_inj.mp
    simp
  have hhigh : UInt32.ofNat (n / 256 / 256 / 256 / 256) = (UInt64.ofNat n >>> 32).toUInt32 := by
    apply UInt32.toNat_inj.mp
    simp [Nat.shiftRight_eq_div_pow]
    omega
  rw [hsplit, wordsLE_append (by simp), wordsLE_ofNatLE_four, wordsLE_ofNatLE_four, hlow, hhigh]
  rfl

end Vault.Bytes
