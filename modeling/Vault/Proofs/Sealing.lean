import Vault.Cipher.Sealed
import Vault.Proofs.Bytes

/-!
# `Vault/Proofs/Sealing.lean` — which chunks open

**What was sealed for a chunk number opens under that number, whatever the nonce was,** because
combining with the key stream twice gives the message back and the tag is computed from the
ciphertext, which is the same on both sides. With another tag it does not open, since there is only
one tag that agrees; so for every chunk that opens there is one as long that does not.
-/

set_option autoImplicit false

namespace Vault

namespace Bytes

theorem xor_xor_cancel {a k : Bytes} (h : a.length ≤ k.length) : (a.xor k).xor k = a := by
  -- by induction on the message, with the key stream cut off byte by byte
  induction a generalizing k with
  | nil => simp [xor]
  | cons x a ih =>
    cases k with
    | nil => simp at h
    | cons y k =>
      have hle : a.length ≤ k.length := by simpa using h
      have htail := ih hle
      simp only [xor, List.zipWith_cons_cons, List.cons.injEq] at htail ⊢
      refine ⟨?_, htail⟩
      rw [UInt8.xor_assoc, UInt8.xor_self, UInt8.xor_zero]

end Bytes

namespace Gcm

/-- Encrypting and decrypting are the same combination. -/
theorem crypt_crypt (key : Key) (nonce data : Bytes) :
    crypt key nonce (crypt key nonce data) = data := by
  have hlen : (Bytes.xor data (keystream key nonce ((data.length + 15) / 16) 2)).length
      = data.length := length_crypt key nonce data
  unfold crypt
  rw [hlen]
  apply Bytes.xor_xor_cancel
  rw [length_keystream]
  omega

theorem decrypt?_encrypt (key : Key) (nonce aad plain : Bytes) :
    decrypt? key nonce aad (encrypt key nonce aad plain) = some plain := by
  have hsize : (encrypt key nonce aad plain).length - tagSize = (crypt key nonce plain).length := by
    simp
  -- the tag is what stands behind the ciphertext, so the two are cut apart at its length
  have htake : (encrypt key nonce aad plain).take (crypt key nonce plain).length
      = crypt key nonce plain := List.take_left
  have hdrop : (encrypt key nonce aad plain).drop (crypt key nonce plain).length
      = tag key nonce aad (crypt key nonce plain) := List.drop_left
  simp only [decrypt?, hsize, htake, hdrop, crypt_crypt]
  simp

/-- **What decrypts is what encrypting the message gives.** -/
theorem decrypt?_eq_some_iff {key : Key} {nonce aad data plain : Bytes} :
    decrypt? key nonce aad data = some plain ↔ data = encrypt key nonce aad plain := by
  constructor
  · intro h
    simp only [decrypt?, Option.ite_none_right_eq_some, Option.some.injEq] at h
    obtain ⟨⟨-, htag⟩, rfl⟩ := h
    rw [encrypt, crypt_crypt, htag, List.take_append_drop]
  · rintro rfl
    exact decrypt?_encrypt key nonce aad plain

end Gcm

namespace ChunkCipher

theorem take_pack (c : ChunkCipher) {nonce : Bytes} (plain : Bytes) (seqnum : Nat)
    (h : nonce.length = Gcm.nonceSize) :
    (c.pack nonce plain seqnum).take Gcm.nonceSize = nonce := by
  rw [pack, ← h, List.take_left]

theorem unpack_pack (c : ChunkCipher) {nonce : Bytes} (plain : Bytes) (seqnum : Nat)
    (h : nonce.length = Gcm.nonceSize) :
    c.unpack (c.pack nonce plain seqnum) seqnum = .ok plain := by
  have hlen : ¬(c.pack nonce plain seqnum).length < overhead := by
    rw [length_pack c nonce plain seqnum h]
    omega
  have hdrop : (c.pack nonce plain seqnum).drop Gcm.nonceSize
      = Gcm.encrypt c.key nonce (associated seqnum) plain := by
    rw [pack, ← h, List.drop_left]
  simp only [unpack, if_neg hlen, take_pack c plain seqnum h, hdrop, Gcm.decrypt?_encrypt]

end ChunkCipher

/-! ## Chunks that do not open

A tag is determined by key, nonce, number and ciphertext. That alone is used: nothing is assumed
about how hard a tag is to find. -/

namespace ChunkCipher

variable {c : ChunkCipher} {packed plain : Bytes} {i : Nat}

theorem overhead_le_of_unpack (h : c.unpack packed i = .ok plain) : overhead ≤ packed.length := by
  unfold unpack at h
  split at h
  · exact absurd h (by simp)
  · omega

/-- **What opens to a content is what sealing the content gives,** under some nonce. -/
theorem unpack_eq_ok_iff : c.unpack packed i = .ok plain ↔
    ∃ nonce : Bytes, nonce.length = Gcm.nonceSize ∧ packed = c.pack nonce plain i := by
  constructor
  · intro h
    have hlen := overhead_le_of_unpack h
    have hnonce : (packed.take Gcm.nonceSize).length = Gcm.nonceSize := by
      rw [overhead] at hlen
      rw [List.length_take]
      omega
    refine ⟨packed.take Gcm.nonceSize, hnonce, ?_⟩
    rw [unpack, if_neg (Nat.not_lt.mpr hlen)] at h
    cases hopen : Gcm.decrypt? c.key (packed.take Gcm.nonceSize) (associated i)
        (packed.drop Gcm.nonceSize) with
    | none =>
      simp only [hopen] at h
      exact absurd h (by simp)
    | some found =>
      simp only [hopen] at h
      obtain rfl : found = plain := Except.ok.inj h
      -- the tag agreed, and decrypting gives the plaintext back its ciphertext
      rw [pack, ← Gcm.decrypt?_eq_some_iff.mp hopen, List.take_append_drop]
  · rintro ⟨nonce, hnonce, rfl⟩
    exact unpack_pack c plain i hnonce

theorem length_of_unpack (h : c.unpack packed i = .ok plain) :
    plain.length = packed.length - overhead := by
  obtain ⟨nonce, hnonce, rfl⟩ := unpack_eq_ok_iff.mp h
  rw [length_pack c nonce plain i hnonce]
  omega

/-- What is long enough and does not open is not authentic. -/
theorem unpack_eq_error (hlen : overhead ≤ packed.length)
    (h : ∀ plain, c.unpack packed i ≠ .ok plain) :
    c.unpack packed i = .error (.authentication i) := by
  unfold unpack at h ⊢
  rw [if_neg (by omega)] at h ⊢
  cases hopen : Gcm.decrypt? c.key (packed.take Gcm.nonceSize) (associated i)
      (packed.drop Gcm.nonceSize) with
  | none => simp only [hopen]
  | some found => exact absurd (by simp only [hopen]) (h found)

/-- The last bytes of what opens are the tag of the others. -/
theorem tag_of_unpack (h : c.unpack packed i = .ok plain) :
    Gcm.tag c.key (packed.take Gcm.nonceSize) (associated i)
        ((packed.drop Gcm.nonceSize).take (packed.length - overhead)) =
      packed.drop (packed.length - Gcm.tagSize) := by
  have hlen := overhead_le_of_unpack h
  have hsize : packed.length - Gcm.nonceSize - Gcm.tagSize = packed.length - overhead := by
    rw [overhead]
    omega
  have hdrop : Gcm.nonceSize + (packed.length - overhead) = packed.length - Gcm.tagSize := by
    rw [overhead] at hlen ⊢
    omega
  unfold unpack at h
  rw [if_neg (by omega)] at h
  cases hopen : Gcm.decrypt? c.key (packed.take Gcm.nonceSize) (associated i)
      (packed.drop Gcm.nonceSize) with
  | none =>
    simp only [hopen] at h
    exact absurd h (by simp)
  | some found =>
    simp only [Gcm.decrypt?, Option.ite_none_right_eq_some, List.length_drop, List.drop_drop,
      hsize, hdrop] at hopen
    exact hopen.1.2

/-- **A sealed chunk with another tag does not open.** -/
theorem unpack_retagged {packed' : Bytes} (h : c.unpack packed i = .ok plain)
    (hlen : packed'.length = packed.length)
    (hfront : packed'.take (packed.length - Gcm.tagSize) =
      packed.take (packed.length - Gcm.tagSize)) (hne : packed' ≠ packed) (plain' : Bytes) :
    c.unpack packed' i ≠ .ok plain' := by
  intro h'
  have hlong := overhead_le_of_unpack h
  -- both chunks agree in front of their tags, at every offset and length
  have hsame {n k : Nat} (hn : n + k ≤ packed.length - Gcm.tagSize) :
      (packed'.drop n).take k = (packed.drop n).take k := by
    have hslice := Bytes.slice_take (b := packed') hn
    rw [hfront, Bytes.slice_take hn] at hslice
    exact hslice.symm
  have hnonce : packed'.take Gcm.nonceSize = packed.take Gcm.nonceSize := by
    refine hsame (n := 0) (k := Gcm.nonceSize) ?_
    rw [overhead] at hlong
    omega
  have hdata := hsame (n := Gcm.nonceSize) (k := packed.length - overhead) (by
    rw [overhead] at hlong ⊢
    omega)
  -- both tags are computed from the same bytes, so the chunks would be equal
  have htag := tag_of_unpack h'
  rw [hlen, hnonce, hdata, tag_of_unpack h] at htag
  refine hne ?_
  rw [← List.take_append_drop (packed.length - Gcm.tagSize) packed', hfront, ← htag,
    List.take_append_drop]

/-- For every chunk that opens there is another one as long that does not. -/
theorem exists_rejected (h : c.unpack packed i = .ok plain) :
    ∃ other : Bytes, other.length = packed.length ∧ ∀ plain', c.unpack other i ≠ .ok plain' := by
  have hlong := overhead_le_of_unpack h
  have hsize : Gcm.tagSize ≤ packed.length := by
    rw [overhead] at hlong
    omega
  have htag : 0 < Gcm.tagSize := by decide
  have hrest := packed.length_drop (i := packed.length - Gcm.tagSize)
  cases hlast : packed.drop (packed.length - Gcm.tagSize) with
  | nil =>
    rw [hlast, List.length_nil] at hrest
    omega
  -- the first byte of the tag is counted up by one
  | cons x tag =>
    rw [hlast, List.length_cons] at hrest
    have hpacked : packed = packed.take (packed.length - Gcm.tagSize) ++ x :: tag := by
      rw [← hlast, List.take_append_drop]
    have hfront : (packed.take (packed.length - Gcm.tagSize)).length
        = packed.length - Gcm.tagSize := by
      rw [List.length_take]
      omega
    have hlen : (packed.take (packed.length - Gcm.tagSize) ++ (x + 1) :: tag).length
        = packed.length := by
      rw [List.length_append, hfront, List.length_cons]
      omega
    refine ⟨_, hlen, unpack_retagged h hlen (List.take_left' hfront) fun hsame => ?_⟩
    have hcons := List.append_cancel_left (hsame.trans hpacked)
    have hx := congrArg UInt8.toNat (List.cons.inj hcons).1
    have hlt := x.toNat_lt
    simp only [UInt8.toNat_add] at hx
    have hone : UInt8.toNat 1 = 1 := rfl
    omega

end ChunkCipher

end Vault
