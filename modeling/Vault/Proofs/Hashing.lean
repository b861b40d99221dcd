import Vault.Hash.Stamping

/-!
# `Vault/Proofs/Hashing.lean` — a hash does not depend on the pieces

A hash is computed over a whole message or piece by piece. **Whatever pieces a message comes in, the
value is that of the whole message** (`StampHasher.Fed.finish`). A hasher has seen a message when
the state behind its full blocks is the one that the message leads to, and the bytes behind them are
those of the message (`Sha256.Hasher.Fed`); each piece keeps this, because the blocks of a message
can be absorbed up to any place first and from there on later.
-/

set_option autoImplicit false

namespace Vault

namespace Sha256

/-! ## Absorbing in two steps

Absorbing is a fold over the blocks of a string. It can be stopped behind any of them and gone on
with, and what is appended behind the last block makes no difference. -/

theorem absorb_add (m n : Nat) (s : State) (data : Bytes) :
    absorb (m + n) s data = absorb n (absorb m s data) (data.drop (blockSize * m)) := by
  induction m generalizing s data with
  | zero => simp [absorb]
  | succ m ih =>
    rw [Nat.succ_add, absorb, ih, absorb, List.drop_drop, Nat.mul_succ, Nat.add_comm blockSize]

/-- What lies behind the blocks is ignored. -/
theorem absorb_append {n : Nat} {data : Bytes} (h : blockSize * n ≤ data.length) (s : State)
    (rest : Bytes) : absorb n s (data ++ rest) = absorb n s data := by
  induction n generalizing s data with
  | zero => rfl
  | succ n ih =>
    rw [Nat.mul_succ] at h
    rw [absorb, absorb, List.take_append_of_le_length (by omega),
      List.drop_append_of_le_length (by omega), ih (by rw [List.length_drop]; omega)]

namespace Hasher

variable {h : Hasher} {message data : Bytes}

/-! ## What a hasher has seen

The pending bytes are fewer than a block. A new piece is appended to them, and the blocks that
come of it are those which the longer message has behind the old ones. -/

/-- The hasher has seen a message: its full blocks are absorbed, the rest is pending. -/
structure Fed (h : Hasher) (message : Bytes) : Prop where
  state : h.state = absorb (message.length / blockSize) initial message
  pending : h.pending = message.drop (blockSize * (message.length / blockSize))
  length : h.length = message.length

theorem fed_nil : Fed {} [] := ⟨rfl, rfl, rfl⟩

theorem Fed.length_pending (hfed : h.Fed message) :
    message.length = blockSize * (message.length / blockSize) + h.pending.length := by
  have hle := Nat.mul_div_le message.length blockSize
  rw [hfed.pending, List.length_drop]
  omega

theorem Fed.blocks_append (hfed : h.Fed message) (data : Bytes) :
    (message ++ data).length / blockSize
      = message.length / blockSize + (h.pending ++ data).length / blockSize := by
  have hlength := hfed.length_pending
  rw [List.length_append, List.length_append]
  simp only [blockSize] at hlength ⊢
  omega

/-- Behind the full blocks of a message, a longer one goes on with what is pending. -/
theorem Fed.drop_append (hfed : h.Fed message) (data : Bytes) :
    (message ++ data).drop (blockSize * (message.length / blockSize)) = h.pending ++ data := by
  rw [List.drop_append_of_le_length (Nat.mul_div_le message.length blockSize), ← hfed.pending]

/-- **The blocks of a longer message are those seen so far, and those that begin with what is
pending.** -/
theorem Fed.absorb_eq (hfed : h.Fed message) (data : Bytes) :
    absorb ((message ++ data).length / blockSize) initial (message ++ data)
      = absorb ((h.pending ++ data).length / blockSize) h.state (h.pending ++ data) := by
  rw [hfed.blocks_append, absorb_add, absorb_append (Nat.mul_div_le message.length blockSize),
    hfed.drop_append, ← hfed.state]

/-- Each piece goes on where the message ended. -/
theorem Fed.update (hfed : h.Fed message) (data : Bytes) :
    (h.update data).Fed (message ++ data) where
  state := (hfed.absorb_eq data).symm
  pending := by
    rw [hfed.blocks_append, Nat.mul_add, ← List.drop_drop, hfed.drop_append]
    rfl
  length := (congrArg (· + data.length) hfed.length).trans List.length_append.symm

/-- **Whoever has seen a message knows its digest.** -/
theorem Fed.finish (hfed : h.Fed message) : h.finish = hash message := by
  rw [Hasher.finish, hash, hfed.length]
  exact congrArg State.toBytes (hfed.absorb_eq _).symm

example : ((update {} [0x61]).update [0x62, 0x63]).finish =
    [0xba, 0x78, 0x16, 0xbf, 0x8f, 0x01, 0xcf, 0xea, 0x41, 0x41, 0x40, 0xde, 0x5d, 0xae, 0x22, 0x23,
      0xb0, 0x03, 0x61, 0xa3, 0x96, 0x17, 0x7a, 0x9c, 0xb4, 0x10, 0xff, 0x61, 0xf2, 0x00, 0x15,
      0xad] := by
  decide +kernel

end Hasher

end Sha256

/-! ## Keyed hashes

A keyed hash is two hashes, each with a block of its own in front. Feeding it feeds the inner
one, and finishing hashes the value of the inner one with the outer. -/

namespace Hmac.Hasher

variable {h : Hasher} {key message : Bytes}

/-- A keyed hasher has seen a message: the inner hash has, behind the key's first block, and the
outer one has nothing but its own. -/
structure Fed (h : Hasher) (key message : Bytes) : Prop where
  inner : h.inner.Fed (innerPad key ++ message)
  outer : h.outer.Fed (outerPad key)

theorem fed_ofKey (key : Bytes) : (ofKey key).Fed key [] where
  inner := by
    rw [List.append_nil]
    exact Sha256.Hasher.fed_nil.update (innerPad key)
  outer := Sha256.Hasher.fed_nil.update (outerPad key)

theorem Fed.update (hfed : h.Fed key message) (data : Bytes) :
    (h.update data).Fed key (message ++ data) where
  inner := by
    rw [← List.append_assoc]
    exact hfed.inner.update data
  outer := hfed.outer

theorem Fed.finish (hfed : h.Fed key message) : h.finish = mac key message := by
  rw [Hasher.finish, (hfed.outer.update _).finish, hfed.inner.finish, mac]

end Hmac.Hasher

/-! ## Integrity values -/

/-- The integrity value of a message. Only an authentication code takes a key. -/
def StampKind.value (kind : StampKind) (key message : Bytes) : Bytes :=
  match kind with
  | .digest => Sha256.hash message
  | .mac => Hmac.mac key message

@[simp] theorem StampKind.length_value (kind : StampKind) (key message : Bytes) :
    (kind.value key message).length = Sha256.digestSize := by
  cases kind <;> simp [value]

namespace StampHasher

variable {h : StampHasher} {kind : StampKind} {key message : Bytes}

/-- A value of this kind is being computed, and a message was seen. -/
def Fed (h : StampHasher) (kind : StampKind) (key message : Bytes) : Prop :=
  match h with
  | digest h => kind = .digest ∧ h.Fed message
  | mac h => kind = .mac ∧ h.Fed key message

theorem Fed.update (hfed : h.Fed kind key message) (data : Bytes) :
    (h.update data).Fed kind key (message ++ data) := by
  cases h with
  | digest h => exact ⟨hfed.1, hfed.2.update data⟩
  | mac h => exact ⟨hfed.1, hfed.2.update data⟩

/-- **A message has one value, whatever pieces it was fed in.** -/
theorem Fed.finish (hfed : h.Fed kind key message) : h.finish = kind.value key message := by
  cases h with
  | digest h =>
    obtain ⟨rfl, hfed⟩ := hfed
    exact hfed.finish
  | mac h =>
    obtain ⟨rfl, hfed⟩ := hfed
    exact hfed.finish

theorem verify_eq_ok_iff {expected : Bytes} :
    h.verify expected = .ok () ↔ h.finish = expected := by
  unfold verify
  split <;> simp [*]

end StampHasher

end Vault
