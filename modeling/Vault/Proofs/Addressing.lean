import Vault.Proofs.Checked
import Vault.Proofs.Parts

/-!
# `Vault/Proofs/Addressing.lean` — addresses up to the ends of their numbers

Chunk numbers have 32 bits, positions and sizes have 64, and capacities may be anything, 0 included.
**Going from positions to chunk numbers and back is exact for all of them,** and nothing on the way
is too large: where a position has no answer, that is because it lies behind the last numbered
chunk.

Streamed chunks need one more way back. Of them only the size of the chunk data is kept, and the
size of the content is computed from it. Every chunk adds the same number of bytes, so that the size
of the chunk data says how many chunks there are, and with that how much of it is content.
-/

set_option autoImplicit false

namespace Vault.Layout

variable {l : Layout} {n : Nat}

/-! ## The end of the numbers -/

/-- Where the last numbered chunk ends. -/
def limit (l : Layout) : Nat := l.startOf seqnumLimit

/-- The end of a chunk with a number, if all chunks are bounded. -/
theorem Within.le_limit (hr : l.Reaches seqnumLimit) {i : Nat} (hi : i < seqnumLimit)
    (h : l.Within i n) : n ≤ l.limit :=
  Nat.le_trans (h.resolve_left (Nat.ne_of_gt (hr i hi))) (l.startOf_add_capacity_le hi)

/-- **The positions in front of the limit have chunk numbers,** and no others. -/
theorem seqnumOf?_eq_none_iff (hr : l.Reaches seqnumLimit) :
    l.seqnumOf? n = none ↔ l.limit ≤ n := by
  constructor
  · intro hnone
    refine Nat.le_of_not_lt fun hlt => ?_
    have hlast : l.Within (seqnumLimit - 1) l.limit :=
      .inr (Nat.le_of_eq (l.startOf_succ (seqnumLimit - 1)))
    exact seqnumOf?_ne_none (hr.mono (Nat.sub_le _ _)) (by decide) hlast hlt hnone
  · intro hle
    cases hnum : l.seqnumOf? n with
    | none => rfl
    | some i =>
      obtain ⟨-, -, hend, hi⟩ := seqnumOf?_eq_some_iff.mp hnum
      have hin := hend.resolve_left (Nat.ne_of_gt (hr i hi))
      have hbehind := l.startOf_add_capacity_le hi
      unfold limit at hle
      omega

theorem spills_iff (hr : l.Reaches seqnumLimit) : l.Spills n ↔ l.limit < n := by
  constructor
  · rintro ⟨pos, hlt, hnone⟩
    exact Nat.lt_of_le_of_lt ((seqnumOf?_eq_none_iff hr).mp hnone) hlt
  · exact fun hlt => ⟨l.limit, hlt, (seqnumOf?_eq_none_iff hr).mpr (Nat.le_refl _)⟩

/-- Without a bound on the chunks behind the first, every position has a number. -/
theorem seqnumOf?_isSome_of_unbounded (h : l.plain = 0) : (l.seqnumOf? n).isSome := by
  unfold seqnumOf?
  rw [if_pos h]
  split <;> rfl

/-! ## Positions -/

theorem offsetOf?_eq {pos i : Nat} (h : l.seqnumOf? pos = some i) :
    ∃ off, l.offsetOf? pos = some off ∧ l.startOf i + off = pos := by
  have hstart := (seqnumOf?_eq_some_iff.mp h).2.1
  refine ⟨pos - l.startOf i, ?_, Nat.add_sub_of_le hstart⟩
  rw [offsetOf?, locate?, h]
  rfl

/-- **Addresses are exact.** With any capacities, every chunk number has a start, and no step of
its computation leaves 64 bits; finding the place of a position does not either. A position that has
a chunk number is not in front of that chunk nor behind its end, and its offset is the difference.
Positions that are not behind it have numbers that are not larger. If the chunks behind the first
are bounded, each chunk number comes back from the start of its chunk, and the positions without a
number are those from the end of the last numbered chunk on. Otherwise, there are none. -/
theorem addresses_exact (first chunk : UInt32) (overhead dataOffset : Nat) :
    let l := ofSizes first chunk overhead dataOffset
    (∀ i < seqnumLimit, l.startChecked i = some (l.startOf i) ∧ l.startOf i < offsetLimit) ∧
    (∀ pos, l.seqnumChecked pos = some (l.seqnumOf? pos) ∧
      l.locateChecked pos = some (l.locate? pos)) ∧
    (∀ pos i, l.seqnumOf? pos = some i →
      i < seqnumLimit ∧ l.startOf i ≤ pos ∧
      (l.capacity i ≠ 0 → pos < l.startOf i + l.capacity i) ∧
      ∃ off, l.offsetOf? pos = some off ∧ l.startOf i + off = pos) ∧
    (∀ p q j, p ≤ q → l.seqnumOf? q = some j → ∃ i ≤ j, l.seqnumOf? p = some i) ∧
    (0 < chunk → ∀ i < seqnumLimit, l.seqnumOf? (l.startOf i) = some i) ∧
    ∀ pos, l.seqnumOf? pos = none ↔
      0 < chunk ∧ l.startOf (seqnumLimit - 1) + chunk.toNat ≤ pos := by
  intro l
  have hsmall : l.Small := small_ofSizes first chunk overhead dataOffset
  refine ⟨fun i hi => ⟨startChecked_eq hsmall hi, (hsmall.startOf_lt hi).2⟩,
    fun pos => ⟨seqnumChecked_eq l pos, locateChecked_eq hsmall pos⟩,
    fun pos i hnum => ?inside, fun p q j hle hnum => ?monotone,
    fun hchunk i hi => seqnumOf?_startOf (reaches_ofSizes first hchunk overhead dataOffset i) hi,
    fun pos => ?behind⟩
  case inside =>
    obtain ⟨-, hstart, hend, hi⟩ := seqnumOf?_eq_some_iff.mp hnum
    exact ⟨hi, hstart, hend.resolve_left, offsetOf?_eq hnum⟩
  case monotone =>
    obtain ⟨i, hi⟩ := Option.isSome_iff_exists.mp (seqnumOf?_isSome_of_le hle (by rw [hnum]; rfl))
    exact ⟨i, seqnumOf?_mono hi hnum hle, hi⟩
  case behind =>
    by_cases hchunk : 0 < chunk
    · have hlimit : l.limit = l.startOf (seqnumLimit - 1) + chunk.toNat :=
        l.startOf_succ (seqnumLimit - 1)
      rw [seqnumOf?_eq_none_iff (reaches_ofSizes first hchunk overhead dataOffset _), hlimit]
      exact (and_iff_right hchunk).symm
    · have hzero : chunk = 0 := Classical.not_not.mp (mt UInt32.pos_iff_ne_zero.mpr hchunk)
      have hsome : (l.seqnumOf? pos).isSome :=
        seqnumOf?_isSome_of_unbounded (show chunk.toNat = 0 by rw [hzero]; rfl)
      exact ⟨fun hnone => absurd hsome (by simp [hnone]), fun h => absurd h.1 hchunk⟩

/-- With one byte in each chunk, positions and chunk numbers are the same. -/
theorem addresses_exact_bytewise :
    (ofSizes 0 1 28 0).seqnumOf? 0xffffffff = some 0xffffffff ∧
    (ofSizes 0 1 28 0).offsetOf? 0xffffffff = some 0 ∧
    (ofSizes 0 1 28 0).seqnumOf? 0x100000000 = none := by
  obtain ⟨-, -, hinside, -, hback, hbehind⟩ := addresses_exact 0 1 28 0
  have hlast : (ofSizes 0 1 28 0).startOf 0xffffffff = 0xffffffff := rfl
  have hnumber := hback (by decide) 0xffffffff (by decide)
  rw [hlast] at hnumber
  obtain ⟨-, -, -, off, hoff, hdiff⟩ := hinside _ _ hnumber
  obtain rfl : off = 0 := by omega
  exact ⟨hnumber, hoff, (hbehind _).mpr (by decide)⟩

/-! ## Sizes of streamed contents -/

/-- The bytes of chunk data that a content of this size takes when its chunks are streamed. The last
byte is in the last chunk, which is as long as what is left for it; all chunks in front are full. -/
def streamedData? (l : Layout) (size lead : Nat) : Option Nat :=
  if size = 0 then some 0
  else do
    let last ← l.seqnumOf? (size - 1)
    let front ← l.packedBefore? last
    return front + lead + (size - l.startOf last)

theorem streamedData?_eq_some {lead ct : Nat} (hn : 0 < n)
    (h : l.streamedData? n lead = some ct) :
    ∃ last, l.Reaches last ∧ l.startOf last < n ∧ l.Within last n ∧
      ct = l.rawStartOf last - l.dataOffset + lead + (n - l.startOf last) := by
  rw [streamedData?, if_neg (Nat.ne_of_gt hn)] at h
  obtain ⟨last, hlast, h⟩ := Option.bind_eq_some_iff.mp h
  obtain ⟨front, hfront, h⟩ := Option.bind_eq_some_iff.mp h
  obtain ⟨hreaches, hstart, hend, -⟩ := seqnumOf?_eq_some_iff.mp hlast
  refine ⟨last, hreaches, by omega, hend.imp_right fun hin => by omega, ?_⟩
  rw [rawStartOf_eq_add hfront, Nat.add_sub_cancel_left]
  exact (Option.some.inj h).symm

/-- What is told from the chunk data of full chunks and a piece behind them, which may be a full
chunk too. -/
theorem streamed_rest_eq {plain lead r : Nat} (k : Nat) (h : r < plain) :
    (k * (plain + lead) + lead + (r + 1)) / (plain + lead) * plain
      + ((k * (plain + lead) + lead + (r + 1)) % (plain + lead) - lead) = k * plain + (r + 1) := by
  by_cases hfull : r + 1 = plain
  · have hdata : k * (plain + lead) + lead + (r + 1) = (plain + lead) * (k + 1) := by
      rw [Nat.mul_succ, Nat.mul_comm]
      omega
    rw [hdata, Nat.mul_div_cancel_left _ (by omega), Nat.mul_mod_right, Nat.succ_mul]
    omega
  · have hdata : k * (plain + lead) + lead + (r + 1) = lead + (r + 1) + (plain + lead) * k := by
      rw [Nat.mul_comm]
      omega
    rw [hdata, Nat.add_mul_div_left _ _ (by omega), Nat.add_mul_mod_self_left,
      Nat.div_eq_of_lt (by omega), Nat.mod_eq_of_lt (by omega), Nat.zero_add]
    omega

/-- More of such chunk data tells no less. -/
theorem streamed_rest_mono {plain lead a b : Nat} (hplain : 0 < plain) (h : a ≤ b) :
    a / (plain + lead) * plain + (a % (plain + lead) - lead)
      ≤ b / (plain + lead) * plain + (b % (plain + lead) - lead) := by
  have hdiv : a / (plain + lead) ≤ b / (plain + lead) := Nat.div_le_div_right h
  rcases Nat.eq_or_lt_of_le hdiv with heq | hlt
  · -- the same chunk, and no less of it
    have ha := Nat.div_add_mod a (plain + lead)
    have hb := Nat.div_add_mod b (plain + lead)
    rw [heq] at ha ⊢
    omega
  · -- a later chunk, in front of which there is a full one
    have hpiece : a % (plain + lead) < plain + lead := Nat.mod_lt _ (by omega)
    have hfull : (a / (plain + lead) + 1) * plain ≤ b / (plain + lead) * plain :=
      Nat.mul_le_mul_right _ hlt
    rw [Nat.succ_mul] at hfull
    omega

/-- **The size of a content can be told from that of its chunk data.** All chunks in front of the
last one are full. -/
theorem streamedSize_of_last {lead i : Nat} (hp : l.Packs lead) (hr : l.Reaches i)
    (hlt : l.startOf i < n) (hin : l.Within i n) :
    l.streamedSize (l.rawStartOf i - l.dataOffset + lead + (n - l.startOf i)) lead = n := by
  unfold Within at hin
  cases i with
  | zero =>
    -- all of the content is in chunk 0
    simp only [rawStartOf_zero, startOf_zero, Nat.sub_self, Nat.zero_add, Nat.sub_zero] at hlt ⊢
    have hfirst : l.firstPlain = 0 ∨ lead + n ≤ l.firstPacked := by
      simp only [capacity, startOf_zero, if_true, Nat.zero_add] at hin
      rcases Nat.eq_zero_or_pos l.firstPlain with hnone | hpos
      · exact .inl hnone
      · have hpacked := hp.firstPacked_eq (Nat.ne_of_gt hpos)
        exact .inr (by omega)
    rw [streamedSize, if_neg (by omega), if_pos hfirst, Nat.add_sub_cancel_left]
  | succ k =>
    have hfirst : 0 < l.firstPlain := hr 0 (Nat.succ_pos k)
    have hfirstPacked := hp.firstPacked_eq (Nat.ne_of_gt hfirst)
    have hstart : l.startOf (k + 1) = l.firstPlain + k * l.plain := by simp [startOf]
    have hraw : l.rawStartOf (k + 1) - l.dataOffset = l.firstPacked + k * l.packed := by
      simp only [rawStartOf, Nat.succ_ne_zero, if_false, Nat.add_sub_cancel]
      omega
    simp only [capacity, Nat.succ_ne_zero, if_false] at hin
    -- what there is of the last chunk
    obtain ⟨r, rfl⟩ := Nat.exists_eq_add_of_lt hlt
    rw [hraw, hstart, streamedSize, if_neg (by omega), if_neg (by omega)]
    rw [hstart] at hin
    by_cases hplain : l.plain = 0
    · -- only chunk 1 can be without bound
      have hk : k = 0 := by
        refine Nat.eq_zero_of_not_pos fun hk => ?_
        have hcap := hr 1 (by omega)
        simp [capacity, hplain] at hcap
      subst hk
      rw [if_pos hplain]
      omega
    · have hpacked := hp.packed_eq hplain
      have hrest : l.firstPacked + k * (l.plain + lead) + lead
          + (l.firstPlain + k * l.plain + r + 1 - (l.firstPlain + k * l.plain)) - l.firstPacked
          = k * (l.plain + lead) + lead + (r + 1) := by omega
      rw [if_neg hplain, hpacked, hrest, Nat.add_assoc, streamed_rest_eq k (by omega)]
      omega

/-- More chunk data never means less content. -/
theorem streamedSize_mono {lead a b : Nat} (hp : l.Packs lead) (h : a ≤ b) :
    l.streamedSize a lead ≤ l.streamedSize b lead := by
  unfold streamedSize
  by_cases hzero : a = 0
  · rw [if_pos hzero]
    exact Nat.zero_le _
  rw [if_neg hzero, if_neg (by omega : b ≠ 0)]
  by_cases hfirst : l.firstPlain = 0
  · rw [if_pos (.inl hfirst), if_pos (.inl hfirst)]
    omega
  have hfirstPacked := hp.firstPacked_eq hfirst
  by_cases hb : b ≤ l.firstPacked
  · rw [if_pos (.inr (Nat.le_trans h hb)), if_pos (.inr hb)]
    omega
  rw [if_neg (by omega : ¬(l.firstPlain = 0 ∨ b ≤ l.firstPacked))]
  by_cases ha : a ≤ l.firstPacked
  · -- chunk 0 alone is no more than what comes with chunks behind it
    rw [if_pos (.inr ha)]
    simp only
    split <;> omega
  rw [if_neg (by omega : ¬(l.firstPlain = 0 ∨ a ≤ l.firstPacked))]
  simp only
  by_cases hplain : l.plain = 0
  · rw [if_pos hplain, if_pos hplain]
    omega
  rw [if_neg hplain, if_neg hplain, hp.packed_eq hplain, Nat.add_assoc, Nat.add_assoc]
  exact Nat.add_le_add_left (streamed_rest_mono (Nat.pos_of_ne_zero hplain) (by omega)) _

/-- There is no more content than chunk data. -/
theorem streamedSize_le {lead ct : Nat} (hp : l.Packs lead) : l.streamedSize ct lead ≤ ct := by
  unfold streamedSize
  split
  · omega
  · split
    · omega
    · next hbehind =>
      have hfirstPacked := hp.firstPacked_eq (not_or.mp hbehind).1
      simp only
      split
      · omega
      · next hplain =>
        have hpacked := hp.packed_eq hplain
        have hdiv := Nat.div_add_mod (ct - l.firstPacked) l.packed
        have hfull : (ct - l.firstPacked) / l.packed * l.plain
            ≤ l.packed * ((ct - l.firstPacked) / l.packed) := by
          rw [Nat.mul_comm l.packed]
          exact Nat.mul_le_mul_left _ (by omega)
        omega

/-- **A streamed size goes there and back.** The capacities are any, and each chunk starts with
`lead` bytes that are no content. If the last byte of a content has a chunk number and the chunks in
front of that one take a 64-bit number of bytes, then the size of the content is computed from that
of all chunk data. From every 64-bit number a size is computed without leaving 64 bits, which is not
larger than the number and grows with it. -/
theorem streamedSize_inverts (first chunk lead : UInt32) (dataOffset : Nat) :
    let l := ofSizes first chunk lead.toNat dataOffset
    (∀ size ct, l.streamedData? size lead.toNat = some ct →
      l.streamedSize ct lead.toNat = size) ∧
    ∀ ct < offsetLimit,
      l.streamedSizeChecked ct lead.toNat = some (l.streamedSize ct lead.toNat) ∧
      l.streamedSize ct lead.toNat ≤ ct ∧
      ∀ ct' ≤ ct, l.streamedSize ct' lead.toNat ≤ l.streamedSize ct lead.toNat := by
  intro l
  have hp : l.Packs lead.toNat := packs_ofSizes first chunk lead.toNat dataOffset
  refine ⟨fun size ct hdata => ?back, fun ct hct =>
    ⟨streamedSizeChecked_eq hp hct _, streamedSize_le hp, fun _ hle => streamedSize_mono hp hle⟩⟩
  case back =>
    rcases Nat.eq_zero_or_pos size with rfl | hpos
    · obtain rfl : 0 = ct := Option.some.inj hdata
      rfl
    · obtain ⟨last, hreaches, hlt, hin, rfl⟩ := streamedData?_eq_some hpos hdata
      exact streamedSize_of_last hp hreaches hlt hin

/-- Two full chunks, and what one byte more makes of them. -/
theorem streamedSize_inverts_full_chunks :
    (ofSizes 64 32 8 0).streamedData? 96 8 = some 112 ∧
    (ofSizes 64 32 8 0).streamedSize 112 8 = 96 ∧
    (ofSizes 64 32 8 0).streamedData? 97 8 = some 121 ∧
    (ofSizes 64 32 8 0).streamedSize 121 8 = 97 ∧
    (ofSizes 64 32 8 0).streamedSize 120 8 ≤ 97 := by
  have hfull : (ofSizes 64 32 8 0).streamedData? 96 8 = some 112 := by decide
  have hmore : (ofSizes 64 32 8 0).streamedData? 97 8 = some 121 := by decide
  obtain ⟨hback, hgrows⟩ := streamedSize_inverts 64 32 8 0
  have hsize := hback 97 121 hmore
  have hbelow := (hgrows 121 (by decide)).2.2 120 (by decide)
  exact ⟨hfull, hback 96 112 hfull, hmore, hsize, Nat.le_trans hbelow (Nat.le_of_eq hsize)⟩

end Vault.Layout
