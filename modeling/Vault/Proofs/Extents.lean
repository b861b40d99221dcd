import Mathlib.Algebra.Ring.Nat
import Vault.Proofs.Sources

/-!
# `Vault/Proofs/Extents.lean` — where chunks lie in the file

A processor says how many bytes each chunk takes once it is packed, and the layout says at which raw
offset it begins. Both come from the same two capacities, but by different computations. **A chunk
begins behind the sum of what the chunks in front of it take,** so that their places follow each
other without a gap and without sharing a byte; and where that sum has no 64 bits, the layout says
so and does not begin a chunk somewhere else.

A chunk without a bound takes whatever is there. Nothing comes behind it, so it counts for nothing
in the sum.
-/

set_option autoImplicit false

namespace Vault

namespace Processor

variable {p : Processor} {dataOffset i j s raw : Nat}

/-! ## What the chunks in front take -/

/-- The bytes that the chunks in front of a chunk take in the file. -/
def packedFront (p : Processor) (seqnum : Nat) : Nat :=
  ((List.range seqnum).map fun i => p.maxPackedSize i 0).sum

@[simp] theorem packedFront_zero (p : Processor) : p.packedFront 0 = 0 := rfl

theorem packedFront_succ (p : Processor) (i : Nat) :
    p.packedFront (i + 1) = p.packedFront i + p.maxPackedSize i 0 := by
  simp [packedFront, List.range_succ]

/-- All chunks behind the first take the same. -/
theorem maxPackedSize_succ (p : Processor) (i there : Nat) :
    p.maxPackedSize (i + 1) there = p.maxPackedSize 1 there := by
  simp [maxPackedSize, maxPlainSize]

/-- The layout multiplies where a sum would be taken. -/
theorem packedFront_eq (p : Processor) (dataOffset i : Nat) :
    p.packedFront (i + 1)
      = i * (p.layout dataOffset).packed + (p.layout dataOffset).firstPacked := by
  induction i with
  | zero =>
    rw [packedFront_succ, packedFront_zero, Nat.zero_mul]
    rfl
  | succ i ih =>
    have hsize : p.maxPackedSize (i + 1) 0 = (p.layout dataOffset).packed :=
      p.maxPackedSize_succ i 0
    rw [packedFront_succ, ih, hsize, Nat.succ_mul]
    omega

/-! ## Where chunks begin -/

theorem rawStartOf_layout (p : Processor) (dataOffset i : Nat) :
    (p.layout dataOffset).rawStartOf i = dataOffset + p.packedFront i := by
  cases i with
  | zero => rfl
  -- the layout has the first chunk apart from the later ones, and so has the sum
  | succ i =>
    have hdata : (p.layout dataOffset).dataOffset = dataOffset := rfl
    rw [packedFront_eq p dataOffset, Layout.rawStartOf, if_neg (Nat.succ_ne_zero i), hdata,
      Nat.add_sub_cancel]
    omega

/-- **A chunk begins where the one in front of it ends.** -/
theorem rawStartOf_layout_succ (p : Processor) (dataOffset i : Nat) :
    (p.layout dataOffset).rawStartOf (i + 1)
      = (p.layout dataOffset).rawStartOf i + p.maxPackedSize i 0 := by
  rw [rawStartOf_layout, rawStartOf_layout, packedFront_succ, Nat.add_assoc]

/-- The layout knows the sum exactly when it has 64 bits. -/
theorem packedBefore?_layout (p : Processor) (dataOffset i : Nat) :
    (p.layout dataOffset).packedBefore? i
      = if p.packedFront i < offsetLimit then some (p.packedFront i) else none := by
  cases i with
  | zero => rfl
  | succ i =>
    rw [packedFront_eq p dataOffset, Layout.packedBefore?, if_neg (Nat.succ_ne_zero i),
      Nat.add_sub_cancel]
    -- The product alone may be too large already, and then so is the sum.
    have hproduct : (i * (p.layout dataOffset).packed < offsetLimit ∧
        i * (p.layout dataOffset).packed + (p.layout dataOffset).firstPacked < offsetLimit) ↔
        i * (p.layout dataOffset).packed + (p.layout dataOffset).firstPacked < offsetLimit := by
      omega
    simp only [hproduct]

/-- The capacities and what packing adds determine the layout. -/
theorem layout_eq_ofSizes (p : Processor) (dataOffset : Nat) :
    p.layout dataOffset = Layout.ofSizes p.firstMax p.chunkMax p.overhead dataOffset := by
  simp only [layout, Layout.ofSizes, Layout.packedSize, maxPackedSize, maxPlainSize]
  by_cases hfirst : p.firstMax = 0
  · simp [hfirst]
  · simp [hfirst]

/-! ## The places of chunks

A byte of the chunk data is in the place of exactly one chunk. One half of that is that places
end where the next ones begin; the other half is found by going up the chunks. -/

/-- The raw offset is in the place of the chunk. -/
def Covers (p : Processor) (dataOffset seqnum raw : Nat) : Prop :=
  (p.layout dataOffset).rawStartOf seqnum ≤ raw ∧
    raw < (p.layout dataOffset).rawStartOf seqnum + p.maxPackedSize seqnum 0

/-- A chunk ends before a later one begins. One without a bound takes nothing here. -/
theorem rawStartOf_add_maxPackedSize_le (p : Processor) (dataOffset : Nat) (h : i < j) :
    (p.layout dataOffset).rawStartOf i + p.maxPackedSize i 0
      ≤ (p.layout dataOffset).rawStartOf j := by
  rw [← rawStartOf_layout_succ]
  exact Layout.rawStartOf_mono _ h

/-- No two chunks share a byte. -/
theorem Covers.unique (hi : p.Covers dataOffset i raw) (hj : p.Covers dataOffset j raw) : i = j := by
  rcases Nat.lt_trichotomy i j with hlt | heq | hgt
  · have hends := rawStartOf_add_maxPackedSize_le p dataOffset hlt
    have := hi.2
    have := hj.1
    omega
  · exact heq
  · have hends := rawStartOf_add_maxPackedSize_le p dataOffset hgt
    have := hj.2
    have := hi.1
    omega

/-- **No byte between two chunks belongs to none.** -/
theorem exists_covers (hfrom : dataOffset ≤ raw)
    (hto : raw < (p.layout dataOffset).rawStartOf s) : ∃ i < s, p.Covers dataOffset i raw := by
  induction s with
  | zero =>
    have hstart : (p.layout dataOffset).rawStartOf 0 = dataOffset := rfl
    omega
  -- the byte is in front of this chunk, and then in an earlier place, or it is in this one
  | succ s ih =>
    by_cases hbefore : raw < (p.layout dataOffset).rawStartOf s
    · obtain ⟨i, hi, hcovers⟩ := ih hbefore
      exact ⟨i, Nat.lt_succ_of_lt hi, hcovers⟩
    · rw [rawStartOf_layout_succ] at hto
      exact ⟨s, Nat.lt_succ_self s, Nat.le_of_not_lt hbefore, hto⟩

/-- In front of a chunk that holds a position, each chunk has a bound, and takes the same whatever
is there. -/
theorem maxPackedSize_of_seqnumOf? {pos there : Nat}
    (h : (p.layout dataOffset).seqnumOf? pos = some j) (hi : i < j) :
    p.maxPackedSize i there = p.maxPlainSize i + p.overhead := by
  have hreaches := (Layout.seqnumOf?_eq_some_iff.mp h).1
  have hbounded := hreaches i hi
  rw [capacity_layout] at hbounded
  exact if_neg (Nat.ne_of_gt hbounded)

/-- **Chunks lie in the file as they are packed.** Whatever capacities a processor has, from its
configuration or from a descriptor, its layout is the one of these capacities, with 8 bytes added to
a streamed chunk and 28 to a sealed one. What the chunks in front of a chunk take is known exactly
when it has 64 bits. If the place that this leads to has 64 bits as well, it is computed without
leaving them on the way, and the bytes from the first chunk on up to it are divided among the chunks
in front: each of these begins where the one in front of it ends, and each byte belongs to one of
them and to no other chunk. If the chunk holds a position, all of them have a bound. -/
theorem extents_tile (p : Processor) (dataOffset : Nat) :
    let l := p.layout dataOffset
    (p.layoutChecked dataOffset = some l ∧
      l = Layout.ofSizes p.firstMax p.chunkMax (if p.config.streaming then 8 else 28) dataOffset) ∧
    (∀ s < seqnumLimit, l.packedBeforeChecked s =
      some (if p.packedFront s < offsetLimit then some (p.packedFront s) else none)) ∧
    (∀ s < seqnumLimit, ∀ front, l.packedBefore? s = some front →
      dataOffset + front < offsetLimit →
      l.rawStartChecked s = some (dataOffset + front) ∧
      (∀ i < s, ∃ start, l.rawStartChecked i = some start ∧
        l.rawStartChecked (i + 1) = some (start + p.maxPackedSize i 0)) ∧
      ∀ raw, dataOffset ≤ raw → raw < dataOffset + front →
        ∃ i < s, p.Covers dataOffset i raw ∧ ∀ j, p.Covers dataOffset j raw → j = i) ∧
    ∀ pos s, l.seqnumOf? pos = some s → ∀ i < s, ∀ there,
      p.maxPackedSize i there = p.maxPlainSize i + p.overhead := by
  intro l
  have hlayout : l = Layout.ofSizes p.firstMax p.chunkMax
      (if p.config.streaming then 8 else 28) dataOffset := p.layout_eq_ofSizes dataOffset
  refine ⟨⟨p.layoutChecked_eq dataOffset, hlayout⟩, ?front, ?places, ?bounded⟩
  case front =>
    intro s _
    rw [Layout.packedBeforeChecked_eq, packedBefore?_layout]
  case places =>
    intro s _ front hfront hfits
    have hstart : l.rawStartOf s = dataOffset + front := Layout.rawStartOf_eq_add hfront
    have hchecked {i : Nat} (hi : i ≤ s) : l.rawStartChecked i = some (l.rawStartOf i) := by
      apply Layout.rawStartChecked_eq
      have hmono := l.rawStartOf_mono hi
      omega
    refine ⟨?_, ?_, ?_⟩
    · rw [hchecked (Nat.le_refl s), hstart]
    · intro i hi
      refine ⟨l.rawStartOf i, hchecked (Nat.le_of_lt hi), ?_⟩
      rw [hchecked hi, rawStartOf_layout_succ]
    · intro raw hfrom hto
      rw [← hstart] at hto
      obtain ⟨i, hi, hcovers⟩ := exists_covers hfrom hto
      exact ⟨i, hi, hcovers, fun j hj => hj.unique hcovers⟩
  case bounded =>
    intro pos s hpos i hi there
    exact maxPackedSize_of_seqnumOf? hpos hi

/-- Chunk 0 of 64 bytes and others of 32, sealed: chunk 2 begins behind 92 and 60 bytes of chunk
data, and the first of these 60 belongs to chunk 1. With the largest capacity, the chunks in front
of the last numbered one take more than can be said in 64 bits. -/
theorem extents_tile_sealed :
    let p := ofConfig ⟨[7]⟩ { firstMax := 64, chunkMax := 32 }
    let large := ofConfig ⟨[7]⟩ { chunkMax := 0xffffffff }
    (p.layout 40).rawStartChecked 2 = some 192 ∧
    (∃ i < 2, p.Covers 40 i 132 ∧ ∀ j, p.Covers 40 j 132 → j = i) ∧
    (large.layout 40).packedBeforeChecked 0xffffffff = some none := by
  intro p large
  obtain ⟨-, -, hplaces, -⟩ := extents_tile p 40
  obtain ⟨hstart, -, hcovers⟩ := hplaces 2 (by decide) 152 (by decide) (by decide)
  obtain ⟨-, hfront, -, -⟩ := extents_tile large 40
  have hlarge : large.packedFront 0xffffffff = 0xfffffffe * 0x10000001b + 0x10000001b :=
    large.packedFront_eq 40 0xfffffffe
  refine ⟨hstart, hcovers 132 (by decide) (by decide), ?_⟩
  rw [hfront 0xffffffff (by decide), hlarge, if_neg (by decide)]

end Processor

end Vault
