import Vault.Layout
import Vault.Proofs.Bytes

/-!
# `Vault/Proofs/Layout.lean` — chunks divide the content

The layout answers three questions by arithmetic: which chunk holds a position, where that chunk
begins in the content, and where it begins in the file. Here the three are tied together: **chunk
`i + 1` begins where chunk `i` ends, in the content and in the file,** so that a position lies in
exactly one chunk and the chunks of the file neither overlap nor leave gaps.

A capacity of 0 means that a chunk is not bounded. Numbers behind such a chunk mean nothing, which
is why almost every statement is about numbers that the layout *reaches*.
-/

set_option autoImplicit false

namespace Vault.Layout

/-- The capacity of a chunk; 0 when it is not bounded. -/
def capacity (l : Layout) (seqnum : Nat) : Nat := if seqnum = 0 then l.firstPlain else l.plain

/-- Are all chunks in front of this one bounded, so that it begins somewhere? -/
def Reaches (l : Layout) (seqnum : Nat) : Prop := ∀ j < seqnum, 0 < l.capacity j

/-- Packing adds the same number of bytes to every chunk, and only a last chunk is not bounded. -/
structure Packs (l : Layout) (overhead : Nat) : Prop where
  firstPacked : l.firstPacked = packedSize overhead l.firstPlain
  packed : l.packed = packedSize overhead l.plain
  plain : l.firstPlain = 0 → l.plain = 0

/-- A full chunk 0 takes its capacity and what packing adds. -/
theorem Packs.firstPacked_eq {l : Layout} {overhead : Nat} (hp : l.Packs overhead)
    (h : l.firstPlain ≠ 0) : l.firstPacked = l.firstPlain + overhead := by
  rw [hp.firstPacked, packedSize, if_neg h]

/-- So does any other full chunk. -/
theorem Packs.packed_eq {l : Layout} {overhead : Nat} (hp : l.Packs overhead) (h : l.plain ≠ 0) :
    l.packed = l.plain + overhead := by
  rw [hp.packed, packedSize, if_neg h]

theorem packs_ofSizes (first chunk : UInt32) (overhead dataOffset : Nat) :
    (ofSizes first chunk overhead dataOffset).Packs overhead where
  firstPacked := rfl
  packed := rfl
  plain := by
    intro h
    simp only [ofSizes] at h ⊢
    split at h
    · exact h
    · next hne => exact absurd (UInt32.toNat_inj.mp h) hne

theorem Reaches.mono {l : Layout} {i j : Nat} (h : l.Reaches j) (hij : i ≤ j) : l.Reaches i :=
  fun k hk => h k (Nat.lt_of_lt_of_le hk hij)

theorem reaches_zero (l : Layout) : l.Reaches 0 := fun j hj => absurd hj (Nat.not_lt_zero j)

theorem Reaches.succ {l : Layout} {i : Nat} (h : l.Reaches i) (hc : 0 < l.capacity i) :
    l.Reaches (i + 1) := by
  intro j hj
  rcases Nat.lt_succ_iff_lt_or_eq.mp hj with hlt | rfl
  · exact h j hlt
  · exact hc

/-- Chunks whose capacity is a number above 0 are all bounded, chunk 0 as well. -/
theorem reaches_ofSizes (first : UInt32) {chunk : UInt32} (h : 0 < chunk)
    (overhead dataOffset i : Nat) : (ofSizes first chunk overhead dataOffset).Reaches i := by
  have hplain : 0 < chunk.toNat := h
  intro j _
  simp only [capacity, ofSizes]
  split
  · split
    · exact hplain
    · next hfirst => exact UInt32.pos_iff_ne_zero.mpr hfirst
  · exact hplain

/-! ## Where chunks begin

`startOf` and `rawStartOf` are closed formulas, with a case for chunk 0. What is proved from here
on uses only their steps, which hold in both cases: the next chunk begins a capacity later in the
content, and a capacity and an overhead later in the file. -/

@[simp] theorem startOf_zero (l : Layout) : l.startOf 0 = 0 := rfl

theorem startOf_succ (l : Layout) (i : Nat) : l.startOf (i + 1) = l.startOf i + l.capacity i := by
  cases i with
  | zero => simp [startOf, capacity]
  | succ i => simp [startOf, capacity, Nat.add_mul, Nat.add_assoc]

theorem startOf_mono (l : Layout) {i j : Nat} (h : i ≤ j) : l.startOf i ≤ l.startOf j := by
  induction h with
  | refl => exact Nat.le_refl _
  | step _ ih =>
    rw [startOf_succ]
    exact Nat.le_add_right_of_le ih

/-- A chunk in front of another one ends where the other begins, or before. -/
theorem startOf_add_capacity_le (l : Layout) {i j : Nat} (h : i < j) :
    l.startOf i + l.capacity i ≤ l.startOf j :=
  l.startOf_succ i ▸ l.startOf_mono h

@[simp] theorem rawStartOf_zero (l : Layout) : l.rawStartOf 0 = l.dataOffset := rfl

theorem rawStartOf_succ {l : Layout} {overhead i : Nat} (hp : l.Packs overhead)
    (hc : 0 < l.capacity i) :
    l.rawStartOf (i + 1) = l.rawStartOf i + (l.capacity i + overhead) := by
  cases i with
  | zero =>
    -- chunk 0 has a capacity of its own, so the two steps are two formulas
    have hne : l.firstPlain ≠ 0 := by simpa [capacity, Nat.pos_iff_ne_zero] using hc
    simp [rawStartOf, capacity, hp.firstPacked, packedSize, hne]
  | succ i =>
    have hne : l.plain ≠ 0 := by simpa [capacity, Nat.pos_iff_ne_zero] using hc
    simp [rawStartOf, capacity, hp.packed, packedSize, hne, Nat.add_mul, Nat.add_assoc]

theorem rawStartOf_mono (l : Layout) {i j : Nat} (h : i ≤ j) : l.rawStartOf i ≤ l.rawStartOf j := by
  unfold rawStartOf
  split <;> split
  · exact Nat.le_refl _
  · omega
  · omega
  · exact Nat.add_le_add_left (Nat.mul_le_mul_right _ (by omega)) _

theorem dataOffset_le_rawStartOf (l : Layout) (i : Nat) : l.dataOffset ≤ l.rawStartOf i :=
  l.rawStartOf_mono (Nat.zero_le i)

/-- The packed form of a full chunk ends where the next chunk begins, or before. -/
theorem rawStartOf_add_le {l : Layout} {overhead i j : Nat} (hp : l.Packs overhead)
    (hr : l.Reaches j) (h : i < j) : l.rawStartOf i + (l.capacity i + overhead) ≤ l.rawStartOf j :=
  rawStartOf_succ hp (hr i h) ▸ l.rawStartOf_mono h

/-- Chunk data grows by one overhead for each chunk in front. -/
theorem rawStartOf_eq {l : Layout} {overhead i : Nat} (hp : l.Packs overhead) (hr : l.Reaches i) :
    l.rawStartOf i = l.dataOffset + l.startOf i + overhead * i := by
  induction i with
  | zero => simp
  | succ i ih =>
    rw [rawStartOf_succ hp (hr i (Nat.lt_succ_self i)), startOf_succ,
      ih (hr.mono (Nat.le_succ i)), Nat.mul_succ]
    omega

theorem packedBefore?_eq {l : Layout} {i : Nat} (h : l.rawStartOf i < offsetLimit) :
    l.packedBefore? i = some (l.rawStartOf i - l.dataOffset) := by
  unfold packedBefore? rawStartOf at *
  split
  · simp
  · rename_i hi
    simp only [if_neg hi] at h
    rw [if_pos (by omega), Option.some.injEq]
    omega

/-- A chunk that begins at an offset of 64 bits begins behind the full ones in front of it. -/
theorem rawStartOf_eq_add {l : Layout} {i needed : Nat} (h : l.packedBefore? i = some needed) :
    l.rawStartOf i = l.dataOffset + needed := by
  unfold packedBefore? at h
  unfold rawStartOf
  split at h
  · next hi =>
    rw [if_pos hi]
    simp only [Option.some.injEq] at h
    omega
  · next hi =>
    rw [if_neg hi]
    simp only [Option.ite_none_right_eq_some, Option.some.injEq] at h
    omega

/-! ## Which chunk holds a position

Both directions follow the branches of `seqnumOf?`: chunk 0 holds the position, or chunk 1 is not
bounded and takes the rest, or the number is a quotient. -/

/-- **A position lies in exactly one chunk:** the one that begins there or before and, if it is
bounded, ends behind it. There is an answer as long as that chunk has a number. -/
theorem seqnumOf?_eq_some_iff {l : Layout} {pos i : Nat} :
    l.seqnumOf? pos = some i ↔
      l.Reaches i ∧ l.startOf i ≤ pos ∧ (l.capacity i = 0 ∨ pos < l.startOf i + l.capacity i) ∧
        i < seqnumLimit := by
  have hone : l.Reaches 1 ↔ 0 < l.firstPlain := by simp [Reaches, capacity]
  constructor
  · intro h
    unfold seqnumOf? at h
    split at h
    · rename_i hfirst
      obtain rfl : 0 = i := by simpa using h
      exact ⟨l.reaches_zero, Nat.zero_le _, by simpa [capacity] using hfirst, by decide⟩
    · rename_i hfirst
      have hpos : 0 < l.firstPlain := by omega
      have hstart : l.firstPlain ≤ pos := by omega
      split at h
      · rename_i hplain
        obtain rfl : 1 = i := by simpa using h
        -- nothing begins behind chunk 1, so it holds every position from its start on
        exact ⟨hone.mpr hpos, by simpa [startOf] using hstart, by simp [capacity, hplain],
          by decide⟩
      · rename_i hplain
        simp only [Option.ite_none_right_eq_some, Option.some.injEq] at h
        obtain ⟨hlimit, rfl⟩ := h
        -- the number is a quotient, and the chunk begins where the remainder is cut off
        have hmod := Nat.div_add_mod (pos - l.firstPlain) l.plain
        have hlt := Nat.mod_lt (pos - l.firstPlain) (Nat.pos_of_ne_zero hplain)
        rw [Nat.mul_comm] at hmod
        refine ⟨fun j hj => ?_, ?_, Or.inr ?_, hlimit⟩
        · unfold capacity
          split <;> omega
        · simp only [startOf, Nat.add_sub_cancel, Nat.succ_ne_zero, if_false]
          omega
        · simp only [startOf, capacity, Nat.add_sub_cancel, Nat.succ_ne_zero, if_false]
          omega
  · rintro ⟨hr, hle, hlt, hlimit⟩
    unfold seqnumOf?
    cases i with
    | zero =>
      rw [if_pos (by simpa [capacity] using hlt)]
    | succ i =>
      have hpos : 0 < l.firstPlain := hr 0 (Nat.succ_pos i)
      have hstart : l.firstPlain ≤ pos := Nat.le_trans (Nat.le_add_right _ _) hle
      rw [if_neg (by omega)]
      simp only [capacity, startOf, Nat.succ_ne_zero, if_false, Nat.add_sub_cancel] at hlt hle
      split
      · rename_i hplain
        cases i with
        | zero => rfl
        | succ i =>
          have hbad := hr 1 (by omega)
          -- a later chunk has one in front that is not bounded, and is not reached
          simp [capacity, hplain] at hbad
      · rename_i hplain
        have hdiv : (pos - l.firstPlain) / l.plain = i := by
          rw [Nat.div_eq_iff (Nat.pos_of_ne_zero hplain)]
          omega
        rw [hdiv, if_pos hlimit]

theorem seqnumOf?_zero (l : Layout) : l.seqnumOf? 0 = some 0 := by
  unfold seqnumOf?
  rw [if_pos (by omega)]

theorem locate?_eq_some_iff {l : Layout} {pos i off : Nat} :
    l.locate? pos = some (i, off) ↔ l.seqnumOf? pos = some i ∧ pos = l.startOf i + off := by
  simp only [locate?, Option.map_eq_some_iff, Prod.mk.injEq]
  constructor
  · rintro ⟨j, hj, rfl, rfl⟩
    have hle := (seqnumOf?_eq_some_iff.mp hj).2.1
    exact ⟨hj, by omega⟩
  · rintro ⟨hi, rfl⟩
    exact ⟨i, hi, rfl, Nat.add_sub_cancel_left _ _⟩

theorem locate?_eq_none_iff {l : Layout} {pos : Nat} :
    l.locate? pos = none ↔ l.seqnumOf? pos = none := by
  simp [locate?]

/-- A position in front of one that has a chunk number has one too. -/
theorem seqnumOf?_isSome_of_le {l : Layout} {p q : Nat} (h : p ≤ q)
    (hq : (l.seqnumOf? q).isSome) : (l.seqnumOf? p).isSome := by
  unfold seqnumOf? at *
  split
  · rfl
  · rename_i hfirst
    rw [if_neg (by omega)] at hq
    split
    · rfl
    · rename_i hplain
      rw [if_neg hplain] at hq
      have hdiv : (p - l.firstPlain) / l.plain ≤ (q - l.firstPlain) / l.plain :=
        Nat.div_le_div_right (by omega)
      -- both quotients are compared with the same limit
      simp only [Option.isSome_ite] at hq ⊢
      omega

theorem seqnumOf?_eq_none_of_le {l : Layout} {p q : Nat} (h : p ≤ q) (hp : l.seqnumOf? p = none) :
    l.seqnumOf? q = none := by
  cases hq : l.seqnumOf? q with
  | none => rfl
  | some i =>
    have hsome := seqnumOf?_isSome_of_le h (by rw [hq]; rfl)
    rw [hp] at hsome
    exact absurd hsome (by simp)

/-- A position that is not behind another one is not in a later chunk. -/
theorem seqnumOf?_mono {l : Layout} {p q i j : Nat} (hi : l.seqnumOf? p = some i)
    (hj : l.seqnumOf? q = some j) (h : p ≤ q) : i ≤ j := by
  obtain ⟨hreaches, hstart, -, -⟩ := seqnumOf?_eq_some_iff.mp hi
  obtain ⟨-, -, hend, -⟩ := seqnumOf?_eq_some_iff.mp hj
  refine Classical.byContradiction fun hlt => ?_
  have hcap := hreaches j (by omega)
  have hle := l.startOf_add_capacity_le (i := j) (j := i) (by omega)
  omega

/-- A content of this size has a byte without a chunk number. -/
def Spills (l : Layout) (size : Nat) : Prop := ∃ pos < size, l.seqnumOf? pos = none

theorem Spills.mono {l : Layout} {n n' : Nat} (h : l.Spills n) (hle : n ≤ n') : l.Spills n' :=
  let ⟨pos, hlt, hnone⟩ := h
  ⟨pos, Nat.lt_of_lt_of_le hlt hle, hnone⟩

/-- Its end has none either. -/
theorem Spills.seqnumOf?_eq_none {l : Layout} {n : Nat} (h : l.Spills n) : l.seqnumOf? n = none :=
  let ⟨_, hlt, hnone⟩ := h
  seqnumOf?_eq_none_of_le (Nat.le_of_lt hlt) hnone

/-- The start of a chunk lies in it. -/
theorem seqnumOf?_startOf {l : Layout} {i : Nat} (hr : l.Reaches i) (hi : i < seqnumLimit) :
    l.seqnumOf? (l.startOf i) = some i := by
  rw [seqnumOf?_eq_some_iff]
  exact ⟨hr, Nat.le_refl _, by omega, hi⟩

end Vault.Layout
