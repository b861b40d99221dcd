import Vault.Proofs.Layout

/-!
# `Vault/Proofs/Parts.lean` — the content, chunk by chunk

`Layout.part` is the piece of the content that belongs into a chunk. **The parts determine the
content** (`ext_parts`), and an overlay that stays inside one chunk changes that chunk's part and
no other. That is how what happens to a single chunk is told of the content as a whole.
-/

set_option autoImplicit false

namespace Vault.Layout

/-- The piece of a content that belongs into a chunk. -/
def part (l : Layout) (content : Bytes) (seqnum : Nat) : Bytes :=
  if l.capacity seqnum = 0 then content.drop (l.startOf seqnum)
  else content.slice (l.startOf seqnum) (l.capacity seqnum)

/-- Does an extent stay inside a chunk? -/
def Within (l : Layout) (seqnum position : Nat) : Prop :=
  l.capacity seqnum = 0 ∨ position ≤ l.startOf seqnum + l.capacity seqnum

theorem getElem?_part (l : Layout) (content : Bytes) (i k : Nat) :
    (l.part content i)[k]? =
      if l.capacity i = 0 ∨ k < l.capacity i then content[l.startOf i + k]? else none := by
  unfold part
  split
  · simp [List.getElem?_drop, *]
  · simp [Bytes.getElem?_slice, *]

theorem length_part (l : Layout) (c : Bytes) (i : Nat) :
    (l.part c i).length =
      if l.capacity i = 0 then c.length - l.startOf i
      else min (l.capacity i) (c.length - l.startOf i) := by
  unfold part
  split <;> simp

/-- A chunk that the content goes beyond is full. -/
theorem length_part_of_le {l : Layout} {c : Bytes} {i : Nat} (hc : 0 < l.capacity i)
    (h : l.startOf i + l.capacity i ≤ c.length) : (l.part c i).length = l.capacity i := by
  rw [length_part, if_neg (by omega)]
  omega

/-- The part at the end of the content is what is left of it. -/
theorem length_part_of_within {l : Layout} {c : Bytes} {i : Nat} (h : l.Within i c.length) :
    (l.part c i).length = c.length - l.startOf i := by
  rw [length_part]
  unfold Within at h
  split
  · rfl
  · omega

theorem part_eq_drop {l : Layout} {c : Bytes} {i : Nat} (h : l.Within i c.length) :
    l.part c i = c.drop (l.startOf i) := by
  apply List.ext_getElem?
  intro k
  rw [getElem?_part, List.getElem?_drop]
  unfold Within at h
  split
  · rfl
  · -- the chunk is bounded and the content ends inside it, so behind that neither has a byte
    rw [eq_comm, List.getElem?_eq_none_iff]
    omega

/-- A stretch inside a chunk is the same in the chunk and in the content. -/
theorem slice_part {l : Layout} {i off n : Nat} (c : Bytes)
    (h : l.Within i (l.startOf i + off + n)) :
    Bytes.slice (l.part c i) off n = Bytes.slice c (l.startOf i + off) n := by
  apply List.ext_getElem?
  intro k
  unfold Within at h
  simp only [Bytes.getElem?_slice, getElem?_part, Nat.add_assoc]
  grind

/-! ## Changing one chunk

Chunks do not overlap, so a chunk is either bounded and ends in front of the change, or it begins
behind it. -/

/-- An overlay inside a chunk is an overlay of the chunk. -/
theorem part_overlay_self {l : Layout} {c data : Bytes} {i p : Nat} (hstart : l.startOf i ≤ p)
    (hp : p ≤ c.length) (h : l.Within i (p + data.length)) :
    l.part (c.overlay p data) i = (l.part c i).overlay (p - l.startOf i) data := by
  apply List.ext_getElem?
  intro k
  unfold Within at h
  simp only [getElem?_part, Bytes.getElem?_overlay, length_part]
  grind

/-- An overlay inside a chunk leaves the other chunks alone. -/
theorem part_overlay_of_ne {l : Layout} {c data : Bytes} {i j p : Nat} (hstart : l.startOf i ≤ p)
    (hp : p ≤ c.length) (h : l.Within i (p + data.length)) (hij : j ≠ i) (hi : l.Reaches i)
    (hj : l.Reaches j) : l.part (c.overlay p data) j = l.part c j := by
  have hdisjoint : (0 < l.capacity j ∧ l.startOf j + l.capacity j ≤ p) ∨
      p + data.length ≤ l.startOf j := by
    rcases Nat.lt_or_gt_of_ne hij with hlt | hlt
    · exact .inl ⟨hi j hlt, Nat.le_trans (l.startOf_add_capacity_le hlt) hstart⟩
    · -- the chunk that is changed lies in front of this one, so it is bounded
      have hc := hj i hlt
      have hle := l.startOf_add_capacity_le hlt
      unfold Within at h
      exact .inr (by omega)
  unfold part
  rcases hdisjoint with ⟨hc, hle⟩ | hle
  · rw [if_neg (by omega), if_neg (by omega), Bytes.slice_overlay_of_le hle hp]
  · rw [Bytes.drop_overlay_of_ge hle, Bytes.slice_overlay_of_ge hle]

/-- The content with another part for a chunk. -/
def withPart (l : Layout) (content : Bytes) (seqnum : Nat) (data : Bytes) : Bytes :=
  content.overlay (l.startOf seqnum) data

theorem part_withPart_self {l : Layout} {c data : Bytes} {i : Nat} (hstart : l.startOf i ≤ c.length)
    (h : l.Within i (l.startOf i + data.length)) (hlen : (l.part c i).length ≤ data.length) :
    l.part (l.withPart c i data) i = data := by
  rw [withPart, part_overlay_self (Nat.le_refl _) hstart h, Nat.sub_self, Bytes.overlay_zero hlen]

theorem part_withPart_of_ne {l : Layout} {c data : Bytes} {i j : Nat}
    (hstart : l.startOf i ≤ c.length) (h : l.Within i (l.startOf i + data.length)) (hij : j ≠ i)
    (hi : l.Reaches i) (hj : l.Reaches j) : l.part (l.withPart c i data) j = l.part c j :=
  part_overlay_of_ne (Nat.le_refl _) hstart h hij hi hj

theorem length_withPart {l : Layout} {c data : Bytes} {i : Nat} :
    (l.withPart c i data).length = max c.length (l.startOf i + data.length) :=
  Bytes.length_overlay c _ data

/-! ## Cutting the content

A cut takes from the end of every chunk what lies behind it, which may be all of a chunk and may
be nothing. -/

theorem part_take_of_le {l : Layout} {c : Bytes} {i n : Nat} (hc : 0 < l.capacity i)
    (h : l.startOf i + l.capacity i ≤ n) : l.part (c.take n) i = l.part c i := by
  simp only [part, if_neg (Nat.ne_of_gt hc)]
  exact Bytes.slice_take h

theorem part_take (l : Layout) (c : Bytes) (i n : Nat) :
    l.part (c.take n) i = (l.part c i).take (n - l.startOf i) := by
  apply List.ext_getElem?
  intro k
  simp only [getElem?_part, List.getElem?_take]
  grind

/-! ## The parts determine the content

The parts up to the last chunk cover every position, and a part says which byte stands where in
it. So contents are compared byte by byte, each in the chunk that it lies in. -/

/-- Every position up to the end of a chunk lies in one of the chunks up to that. -/
theorem exists_part {l : Layout} {e pos : Nat} (h : l.Within e (pos + 1)) :
    ∃ i ≤ e, l.startOf i ≤ pos ∧ l.Within i (pos + 1) := by
  -- by induction on the last chunk: the position lies in it or in front of it
  induction e with
  | zero => exact ⟨0, Nat.le_refl _, Nat.zero_le _, h⟩
  | succ e ih =>
    by_cases hpos : l.startOf (e + 1) ≤ pos
    · exact ⟨e + 1, Nat.le_refl _, hpos, h⟩
    · rw [startOf_succ] at hpos
      obtain ⟨i, hi, hrest⟩ := ih (Or.inr (by omega))
      exact ⟨i, Nat.le_succ_of_le hi, hrest⟩

/-- Positions in front of an end that lies in a chunk with a number have a chunk number. -/
theorem seqnumOf?_ne_none {l : Layout} {e n pos : Nat} (hr : l.Reaches e) (he : e < seqnumLimit)
    (hw : l.Within e n) (hlt : pos < n) : l.seqnumOf? pos ≠ none := by
  have hpos : l.Within e (pos + 1) := by
    unfold Within at hw ⊢
    omega
  obtain ⟨i, hi, hstart, hwithin⟩ := exists_part hpos
  unfold Within at hwithin
  have hnum := seqnumOf?_eq_some_iff.mpr
    ⟨hr.mono hi, hstart, by omega, Nat.lt_of_le_of_lt hi he⟩
  rw [hnum]
  simp

/-- **Contents of the same size with the same parts are the same.** -/
theorem ext_parts {l : Layout} {c d : Bytes} {e : Nat} (hlen : c.length = d.length)
    (hwithin : l.Within e c.length) (h : ∀ i ≤ e, l.part c i = l.part d i) : c = d := by
  apply List.ext_getElem?
  -- behind the end neither content has a byte
  intro pos
  by_cases hpos : pos < c.length
  · have hmem : l.Within e (pos + 1) := hwithin.imp id fun hle => by omega
    obtain ⟨i, hi, hstart, hin⟩ := exists_part hmem
    have hpart := congrArg (fun b : Bytes => b[pos - l.startOf i]?) (h i hi)
    simp only [getElem?_part, Nat.add_sub_cancel' hstart] at hpart
    rw [if_pos (hin.imp id fun hle => by omega)] at hpart
    rwa [if_pos (hin.imp id fun hle => by omega)] at hpart
  · rw [List.getElem?_eq_none (by omega), List.getElem?_eq_none (by omega)]

/-- Two contents of one size that differ at most in some of the chunks. -/
structure AgreeBut (l : Layout) (last : Nat) (lost : Nat → Prop) (c c' : Bytes) : Prop where
  length : c'.length = c.length
  parts : ∀ i ≤ last, l.part c' i ≠ l.part c i → lost i

section
variable {l : Layout} {last : Nat} {lost lost' : Nat → Prop} {c c' c'' : Bytes}

theorem AgreeBut.refl (l : Layout) (last : Nat) (lost : Nat → Prop) (c : Bytes) :
    l.AgreeBut last lost c c :=
  ⟨rfl, fun _ _ hne => absurd rfl hne⟩

theorem AgreeBut.mono (h : l.AgreeBut last lost c c') (himp : ∀ i, lost i → lost' i) :
    l.AgreeBut last lost' c c' :=
  { h with parts := fun i hi hne => himp i (h.parts i hi hne) }

theorem AgreeBut.trans (h : l.AgreeBut last lost c c') (h' : l.AgreeBut last lost c' c'') :
    l.AgreeBut last lost c c'' where
  length := h'.length.trans h.length
  parts := fun i hi hne => by
    by_cases heq : l.part c' i = l.part c i
    · exact h'.parts i hi (heq ▸ hne)
    · exact h.parts i hi heq

end

/-- The parts in front of a chunk, one behind the other, are the content in front of it. -/
theorem flatMap_part {l : Layout} {e : Nat} (c : Bytes) (hr : l.Reaches e) :
    (List.range e).flatMap (l.part c) = c.take (l.startOf e) := by
  induction e with
  | zero => simp
  | succ e ih =>
    have hc : l.capacity e ≠ 0 := Nat.ne_of_gt (hr e (Nat.lt_succ_self e))
    rw [List.range_succ, List.flatMap_append, ih (hr.mono (Nat.le_succ e)), startOf_succ,
      List.take_add]
    simp [part, hc, Bytes.slice]

end Vault.Layout
