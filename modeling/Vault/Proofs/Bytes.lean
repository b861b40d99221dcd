import Vault.Bytes

/-!
# `Vault/Proofs/Bytes.lean` — laying bytes over bytes

A container writes by `Bytes.overlay` and reads by `Bytes.slice`, in its file, in its chunks and in
its content. What it relies on are three facts: **what was laid over is read back, what lies
elsewhere is not disturbed, and laying two pieces side by side is laying their concatenation.**
All of them follow from one description of each operation byte by byte.

An overlay behind the end fills the gap with zeros, as a file does. Where a lemma says nothing of
the gap, its hypothesis keeps the start within the bytes that there are.
-/

set_option autoImplicit false

namespace Vault.Bytes

/-! ## Byte by byte

Two byte strings are equal if they are so byte by byte. With these four, `grind` only has to
compare positions. -/

theorem getElem?_zeros (n i : Nat) : (zeros n)[i]? = if i < n then some 0 else none := by
  simp [zeros, List.getElem?_replicate]

theorem getElem?_slice (b : Bytes) (start len i : Nat) :
    (slice b start len)[i]? = if i < len then b[start + i]? else none := by
  simp [slice, List.getElem?_take, List.getElem?_drop]

theorem getElem?_resize (b : Bytes) (n i : Nat) :
    (resize b n)[i]? = if i < n then (if i < b.length then b[i]? else some 0) else none := by
  simp only [resize, List.getElem?_append, List.length_take, List.getElem?_take, getElem?_zeros]
  grind

theorem getElem?_overlay (base : Bytes) (start : Nat) (data : Bytes) (i : Nat) :
    (overlay base start data)[i]? =
      if i < start then (if i < base.length then base[i]? else some 0)
      else if i < start + data.length then data[i - start]?
      else base[i]? := by
  simp only [overlay, List.getElem?_append, List.length_take, List.getElem?_take, getElem?_zeros,
    length_zeros, List.getElem?_drop]
  grind

/-! ## Slices -/

@[simp] theorem length_slice (b : Bytes) (start len : Nat) :
    (slice b start len).length = min len (b.length - start) := by
  simp [slice]

theorem take_slice (b : Bytes) (start len n : Nat) :
    (slice b start len).take n = slice b start (min n len) := by
  simp [slice, List.take_take]

theorem slice_length_slice (b : Bytes) (start len : Nat) :
    slice b start (slice b start len).length = slice b start len := by
  apply List.ext_getElem?
  intro i
  simp only [getElem?_slice, length_slice]
  grind

theorem slice_append_slice (b : Bytes) (start m n : Nat) :
    slice b start m ++ slice b (start + m) n = slice b start (m + n) := by
  simp [slice, List.take_add, List.drop_drop]

/-- A slice goes on behind what there is of it. -/
theorem slice_append_rest (b : Bytes) (start m n : Nat) :
    slice b start m ++ slice b (start + (slice b start m).length) n = slice b start (m + n) := by
  apply List.ext_getElem?
  intro i
  simp only [List.getElem?_append, getElem?_slice, length_slice]
  grind

/-- A slice up to the end goes on with what is appended. -/
theorem slice_append {b data : Bytes} {start n : Nat} (h : start + n = b.length) :
    slice (b ++ data) start (n + data.length) = slice b start n ++ data := by
  have hlen : n = (b.drop start).length := by rw [List.length_drop]; omega
  rw [slice, slice, List.drop_append_of_le_length (by omega), hlen, ← List.length_append,
    List.take_length, List.take_length]

/-- What is appended is not seen by the slices in front of it. -/
theorem slice_append_of_le {b : Bytes} {start n : Nat} (h : start + n ≤ b.length) (rest : Bytes) :
    slice (b ++ rest) start n = slice b start n := by
  rw [slice, slice, List.drop_append_of_le_length (by omega),
    List.take_append_of_le_length (by rw [List.length_drop]; omega)]

theorem slice_drop (b : Bytes) (offset start n : Nat) :
    slice (b.drop offset) start n = slice b (offset + start) n := by
  rw [slice, slice, List.drop_drop]

theorem getD_drop (b : Bytes) (offset i : Nat) :
    (b.drop offset).getD i 0 = b.getD (offset + i) 0 := by
  simp [List.getD_eq_getElem?_getD]

theorem slice_one (b : Bytes) (start : Nat) (h : start < b.length) :
    slice b start 1 = [b.getD start 0] := by
  rw [slice, List.drop_eq_getElem_cons h, List.take_one, List.head?_cons,
    List.getD_eq_getElem?_getD, List.getElem?_eq_getElem h]
  rfl

theorem slice_take {b : Bytes} {start len n : Nat} (h : start + len ≤ n) :
    slice (b.take n) start len = slice b start len := by
  apply List.ext_getElem?
  intro i
  simp only [getElem?_slice, List.getElem?_take]
  grind

/-! ## What is laid over is read back, and nothing else changes

Three cases, as the slice is the piece that was laid over, in front of it, or behind it. In front
of it there must have been bytes all along; behind it nothing matters. -/

theorem slice_overlay_self (base : Bytes) (start : Nat) (data : Bytes) :
    slice (overlay base start data) start data.length = data := by
  apply List.ext_getElem?
  intro i
  simp only [getElem?_slice, getElem?_overlay]
  grind

theorem slice_overlay_of_le {base data : Bytes} {start a n : Nat} (h : a + n ≤ start)
    (hstart : start ≤ base.length) : slice (overlay base start data) a n = slice base a n := by
  apply List.ext_getElem?
  intro i
  simp only [getElem?_slice, getElem?_overlay]
  grind

theorem slice_overlay_of_ge {base data : Bytes} {start a n : Nat} (h : start + data.length ≤ a) :
    slice (overlay base start data) a n = slice base a n := by
  apply List.ext_getElem?
  intro i
  simp only [getElem?_slice, getElem?_overlay]
  grind

theorem take_overlay {base data : Bytes} {start n : Nat} (h : n ≤ start)
    (hstart : start ≤ base.length) : (overlay base start data).take n = base.take n := by
  have hslice : slice (overlay base start data) 0 n = slice base 0 n :=
    slice_overlay_of_le (by omega) hstart
  simpa [slice] using hslice

theorem drop_overlay_of_ge {base data : Bytes} {start n : Nat} (h : start + data.length ≤ n) :
    (overlay base start data).drop n = base.drop n := by
  apply List.ext_getElem?
  intro i
  simp only [List.getElem?_drop, getElem?_overlay]
  grind

/-! ## Overlays of overlays

How a file is written piece by piece, and how it is extended before or while it is written: in
all these ways the same bytes come about. -/

/-- Two pieces side by side are laid over one after the other. -/
theorem overlay_overlay (base : Bytes) (start : Nat) (a b : Bytes) :
    overlay (overlay base start a) (start + a.length) b = overlay base start (a ++ b) := by
  apply List.ext_getElem?
  intro i
  simp only [getElem?_overlay, length_overlay, List.length_append, List.getElem?_append]
  grind

theorem overlay_nil {base : Bytes} {start : Nat} (h : start ≤ base.length) :
    overlay base start [] = base := by
  apply List.ext_getElem?
  intro i
  simp only [getElem?_overlay]
  grind

theorem overlay_length (base data : Bytes) : overlay base base.length data = base ++ data := by
  simp [overlay, zeros]

/-- What is as long as a piece in the middle takes its place. -/
theorem overlay_middle {a b b' c : Bytes} (h : b'.length = b.length) :
    overlay (a ++ (b ++ c)) a.length b' = a ++ (b' ++ c) := by
  have hdrop : (a ++ (b ++ c)).drop (a.length + b'.length) = c := by
    rw [h, ← List.append_assoc, ← List.length_append, List.drop_left]
  simp only [overlay, List.take_left, List.length_append, hdrop, zeros]
  simp [Nat.sub_eq_zero_of_le (Nat.le_add_right a.length _)]

theorem overlay_zero {base data : Bytes} (h : base.length ≤ data.length) :
    overlay base 0 data = data := by
  simp [overlay, zeros, List.drop_eq_nil_of_le h]

/-- The gap that an overlay fills is the one that extending fills. -/
theorem overlay_resize {base : Bytes} {start : Nat} (data : Bytes) (h : base.length ≤ start) :
    overlay (resize base start) start data = overlay base start data := by
  apply List.ext_getElem?
  intro i
  simp only [getElem?_overlay, getElem?_resize, length_resize]
  grind

theorem slice_resize {b : Bytes} {n a m : Nat} (h : a + m ≤ n) (hn : n ≤ b.length) :
    slice (resize b n) a m = slice b a m := by
  apply List.ext_getElem?
  intro i
  simp only [getElem?_slice, getElem?_resize]
  grind

theorem resize_of_le {b : Bytes} {n : Nat} (h : n ≤ b.length) : resize b n = b.take n := by
  simp [resize, zeros, Nat.sub_eq_zero_of_le h]

theorem resize_of_ge {b : Bytes} {n : Nat} (h : b.length ≤ n) :
    resize b n = b ++ zeros (n - b.length) := by
  simp [resize, List.take_of_length_le h]

/-- What was laid over is the end, if all behind it is cut off. -/
theorem resize_overlay {base data : Bytes} {start : Nat} (h : start ≤ base.length) :
    resize (overlay base start data) (start + data.length) = base.take start ++ data := by
  rw [resize_of_le (by rw [length_overlay]; omega), overlay, Nat.sub_eq_zero_of_le h,
    show zeros 0 = [] from rfl, List.nil_append, ← List.append_assoc,
    List.take_left' (by rw [List.length_append, List.length_take, Nat.min_eq_left h])]

theorem zeros_append_zeros (m n : Nat) : zeros m ++ zeros n = zeros (m + n) := by
  simp [zeros]

/-- A byte string is the start of what it grows to. -/
theorem prefix_resize {b : Bytes} {n : Nat} (h : b.length ≤ n) : b <+: resize b n :=
  resize_of_ge h ▸ List.prefix_append _ _

/-- Growing can be done in steps. -/
theorem resize_append_zeros {b : Bytes} {k n : Nat} (h : b.length + k ≤ n) :
    resize (b ++ zeros k) n = resize b n := by
  have hlen : (b ++ zeros k).length = b.length + k := by rw [List.length_append, length_zeros]
  rw [resize_of_ge (hlen ▸ h), resize_of_ge (by omega), List.append_assoc, zeros_append_zeros, hlen]
  exact congrArg (fun m => b ++ zeros m) (by omega)

/-! ## Numbers

Numbers are written with their low bytes first, in a width of their own. -/

/-- Of a number that does not fit, the rest that fits is written. -/
theorem ofNatLE_mod (width n : Nat) : ofNatLE width (n % limit width) = ofNatLE width n := by
  have h := ofNatLE_toNatLE (ofNatLE width n)
  rwa [length_ofNatLE, toNatLE_ofNatLE] at h

/-- A number that was read is written as it stood. -/
theorem ofNatLE_toNatLE_slice (b : Bytes) (start n : Nat) (h : start + n ≤ b.length) :
    ofNatLE n (toNatLE (slice b start n)) = slice b start n := by
  have hlen : (slice b start n).length = n := by
    rw [length_slice]
    omega
  have hwritten := ofNatLE_toNatLE (slice b start n)
  rwa [hlen] at hwritten

theorem limit_mono {m n : Nat} (h : m ≤ n) : limit m ≤ limit n := by
  induction h with
  | refl => exact Nat.le_refl _
  | step _ ih =>
    rw [limit]
    omega

theorem toNatLE_slice_lt (b : Bytes) (start n : Nat) : toNatLE (slice b start n) < limit n := by
  refine Nat.lt_of_lt_of_le (toNatLE_lt _) (limit_mono ?_)
  rw [length_slice]
  exact Nat.min_le_left _ _

end Vault.Bytes
