import Vault.Proofs.Addressing
import Vault.Proofs.Keystream
import Vault.Proofs.Metadata
import Vault.Proofs.Parts

/-!
# `Vault/Proofs/Ciphertext.lean` — a content in streamed chunks

The chunk data of a content is a function of the content and of the nonces of its chunks
(`Layout.ciphertext`): chunk after chunk, each of them its nonce and its part of the content
encrypted from the start of the chunk's key stream. **When a content grows, its chunk data grows,
and nothing of it changes** (`ciphertext_append`, `ciphertext_mono`). The size of the content can
be told from the size of its chunk data (`streamedSize_ciphertext`), so a header need not be
trusted for it.

All of it goes by the number of chunks that a content takes (`chunksFor`). A content that ends at
the end of a chunk can be said to end in it or in the next one, which is empty (`EndsIn`);
`EndsIn.chunksFor_eq` says that the number does not depend on that.
-/

set_option autoImplicit false

namespace Vault

/-- What a content is encrypted with: a key, and a nonce for every chunk. -/
structure Ink where
  key : Bytes
  nonce : Nat → Bytes
  length_nonce : ∀ i, (nonce i).length = Salsa20.nonceSize

namespace Ink

/-- The same for the first chunks. -/
structure AgreesUpTo (ink ink' : Ink) (chunks : Nat) : Prop where
  key : ink'.key = ink.key
  nonce : ∀ i < chunks, ink'.nonce i = ink.nonce i

theorem AgreesUpTo.refl (ink : Ink) (chunks : Nat) : ink.AgreesUpTo ink chunks :=
  ⟨rfl, fun _ _ => rfl⟩

theorem AgreesUpTo.trans {ink ink₁ ink₂ : Ink} {m n : Nat} (h : ink.AgreesUpTo ink₁ m)
    (h' : ink₁.AgreesUpTo ink₂ n) (hle : m ≤ n) : ink.AgreesUpTo ink₂ m :=
  ⟨h'.key.trans h.key, fun i hi => (h'.nonce i (Nat.lt_of_lt_of_le hi hle)).trans (h.nonce i hi)⟩

/-- Another nonce for one chunk. -/
def renew (ink : Ink) (seqnum : Nat) (nonce : Bytes) (h : nonce.length = Salsa20.nonceSize) :
    Ink where
  key := ink.key
  nonce i := if i = seqnum then nonce else ink.nonce i
  length_nonce i := by
    split
    · exact h
    · exact ink.length_nonce i

@[simp] theorem nonce_renew {ink : Ink} {seqnum : Nat} {nonce : Bytes}
    {h : nonce.length = Salsa20.nonceSize} : (ink.renew seqnum nonce h).nonce seqnum = nonce :=
  if_pos rfl

theorem agreesUpTo_renew {ink : Ink} {seqnum : Nat} {nonce : Bytes}
    {h : nonce.length = Salsa20.nonceSize} : ink.AgreesUpTo (ink.renew seqnum nonce h) seqnum :=
  ⟨rfl, fun _ hi => if_neg (Nat.ne_of_lt hi)⟩

end Ink

namespace Layout

/-! ## How many chunks there are

The last chunk is the one with the last byte, so that an empty content has none, and a content
that fills its chunks has no empty one behind them. A chunk number for the end itself may not
exist, and nothing here asks for it. -/

/-- A content of this size ends in this chunk or right in front of it. -/
structure EndsIn (l : Layout) (last size : Nat) : Prop where
  reaches : l.Reaches last
  numbered : last < seqnumLimit
  start : l.startOf last ≤ size
  within : l.Within last size

/-- The number of chunks that so many bytes of content take. -/
def chunksFor (l : Layout) : Nat → Nat
  | 0 => 0
  | n + 1 => (l.seqnumOf? n).elim 0 (· + 1)

variable {l : Layout} {e e' i n n' : Nat}

theorem EndsIn.of_seqnumOf? (h : l.seqnumOf? n = some e) : l.EndsIn e n := by
  obtain ⟨hreaches, hstart, hend, hnumbered⟩ := seqnumOf?_eq_some_iff.mp h
  exact ⟨hreaches, hnumbered, hstart, hend.imp id Nat.le_of_lt⟩

/-- The chunk for more content is the one that a content ends in, or the next. -/
theorem EndsIn.next (h : l.EndsIn e n) (hi : l.seqnumOf? n = some i) :
    i = e ∨ (i = e + 1 ∧ l.startOf i = n) := by
  obtain ⟨hreaches, hstart, hend, -⟩ := seqnumOf?_eq_some_iff.mp hi
  have hstart' := h.start
  have hwithin := h.within
  unfold Within at hwithin
  rcases Nat.lt_trichotomy i e with hlt | rfl | hgt
  · -- all of that chunk lies in front of the one that the content ends in
    have hcap := h.reaches i hlt
    have hle := l.startOf_add_capacity_le hlt
    omega
  · exact .inl rfl
  · -- two chunks behind it would need a full chunk between them, for which there is no content
    refine .inr ?_
    have hcap := hreaches e hgt
    have hle := l.startOf_add_capacity_le hgt
    refine ⟨Classical.byContradiction fun hne => ?_, by omega⟩
    have hcap' := hreaches (e + 1) (by omega)
    have hbehind := l.startOf_add_capacity_le (i := e + 1) (j := i) (by omega)
    rw [startOf_succ] at hbehind
    omega

/-- The start of chunks that are bounded moves on with their numbers. -/
theorem startOf_lt (hr : l.Reaches e) (h : i < e) : l.startOf i < l.startOf e :=
  Nat.lt_of_lt_of_le (Nat.lt_add_of_pos_right (hr i h)) (l.startOf_add_capacity_le h)

theorem EndsIn.le_of_startOf_le (h : l.EndsIn e n) (hr : l.Reaches i) (hi : l.startOf i < n) :
    i ≤ e := by
  refine Nat.le_of_not_lt fun hlt => ?_
  have hcap := hr e hlt
  have hle := l.startOf_add_capacity_le hlt
  have hwithin := h.within
  unfold Within at hwithin
  omega

/-- A shorter content ends in a chunk in front, or in the same. -/
theorem EndsIn.of_le (h : l.EndsIn e n) (hle : n' ≤ n) : ∃ i ≤ e, l.EndsIn i n' := by
  obtain ⟨i, hi, hstart, hwithin⟩ : ∃ i ≤ e, l.startOf i ≤ n' ∧ l.Within i n' := by
    cases n' with
    | zero => exact ⟨0, Nat.zero_le e, Nat.le_refl 0, .inr (Nat.zero_le _)⟩
    | succ k =>
      have hbyte : l.Within e (k + 1) := h.within.imp id fun hend => Nat.le_trans hle hend
      obtain ⟨i, hi, hstart, hwithin⟩ := exists_part hbyte
      exact ⟨i, hi, Nat.le_succ_of_le hstart, hwithin⟩
  exact ⟨i, hi, h.reaches.mono hi, Nat.lt_of_le_of_lt hi h.numbered, hstart, hwithin⟩

/-- The chunk of the last byte is counted, and an empty one behind it is not. -/
theorem EndsIn.chunksFor_eq (h : l.EndsIn e n) :
    l.chunksFor n = if l.startOf e < n then e + 1 else e := by
  have hstart := h.start
  have hwithin := h.within
  unfold Within at hwithin
  cases n with
  | zero =>
    have hzero : e = 0 := by
      refine Nat.eq_zero_of_not_pos fun hpos => ?_
      have hlt := startOf_lt h.reaches hpos
      omega
    simp [chunksFor, hzero]
  | succ k =>
    by_cases hlt : l.startOf e < k + 1
    · have hchunk : l.seqnumOf? k = some e :=
        seqnumOf?_eq_some_iff.mpr ⟨h.reaches, by omega, by omega, h.numbered⟩
      rw [if_pos hlt, chunksFor, hchunk]
      rfl
    · cases e with
      | zero => simp at hlt
      | succ j =>
        have hcap := h.reaches j (Nat.lt_succ_self j)
        have hnumbered := h.numbered
        rw [startOf_succ] at hstart hlt
        have hchunk : l.seqnumOf? k = some j :=
          seqnumOf?_eq_some_iff.mpr
            ⟨h.reaches.mono (Nat.le_succ j), by omega, by omega, by omega⟩
        simp only [chunksFor, hchunk, Option.elim_some, startOf_succ, if_neg hlt]

/-- A chunk that is counted begins in front of the end. -/
theorem EndsIn.of_lt_chunksFor (h : l.EndsIn e n) (hi : i < l.chunksFor n) :
    l.Reaches i ∧ l.startOf i < n := by
  have hstart := h.start
  rw [h.chunksFor_eq] at hi
  split at hi
  · have hle : i ≤ e := Nat.le_of_lt_succ hi
    have hmono := l.startOf_mono hle
    exact ⟨h.reaches.mono hle, by omega⟩
  · exact ⟨h.reaches.mono (Nat.le_of_lt hi), Nat.lt_of_lt_of_le (startOf_lt h.reaches hi) hstart⟩

/-- The last byte of a content lies in a chunk. -/
theorem EndsIn.exists_last (h : l.EndsIn e n) (hn : 0 < n) :
    ∃ i, l.EndsIn i n ∧ l.startOf i < n := by
  have hlast : l.Within e (n - 1 + 1) := (Nat.sub_add_cancel hn).symm ▸ h.within
  obtain ⟨i, hi, hstart, hwithin⟩ := exists_part hlast
  rw [Nat.sub_add_cancel hn] at hwithin
  exact ⟨i, ⟨h.reaches.mono hi, Nat.lt_of_le_of_lt hi h.numbered, by omega, hwithin⟩, by omega⟩

theorem EndsIn.chunksFor_mono (h : l.EndsIn e n) (hle : n' ≤ n) :
    l.chunksFor n' ≤ l.chunksFor n := by
  obtain ⟨i, hi, h'⟩ := h.of_le hle
  rw [h'.chunksFor_eq, h.chunksFor_eq]
  rcases Nat.lt_or_eq_of_le hi with hlt | rfl
  · have hstart := startOf_lt h.reaches hlt
    split <;> split <;> omega
  · split <;> split <;> omega

/-- The chunks in front of one that begins inside the content or at its end are counted. -/
theorem EndsIn.le_chunksFor (h : l.EndsIn e n) (hr : l.Reaches i) (hi : l.startOf i ≤ n) :
    i ≤ l.chunksFor n := by
  rw [h.chunksFor_eq]
  rcases Nat.lt_or_eq_of_le hi with hlt | heq
  · have hle := h.le_of_startOf_le hr hlt
    split <;> omega
  · -- a chunk that begins at the end is the one behind the last byte, and counted up to there
    rcases Nat.lt_or_ge e i with hlt | hge
    · have hnext : i = e + 1 := by
        refine Classical.byContradiction fun hne => ?_
        have hbehind := startOf_lt hr (i := e + 1) (by omega)
        have hcap := hr e hlt
        have hwithin := h.within
        rw [startOf_succ] at hbehind
        unfold Within at hwithin
        omega
      have hstart := startOf_lt hr hlt
      rw [if_pos (by omega)]
      omega
    · split <;> omega

/-- A chunk behind the content is not counted. -/
theorem EndsIn.chunksFor_le (h : l.EndsIn e n) (hi : n < l.startOf i) : l.chunksFor n ≤ i := by
  have hstart := h.start
  have hlt : e < i := Nat.lt_of_not_le fun hle => by
    have hmono := l.startOf_mono hle
    omega
  rw [h.chunksFor_eq]
  split <;> omega

/-- In front of a chunk that begins at the end there are as many chunks as its number says. -/
theorem EndsIn.chunksFor_startOf (h : l.EndsIn e n) (hr : l.Reaches i) (hi : l.startOf i = n) :
    l.chunksFor n = i := by
  refine Nat.le_antisymm ?_ (h.le_chunksFor hr (Nat.le_of_eq hi))
  have hstart := h.start
  rw [h.chunksFor_eq]
  split
  · refine Nat.lt_of_not_le fun hle => ?_
    have hmono := l.startOf_mono hle
    omega
  · refine Nat.le_of_not_lt fun hlt => ?_
    have hbehind := startOf_lt h.reaches hlt
    omega

/-! ## Chunk data

The chunks in front of the last one are full, so chunk `i` stands where the layout says a chunk
`i` stands. This is all that joins the list of chunks with raw offsets. -/

/-- A chunk of a content, encrypted. -/
def streamed (l : Layout) (ink : Ink) (content : Bytes) (seqnum : Nat) : Bytes :=
  StreamEncryptor.packed ink.key (ink.nonce seqnum) (l.part content seqnum)

/-- The chunk data of a content whose chunks are streamed. -/
def ciphertext (l : Layout) (ink : Ink) (content : Bytes) : Bytes :=
  (List.range (l.chunksFor content.length)).flatMap (l.streamed ink content)

variable {ink ink' : Ink} {c c' data : Bytes}

@[simp] theorem length_streamed :
    (l.streamed ink c i).length = Salsa20.nonceSize + (l.part c i).length := by
  rw [streamed, StreamEncryptor.length_packed, ink.length_nonce]

/-- A chunk begins with its nonce. -/
theorem take_streamed : (l.streamed ink c i).take Salsa20.nonceSize = ink.nonce i := by
  rw [streamed, StreamEncryptor.packed, ← ink.length_nonce i, List.take_left]

/-- What is stored of a chunk opens to its part of the content. -/
theorem openChunk_streamed :
    StreamEncryptor.openChunk ink.key (l.streamed ink c i) = .ok (l.part c i) :=
  StreamEncryptor.openChunk_packed (ink.length_nonce i)

/-- The chunk data of a content, by the chunk that it ends in. -/
theorem EndsIn.ciphertext_eq (h : l.EndsIn e c.length) :
    l.ciphertext ink c = (List.range e).flatMap (l.streamed ink c)
      ++ if l.startOf e < c.length then l.streamed ink c e else [] := by
  rw [ciphertext, h.chunksFor_eq]
  split
  · rw [List.range_succ, List.flatMap_append, List.flatMap_singleton]
  · rw [List.append_nil]

/-- The chunk data in front of a chunk ends where the chunk begins. -/
theorem length_flatMap_streamed (ink : Ink) (hp : l.Packs Salsa20.nonceSize) (hr : l.Reaches e)
    (hstart : l.startOf e ≤ c.length) :
    l.dataOffset + ((List.range e).flatMap (l.streamed ink c)).length = l.rawStartOf e := by
  -- on the chunks in front; each of them takes what a full chunk takes
  induction e with
  | zero => simp
  | succ e ih =>
    have hcap := hr e (Nat.lt_succ_self e)
    rw [startOf_succ] at hstart
    have hfront := ih (hr.mono (Nat.le_succ e)) (by omega)
    rw [List.range_succ, List.flatMap_append, List.flatMap_singleton, List.length_append,
      length_streamed, length_part_of_le hcap hstart, rawStartOf_succ hp hcap]
    omega

theorem EndsIn.length_ciphertext (h : l.EndsIn e c.length) (ink : Ink)
    (hp : l.Packs Salsa20.nonceSize) :
    l.dataOffset + (l.ciphertext ink c).length = l.rawStartOf e
      + if l.startOf e < c.length then Salsa20.nonceSize + (c.length - l.startOf e) else 0 := by
  have hfront := length_flatMap_streamed ink hp h.reaches h.start
  rw [h.ciphertext_eq, List.length_append, ← Nat.add_assoc, hfront]
  split
  · rw [length_streamed, length_part_of_within h.within]
  · rfl

/-- **Chunk data is as long as the content and a nonce for each chunk.** -/
theorem EndsIn.length_ciphertext_eq (h : l.EndsIn e c.length) (hp : l.Packs Salsa20.nonceSize) :
    (l.ciphertext ink c).length = c.length + Salsa20.nonceSize * l.chunksFor c.length := by
  have hlength := h.length_ciphertext ink hp
  have hstart := h.start
  rw [rawStartOf_eq hp h.reaches] at hlength
  rw [h.chunksFor_eq]
  split <;> rename_i hlt
  · rw [if_pos hlt] at hlength
    rw [Nat.mul_succ]
    omega
  · rw [if_neg hlt] at hlength
    omega

/-- The same nonces make the same chunk data. -/
theorem ciphertext_congr (h : ink.AgreesUpTo ink' (l.chunksFor c.length)) :
    l.ciphertext ink' c = l.ciphertext ink c := by
  have hchunk {i : Nat} (hi : i ∈ List.range (l.chunksFor c.length)) :
      l.streamed ink' c i = l.streamed ink c i := by
    rw [streamed, streamed, h.key, h.nonce i (List.mem_range.mp hi)]
  rw [ciphertext, ciphertext, List.flatMap_def, List.flatMap_def,
    List.map_congr_left fun i hi => hchunk hi]

/-! ## Contents that grow

The chunk in which the old content ends is the only one that changes, and it changes behind its
end. Its key stream goes on from there, with the nonce that it has; if it was empty, the nonce is
written as well. -/

/-- In front of the chunk that a content ends in, a longer content has the same chunks. -/
theorem flatMap_streamed_of_prefix (ink : Ink) (h : c <+: c') (hr : l.Reaches e)
    (hstart : l.startOf e ≤ c.length) :
    (List.range e).flatMap (l.streamed ink c') = (List.range e).flatMap (l.streamed ink c) := by
  have hchunk {i : Nat} (hi : i ∈ List.range e) : l.streamed ink c' i = l.streamed ink c i := by
    have hlt := List.mem_range.mp hi
    have hinside := Nat.le_trans (l.startOf_add_capacity_le hlt) hstart
    rw [streamed, streamed, List.prefix_iff_eq_take.mp h, part_take_of_le (hr i hlt) hinside]
  rw [List.flatMap_def, List.flatMap_def, List.map_congr_left fun i hi => hchunk hi]

/-- **What is put behind a content is encrypted behind its chunk data:** with the chunk's key stream
from where it stopped, and behind a nonce when the chunk is new. -/
theorem EndsIn.ciphertext_append (h : l.EndsIn e (c ++ data).length) (ink : Ink)
    (hstart : l.startOf e ≤ c.length) (hdata : data ≠ []) :
    l.ciphertext ink (c ++ data) = l.ciphertext ink c
      ++ ((if l.startOf e < c.length then [] else ink.nonce e)
        ++ Bytes.xor data (Salsa20.keystream ink.key (ink.nonce e) (c.length - l.startOf e)
          data.length)) := by
  have hlen : (c ++ data).length = c.length + data.length := List.length_append
  have hpos := List.length_pos_iff.mpr hdata
  have hends : l.EndsIn e c.length :=
    { h with start := hstart, within := h.within.imp id fun hle => by omega }
  have hpart : l.part (c ++ data) e = l.part c e ++ data := by
    rw [part_eq_drop h.within, part_eq_drop hends.within, List.drop_append_of_le_length hstart]
  have hchunk : l.streamed ink (c ++ data) e = l.streamed ink c e
      ++ Bytes.xor data (Salsa20.keystream ink.key (ink.nonce e) (c.length - l.startOf e)
        data.length) := by
    rw [streamed, hpart, StreamEncryptor.packed_append, length_part_of_within hends.within]
    rfl
  rw [h.ciphertext_eq, hends.ciphertext_eq, if_pos (by omega), hchunk,
    flatMap_streamed_of_prefix ink (List.prefix_append c data) h.reaches hstart]
  by_cases hlt : l.startOf e < c.length
  · simp only [if_pos hlt, List.nil_append, List.append_assoc]
  · -- nothing of the chunk was stored before, not even its nonce
    have hnew : l.streamed ink c e = ink.nonce e := by
      have hnil : l.part c e = [] := by
        rw [part_eq_drop hends.within]
        exact List.drop_eq_nil_of_le (Nat.le_of_not_lt hlt)
      rw [streamed, hnil, StreamEncryptor.packed]
      simp [Bytes.xor]
    simp only [if_neg hlt, List.append_nil, hnew]

/-- **The chunk data of a content is the start of that of every longer content.** -/
theorem EndsIn.ciphertext_mono (h : l.EndsIn e c'.length) (hgrows : c <+: c') :
    l.ciphertext ink c <+: l.ciphertext ink c' := by
  obtain ⟨i, hi, hends⟩ := h.of_le hgrows.length_le
  have hfront := flatMap_streamed_of_prefix ink hgrows hends.reaches hends.start
  have hlonger {j k : Nat} (hjk : j ≤ k) :
      (List.range j).flatMap (l.streamed ink c') <+:
        (List.range k).flatMap (l.streamed ink c') := by
    obtain ⟨d, rfl⟩ := Nat.exists_eq_add_of_le hjk
    rw [List.range_add, List.flatMap_append]
    exact List.prefix_append _ _
  rw [hends.ciphertext_eq, ← hfront]
  -- a chunk that was begun is continued; one that was not begun is as good as absent
  by_cases hlt : l.startOf i < c.length
  · rw [if_pos hlt]
    have hgrown : l.part c i <+: l.part c' i := by
      rw [List.prefix_iff_eq_take.mp hgrows, part_take]
      exact List.take_prefix _ _
    obtain ⟨rest, hrest⟩ := hgrown
    have hchunk : l.streamed ink c i <+: l.streamed ink c' i := by
      rw [streamed, streamed, ← hrest, StreamEncryptor.packed_append]
      exact List.prefix_append _ _
    have hcounted : i + 1 ≤ l.chunksFor c'.length := by
      have hmono := h.chunksFor_mono hgrows.length_le
      rwa [hends.chunksFor_eq, if_pos hlt] at hmono
    refine List.IsPrefix.trans ?_ (hlonger hcounted)
    rw [List.range_succ, List.flatMap_append, List.flatMap_singleton]
    exact (List.prefix_append_right_inj _).mpr hchunk
  · rw [if_neg hlt, List.append_nil]
    refine hlonger ?_
    have hmono := h.chunksFor_mono hgrows.length_le
    rwa [hends.chunksFor_eq, if_neg hlt] at hmono

/-! ## Reading it back -/

/-- A chunk lies in the chunk data at its raw start. -/
theorem EndsIn.slice_ciphertext (h : l.EndsIn e c.length) (hp : l.Packs Salsa20.nonceSize)
    (hr : l.Reaches i) (hi : l.startOf i < c.length) :
    (l.ciphertext ink c).slice (l.rawStartOf i - l.dataOffset)
      (Salsa20.nonceSize + (l.part c i).length) = l.streamed ink c i := by
  have hcounted : i < l.chunksFor c.length := by
    have hle := h.le_of_startOf_le hr hi
    rw [h.chunksFor_eq]
    rcases Nat.lt_or_eq_of_le hle with hlt | rfl
    · split <;> omega
    · rw [if_pos hi]
      exact Nat.lt_succ_self i
  have hfront := length_flatMap_streamed ink hp hr (Nat.le_of_lt hi)
  obtain ⟨k, hk⟩ := Nat.exists_eq_add_of_lt hcounted
  have hlength : (l.streamed ink c i).length = _ := length_streamed
  have hsplit : l.ciphertext ink c = (List.range i).flatMap (l.streamed ink c)
      ++ (l.streamed ink c i
        ++ ((List.range k).map (i + 1 + ·)).flatMap (l.streamed ink c)) := by
    rw [ciphertext, hk, show i + k + 1 = i + 1 + k by omega, List.range_add, List.flatMap_append,
      List.range_succ, List.flatMap_append, List.flatMap_singleton, List.append_assoc]
  rw [hsplit, show l.rawStartOf i - l.dataOffset
    = ((List.range i).flatMap (l.streamed ink c)).length by omega, Bytes.slice, List.drop_left,
    ← hlength, List.take_left]

/-- **The size of the content can be told from that of its chunk data.** -/
theorem EndsIn.streamedSize_ciphertext (h : l.EndsIn e c.length) (hp : l.Packs Salsa20.nonceSize) :
    l.streamedSize (l.ciphertext ink c).length Salsa20.nonceSize = c.length := by
  rcases Nat.eq_zero_or_pos c.length with hzero | hpos
  · have hnil : l.ciphertext ink c = [] := by simp [ciphertext, hzero, chunksFor]
    rw [hnil, hzero]
    rfl
  obtain ⟨i, hlast, hlt⟩ := h.exists_last hpos
  have hlength := hlast.length_ciphertext ink hp
  rw [if_pos hlt] at hlength
  have hct : (l.ciphertext ink c).length
      = l.rawStartOf i - l.dataOffset + Salsa20.nonceSize + (c.length - l.startOf i) := by
    have hbefore := l.dataOffset_le_rawStartOf i
    omega
  rw [hct, streamedSize_of_last hp hlast.reaches hlt hlast.within]

end Layout

end Vault
