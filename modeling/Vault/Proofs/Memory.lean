import Vault.Proofs.Pool
import Vault.Proofs.Stored

/-!
# `Vault/Proofs/Memory.lean` — what the chunks in memory say about the content

Two contents belong to an open container: the one that its file holds, and the one that its user
sees. They differ where chunks in memory were changed and not yet written. **A chunk in memory has
the part of the seen content; where no dirty chunk is in memory, the two contents agree**
(`Recalls`). Every step of a container is one of a few moves on this picture: a chunk is written to
the file, enters memory, leaves it, or is changed there.

A dirty chunk that leaves memory without being written takes its part of the seen content with it;
the part falls back to what the file holds (`Recalls.leave`).

The lemmas take the chunk they are about from the front of the list; `Recalls.perm` brings it there.
-/

set_option autoImplicit false

namespace Vault

/-- A chunk as it is when it was just written to the file. -/
def Chunk.stored (x : Chunk) : Chunk :=
  { x with ciphertextSize := x.content.length + ChunkCipher.overhead, dirty := false }

@[simp] theorem Chunk.seqnum_stored (x : Chunk) : x.stored.seqnum = x.seqnum := rfl
@[simp] theorem Chunk.content_stored (x : Chunk) : x.stored.content = x.content := rfl
@[simp] theorem Chunk.offset_stored (x : Chunk) : x.stored.offset = x.offset := rfl
@[simp] theorem Chunk.maxSize_stored (x : Chunk) : x.stored.maxSize = x.maxSize := rfl
@[simp] theorem Chunk.dirty_stored (x : Chunk) : x.stored.dirty = false := rfl

namespace Metadata

/-- A chunk in memory has the part of the content and knows what is stored of it. -/
structure Mirrors (m : Metadata) (ciphertextSize last : Nat) (content : Bytes) (x : Chunk) :
    Prop where
  le : x.seqnum ≤ last
  content : x.content = m.layout.part content x.seqnum
  maxSize : x.maxSize = m.layout.capacity x.seqnum
  ciphertextSize : x.ciphertextSize = m.storedSize ciphertextSize last x.seqnum
  /-- Only a chunk with data in it has to be written. -/
  filled : x.dirty = true → x.content ≠ []

/-- How the content that is seen, the content of the file and the chunks in memory go together. -/
structure Recalls (m : Metadata) (ciphertextSize last : Nat) (seen stored : Bytes)
    (chunks : List Chunk) : Prop where
  mirrors : ∀ x ∈ chunks, m.Mirrors ciphertextSize last seen x
  distinct : (chunks.map (·.seqnum)).Nodup
  /-- Only dirty chunks tell the two contents apart. -/
  clean : ∀ i ≤ last, (∀ x ∈ chunks, x.seqnum = i → x.dirty = false) →
    m.layout.part seen i = m.layout.part stored i
  reaches : m.layout.Reaches last
  start : m.layout.startOf last ≤ stored.length
  grown : stored.length ≤ seen.length
  within : m.layout.Within last seen.length

variable {m : Metadata} {ct ct' e i : Nat} {c d data : Bytes} {x y : Chunk} {xs ys : List Chunk}

namespace Recalls

theorem perm (h : m.Recalls ct e c d xs) (hp : xs.Perm ys) : m.Recalls ct e c d ys :=
  { h with
    mirrors := fun z hz => h.mirrors z (hp.mem_iff.mpr hz)
    distinct := (hp.map _).nodup_iff.mp h.distinct
    clean := fun j hj hall => h.clean j hj fun z hz => hall z (hp.mem_iff.mp hz) }

theorem startOf_le_seen (h : m.Recalls ct e c d xs) (hi : i ≤ e) :
    m.layout.startOf i ≤ c.length :=
  Nat.le_trans (m.layout.startOf_mono hi) (Nat.le_trans h.start h.grown)

/-- In front of the last chunk everything is full. -/
theorem length_content_of_lt (h : m.Recalls ct e c d (x :: xs)) (hlt : x.seqnum < e) :
    x.content.length = m.layout.capacity x.seqnum := by
  rw [(h.mirrors x List.mem_cons_self).content]
  exact Layout.length_part_of_le (h.reaches _ hlt)
    (Nat.le_trans (m.layout.startOf_add_capacity_le hlt) (h.startOf_le_seen (Nat.le_refl e)))

section

variable {raw : Bytes}

/-- A chunk that would reach beyond the chunk data if it was packed has more content than is stored:
only of the last chunk there can be more. -/
theorem length_lt (h : m.Recalls ct e c d (x :: xs)) (hs : m.Stores raw ct e d)
    (hfilled : x.content ≠ [])
    (hlt : m.dataOffset + ct
      < m.layout.rawStartOf x.seqnum + (x.content.length + ChunkCipher.overhead)) :
    d.length < c.length := by
  have hx := h.mirrors x List.mem_cons_self
  have hstart := hs.start
  have hpos := List.length_pos_iff.mpr hfilled
  -- in front of the last chunk all is stored in full, so such a chunk cannot reach beyond the data
  rcases Nat.lt_or_eq_of_le hx.le with hbefore | hlast
  · have hraw := hs.rawStart_add_storedSize_le hx.le
    have hcontent := h.length_content_of_lt hbefore
    rw [Metadata.storedSize_of_lt hbefore] at hraw
    omega
  · -- the last chunk may be stored in part, and what it has more than that is not in the file
    have hraw := hs.rawStart_last_le
    have hstored := hs.storedSize_eq (Nat.le_refl e)
    have hcontent := congrArg List.length hx.content
    rw [Metadata.storedSize_last, ← List.length_eq_zero_iff, hs.length_part_last] at hstored
    rw [hlast, Layout.length_part_of_within h.within] at hcontent
    rw [hlast] at hlt
    omega

/-- What is seen is at least as long as what is stored, so no chunk gets shorter. -/
theorem ciphertextSize_le (h : m.Recalls ct e c d (x :: xs)) (hs : m.Stores raw ct e d) :
    x.ciphertextSize ≤ x.content.length + ChunkCipher.overhead := by
  have hx := h.mirrors x List.mem_cons_self
  rw [hx.ciphertextSize, hx.content]
  rcases hs.storedSize_eq hx.le with ⟨h0, -⟩ | hfull
  · omega
  · have hgrown := h.grown
    rw [hfull, Layout.length_part, Layout.length_part]
    split <;> omega

variable {n : Nat}

/-- Only the last chunk can move the end of the chunk data. -/
theorem end_eq (h : m.Recalls ct e c d (x :: xs)) (hs : m.Stores raw ct e d)
    (hn : n = x.content.length + ChunkCipher.overhead) (hct : ct' = ct - x.ciphertextSize + n) :
    m.dataOffset + ct' =
      if x.seqnum < e then m.dataOffset + ct else m.layout.rawStartOf e + n := by
  have hx := h.mirrors x List.mem_cons_self
  have hraw := hs.rawStart_add_storedSize_le hx.le
  have hoffset := m.layout.dataOffset_le_rawStartOf x.seqnum
  rw [Metadata.dataOffset_layout] at hoffset
  rw [← hx.ciphertextSize] at hraw
  split
  · -- a full chunk is packed to the size that it had, so the end of the data stays
    next hlt =>
    have hsame : x.ciphertextSize = n := by
      rw [hx.ciphertextSize, Metadata.storedSize_of_lt hlt, hn, h.length_content_of_lt hlt]
    omega
  · next hge =>
    have heq : x.seqnum = e := Nat.le_antisymm hx.le (Nat.le_of_not_lt hge)
    have hlast := hs.rawStart_last_le
    have hold := hx.ciphertextSize
    rw [heq, Metadata.storedSize_last] at hold
    rw [heq] at hoffset
    omega

/-- A chunk that fits in front of the end leaves it where it is, and stores nothing more. -/
theorem ends_unchanged (h : m.Recalls ct e c d (x :: xs)) (hs : m.Stores raw ct e d)
    (hn : n = x.content.length + ChunkCipher.overhead) (hct : ct' = ct - x.ciphertextSize + n)
    (hle : m.layout.rawStartOf x.seqnum + n ≤ m.dataOffset + ct) :
    ct' = ct ∧ (m.layout.withPart d x.seqnum x.content).length = d.length := by
  have hx := h.mirrors x List.mem_cons_self
  have hend := h.end_eq hs hn hct
  have hgrows := h.ciphertextSize_le hs
  have hstart := hs.start
  rw [Layout.length_withPart]
  rcases Nat.lt_or_eq_of_le hx.le with hbefore | hlast
  · -- nothing of such a chunk lies behind the start of the last one, which the file reaches
    have hbehind := m.layout.startOf_add_capacity_le hbefore
    have hcontent := h.length_content_of_lt hbefore
    rw [if_pos hbefore] at hend
    exact ⟨by omega, Nat.max_eq_left (by omega)⟩
  · -- the last chunk ends where the data ends, so to fit it can only have kept its size
    have hstored := hs.storedSize_eq hx.le
    rw [← hx.ciphertextSize, hlast, hs.length_part_last] at hstored
    rw [if_neg (by omega)] at hend
    rw [hlast] at hle ⊢
    exact ⟨by omega, Nat.max_eq_left (by omega)⟩

end

theorem not_mem_tail (h : m.Recalls ct e c d (x :: xs)) : ∀ z ∈ xs, z.seqnum ≠ x.seqnum := by
  intro z hz heq
  have hnodup := h.distinct
  rw [List.map_cons, List.nodup_cons] at hnodup
  exact hnodup.1 (List.mem_map.mpr ⟨z, hz, heq⟩)

/-- **With nothing unwritten in memory the file holds what is seen.** -/
theorem eq_of_clean (h : m.Recalls ct e c d xs) (hclean : ∀ z ∈ xs, z.dirty = false)
    (hd : m.layout.Within e d.length) : c = d := by
  have hparts (i : Nat) (hi : i ≤ e) : m.layout.part c i = m.layout.part d i :=
    h.clean i hi fun z hz _ => hclean z hz
  have hlast := congrArg List.length (hparts e (Nat.le_refl e))
  rw [Layout.length_part_of_within h.within, Layout.length_part_of_within hd] at hlast
  have hstart := h.start
  have hgrown := h.grown
  exact Layout.ext_parts (by omega) h.within hparts

/-- As long as the last chunk is not dirty, no content is missing from the file. -/
theorem length_eq (h : m.Recalls ct e c d xs)
    (hclean : ∀ z ∈ xs, z.seqnum = e → z.dirty = false) (hd : m.layout.Within e d.length) :
    c.length = d.length := by
  have hlast := congrArg List.length (h.clean e (Nat.le_refl e) hclean)
  rw [Layout.length_part_of_within h.within, Layout.length_part_of_within hd] at hlast
  have hstart := h.start
  have hgrown := h.grown
  omega

/-- With nothing in memory, what is seen is what is stored. -/
theorem of_stored (h : m.Stores d ct e c) : m.Recalls ct e c c [] where
  mirrors := fun _ hz => absurd hz List.not_mem_nil
  distinct := List.nodup_nil
  clean := fun _ _ _ => rfl
  reaches := h.reaches
  start := h.start
  grown := Nat.le_refl _
  within := h.within

/-! ## Entering memory -/

/-- A chunk enters memory as it is seen. -/
theorem enter (h : m.Recalls ct e c d xs) (hy : m.Mirrors ct e c y) (hclean : y.dirty = false)
    (hnew : ∀ z ∈ xs, z.seqnum ≠ y.seqnum) : m.Recalls ct e c d (y :: xs) :=
  { h with
    mirrors := fun z hz => by
      rcases List.mem_cons.mp hz with rfl | hz
      · exact hy
      · exact h.mirrors z hz
    distinct := by
      rw [List.map_cons, List.nodup_cons]
      refine ⟨fun hmem => ?_, h.distinct⟩
      obtain ⟨z, hz, heq⟩ := List.mem_map.mp hmem
      exact hnew z hz heq
    clean := fun j hj hall => h.clean j hj fun z hz => hall z (List.mem_cons_of_mem y hz) }

/-- What is loaded from the file is what is seen, when the chunk was not in memory. -/
theorem part_eq_of_absent (h : m.Recalls ct e c d xs) (hi : i ≤ e)
    (habsent : ∀ z ∈ xs, z.seqnum ≠ i) : m.layout.part c i = m.layout.part d i :=
  h.clean i hi fun z hz heq => absurd heq (habsent z hz)

/-! ## Leaving memory

Of a clean chunk nothing is lost. A dirty one that is forgotten leaves behind what the file holds
of it, which is well defined only in front of the last chunk: there every chunk is full, in the
file as in what is seen. -/

theorem leave_clean (h : m.Recalls ct e c d (x :: xs)) (hx : x.dirty = false) :
    m.Recalls ct e c d xs :=
  { h with
    mirrors := fun z hz => h.mirrors z (List.mem_cons_of_mem x hz)
    distinct := by
      have hnodup := h.distinct
      rw [List.map_cons, List.nodup_cons] at hnodup
      exact hnodup.2
    clean := fun j hj hall => h.clean j hj fun z hz => by
      rcases List.mem_cons.mp hz with rfl | hz
      · exact fun _ => hx
      · exact hall z hz }

/-- Where nothing is dirty, chunks may leave memory as they like. -/
theorem forget (h : m.Recalls ct e c d xs) (hclean : ∀ z ∈ xs, z.dirty = false)
    (hsub : ys.Sublist xs) : m.Recalls ct e c d ys :=
  { h with
    mirrors := fun z hz => h.mirrors z (hsub.subset hz)
    distinct := h.distinct.sublist (hsub.map _)
    clean := fun j hj _ => h.clean j hj fun z hz _ => hclean z hz }

/-- **A chunk that leaves memory unwritten takes its changes with it** and nothing else. -/
theorem leave (h : m.Recalls ct e c d (x :: xs)) (hx : x.dirty = true → x.seqnum ≠ e) :
    ∃ c', m.Recalls ct e c' d xs ∧ m.layout.AgreeBut e (Chunk.Unwritten [x]) c c' := by
  cases hdirty : x.dirty with
  | false => exact ⟨c, h.leave_clean hdirty, Layout.AgreeBut.refl _ _ _ _⟩
  | true =>
    -- the content that is seen afterwards has the file's part in the place of the chunk
    have hle := (h.mirrors x List.mem_cons_self).le
    have hlt : x.seqnum < e := Nat.lt_of_le_of_ne hle (hx hdirty)
    have hcap := h.reaches x.seqnum hlt
    have hends := Nat.le_trans (m.layout.startOf_add_capacity_le hlt) h.start
    have hlen : (m.layout.part d x.seqnum).length = m.layout.capacity x.seqnum :=
      Layout.length_part_of_le hcap hends
    have hstart := h.startOf_le_seen hle
    have hgrown := h.grown
    have hwithin : m.layout.Within x.seqnum
        (m.layout.startOf x.seqnum + (m.layout.part d x.seqnum).length) :=
      .inr (by omega)
    have hlen' : (m.layout.withPart c x.seqnum (m.layout.part d x.seqnum)).length = c.length := by
      rw [Layout.length_withPart]
      omega
    have hother {j : Nat} (hj : j ≤ e) (hne : j ≠ x.seqnum) :
        m.layout.part (m.layout.withPart c x.seqnum (m.layout.part d x.seqnum)) j
          = m.layout.part c j :=
      Layout.part_withPart_of_ne hstart hwithin hne (h.reaches.mono hle) (h.reaches.mono hj)
    have hself : m.layout.part (m.layout.withPart c x.seqnum (m.layout.part d x.seqnum)) x.seqnum
        = m.layout.part d x.seqnum := by
      refine Layout.part_withPart_self hstart hwithin ?_
      rw [hlen, Layout.length_part, if_neg (Nat.ne_of_gt hcap)]
      exact Nat.min_le_left _ _
    refine ⟨_, ?_, hlen', fun j hj hne => ⟨x, List.mem_cons_self, ?_, hdirty⟩⟩
    · refine
        { mirrors := fun z hz => ?_, distinct := ?_, clean := fun j hj hall => ?_
          reaches := h.reaches, start := h.start, grown := by omega
          within := by rw [hlen']; exact h.within }
      · have hz' := h.mirrors z (List.mem_cons_of_mem x hz)
        exact { hz' with content := by rw [hz'.content, hother hz'.le (h.not_mem_tail z hz)] }
      · have hnodup := h.distinct
        rw [List.map_cons, List.nodup_cons] at hnodup
        exact hnodup.2
      · -- of the chunk that left, the file now tells what is seen; the others are as they were
        by_cases hjx : j = x.seqnum
        · rw [hjx, hself]
        · rw [hother hj hjx]
          refine h.clean j hj fun z hz heq => ?_
          rcases List.mem_cons.mp hz with rfl | hz
          · exact absurd heq.symm hjx
          · exact hall z hz heq
    · exact Classical.not_not.mp fun hjx => hne (hother hj fun heq => hjx heq.symm)

/-! ## Changes in memory and in the file -/

/-- Moving about in a chunk changes nothing. -/
theorem place (h : m.Recalls ct e c d (x :: xs)) (offset : Nat) :
    m.Recalls ct e c d ({ x with offset } :: xs) :=
  { h with
    mirrors := fun z hz => by
      rcases List.mem_cons.mp hz with rfl | hz
      · exact { h.mirrors x List.mem_cons_self with }
      · exact h.mirrors z (List.mem_cons_of_mem x hz)
    distinct := h.distinct
    clean := fun j hj hall => h.clean j hj fun z hz => by
      rcases List.mem_cons.mp hz with rfl | hz
      · exact hall { z with offset } List.mem_cons_self
      · exact hall z (List.mem_cons_of_mem _ hz) }

/-- **Writing a chunk to the file** brings the file up to what is seen, as far as that chunk goes.
-/
theorem write_back (h : m.Recalls ct e c d (x :: xs))
    (hsize : m.storedSize ct' e x.seqnum = x.content.length + ChunkCipher.overhead)
    (hother : ∀ i ≤ e, i ≠ x.seqnum → m.storedSize ct' e i = m.storedSize ct e i) :
    m.Recalls ct' e c (m.layout.withPart d x.seqnum x.content) (x.stored :: xs) := by
  have hx := h.mirrors x List.mem_cons_self
  have hstartLast := h.start
  have hgrown := h.grown
  have hstart : m.layout.startOf x.seqnum ≤ d.length :=
    Nat.le_trans (m.layout.startOf_mono hx.le) h.start
  have hcontent := hx.content
  have hlen : x.content.length ≤ c.length - m.layout.startOf x.seqnum := by
    rw [hcontent, Layout.length_part]
    split <;> omega
  have hwithin : m.layout.Within x.seqnum (m.layout.startOf x.seqnum + x.content.length) := by
    rw [hcontent, Layout.length_part]
    unfold Layout.Within
    split <;> omega
  have hlen' : (m.layout.withPart d x.seqnum x.content).length
      = max d.length (m.layout.startOf x.seqnum + x.content.length) := Layout.length_withPart
  have hself : m.layout.part (m.layout.withPart d x.seqnum x.content) x.seqnum = x.content := by
    refine Layout.part_withPart_self hstart hwithin ?_
    rw [hcontent, Layout.length_part, Layout.length_part]
    split <;> omega
  refine
    { mirrors := fun z hz => ?_, distinct := h.distinct, clean := fun j hj hall => ?_
      reaches := h.reaches, start := by omega, grown := by omega, within := h.within }
  · rcases List.mem_cons.mp hz with rfl | hz
    · exact { hx with ciphertextSize := hsize.symm, filled := by simp }
    · have hz' := h.mirrors z (List.mem_cons_of_mem x hz)
      exact { hz' with
        ciphertextSize := by
          rw [hz'.ciphertextSize, hother z.seqnum hz'.le (h.not_mem_tail z hz)] }
  · -- the chunk just written agrees by what was written, every other one as it did before
    by_cases hjx : j = x.seqnum
    · rw [hjx, hself, hcontent]
    · rw [withPart_of_ne hjx hj]
      refine h.clean j hj fun z hz heq => ?_
      rcases List.mem_cons.mp hz with rfl | hz
      · exact absurd heq.symm hjx
      · exact hall z (List.mem_cons_of_mem _ hz) heq
where
  withPart_of_ne {j : Nat} (hjx : j ≠ x.seqnum) (hj : j ≤ e) :
      m.layout.part (m.layout.withPart d x.seqnum x.content) j = m.layout.part d j := by
    have hx := h.mirrors x List.mem_cons_self
    refine Layout.part_withPart_of_ne (Nat.le_trans (m.layout.startOf_mono hx.le) h.start) ?_ hjx
      (h.reaches.mono hx.le) (h.reaches.mono hj)
    have hgrown := h.grown
    have hstart := h.startOf_le_seen hx.le
    rw [hx.content, Layout.length_part]
    unfold Layout.Within
    split <;> omega

/-- **Writing into a chunk** changes the content that is seen, and nothing in the file. -/
theorem write (h : m.Recalls ct e c d (x :: xs)) {off : Nat} (hoff : off ≤ x.content.length)
    (hwithin : m.layout.Within x.seqnum (m.layout.startOf x.seqnum + off + data.length))
    (hseqnum : y.seqnum = x.seqnum) (hcontent : y.content = x.content.overlay off data)
    (hmax : y.maxSize = x.maxSize) (hsize : y.ciphertextSize = x.ciphertextSize)
    (hdata : data ≠ []) (hdirty : y.dirty = true) :
    m.Recalls ct e (c.overlay (m.layout.startOf x.seqnum + off) data) d (y :: xs) := by
  have hx := h.mirrors x List.mem_cons_self
  have hstart := h.startOf_le_seen hx.le
  have hstartLast := h.start
  have hgrown := h.grown
  have hplace : m.layout.startOf x.seqnum + off ≤ c.length := by
    have hlen := congrArg List.length hx.content
    rw [Layout.length_part] at hlen
    split at hlen <;> omega
  have hother {j : Nat} (hj : j ≤ e) (hne : j ≠ x.seqnum) :
      m.layout.part (c.overlay (m.layout.startOf x.seqnum + off) data) j = m.layout.part c j :=
    Layout.part_overlay_of_ne (Nat.le_add_right _ _) hplace hwithin hne (h.reaches.mono hx.le)
      (h.reaches.mono hj)
  have hlen' := Bytes.length_overlay c (m.layout.startOf x.seqnum + off) data
  refine
    { mirrors := fun z hz => ?_, distinct := ?_, clean := fun j hj hall => ?_
      reaches := h.reaches, start := h.start, grown := by omega, within := ?_ }
  · rcases List.mem_cons.mp hz with rfl | hz
    · refine ⟨hseqnum ▸ hx.le, ?_, hmax.trans (hseqnum ▸ hx.maxSize),
        hsize.trans (hseqnum ▸ hx.ciphertextSize), fun _ hnil => ?_⟩
      · rw [hcontent, hseqnum, Layout.part_overlay_self (Nat.le_add_right _ _) hplace hwithin,
          Nat.add_sub_cancel_left, hx.content]
      · have hlen := congrArg List.length (hcontent.symm.trans hnil)
        have hpos := List.length_pos_iff.mpr hdata
        rw [Bytes.length_overlay, List.length_nil] at hlen
        omega
    · have hz' := h.mirrors z (List.mem_cons_of_mem x hz)
      exact { hz' with content := by rw [hz'.content, hother hz'.le (h.not_mem_tail z hz)] }
  · have hnodup := h.distinct
    rw [List.map_cons] at hnodup ⊢
    rwa [hseqnum]
  · -- the chunk is dirty now, so it is not among those that the claim about clean ones is for
    have hjx : j ≠ x.seqnum := by
      intro heq
      have hbad := hall y List.mem_cons_self (hseqnum.trans heq.symm)
      rw [hdirty] at hbad
      exact absurd hbad (by simp)
    rw [hother hj hjx]
    refine h.clean j hj fun z hz heq => ?_
    rcases List.mem_cons.mp hz with rfl | hz
    · exact absurd heq.symm hjx
    · exact hall z (List.mem_cons_of_mem y hz) heq
  · rw [hlen']
    rcases Nat.lt_or_eq_of_le hx.le with hlt | heq
    · have hends := m.layout.startOf_add_capacity_le hlt
      have hcap := h.reaches x.seqnum hlt
      have hle : m.layout.startOf x.seqnum + off + data.length ≤ c.length := by
        unfold Layout.Within at hwithin
        omega
      rw [Nat.max_eq_left hle]
      exact h.within
    · have hlast := h.within
      rw [heq] at hwithin ⊢
      unfold Layout.Within at hlast hwithin ⊢
      omega

/-- Behind a last chunk that is full and stored, an empty one can be counted as the last. -/
theorem advance (h : m.Recalls ct e c d xs) (hcap : 0 < m.layout.capacity e)
    (hfull : c.length = m.layout.startOf e + m.layout.capacity e) (hd : d.length = c.length)
    (hsize : m.storedSize ct e e = m.layout.capacity e + ChunkCipher.overhead) :
    m.Recalls ct (e + 1) c d xs := by
  have hstart : m.layout.startOf (e + 1) = c.length := by rw [Layout.startOf_succ, hfull]
  refine
    { mirrors := fun z hz => ?_, distinct := h.distinct, clean := fun j hj hall => ?_
      reaches := h.reaches.succ hcap, start := by omega, grown := h.grown
      within := ?_ }
  · -- the chunk that was the last is stored in full, as every chunk in front of the last one is
    have hz' := h.mirrors z hz
    refine { hz' with le := Nat.le_succ_of_le hz'.le, ciphertextSize := ?_ }
    rw [hz'.ciphertextSize, storedSize_of_lt (Nat.lt_succ_of_le hz'.le)]
    rcases Nat.lt_or_eq_of_le hz'.le with hlt | heq
    · rw [storedSize_of_lt hlt]
    · rw [heq, hsize]
  · -- of the new last chunk neither content has anything
    rcases Nat.lt_or_eq_of_le hj with hlt | rfl
    · exact h.clean j (Nat.le_of_lt_succ hlt) hall
    · have hnil {b : Bytes} (hb : b.length = c.length) : m.layout.part b (e + 1) = [] := by
        apply List.eq_nil_of_length_eq_zero
        rw [Layout.length_part, hstart]
        split <;> omega
      rw [hnil rfl, hnil hd]
  · unfold Layout.Within
    omega

end Recalls

end Metadata

end Vault
