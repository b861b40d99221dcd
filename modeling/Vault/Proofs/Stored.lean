import Vault.Proofs.Metadata
import Vault.Proofs.Parts
import Vault.Proofs.Sealing

/-!
# `Vault/Proofs/Stored.lean` — a content in a raw file

What it means for the bytes of a raw file to hold a content: the start of the header and the
descriptor are those of the container, and **every chunk up to the last one lies at its raw start,
packed, and opens to its part of the content.** All chunks but the last are full. Of the last one
there may be nothing in the file, if its part is empty.

The sizes that the header claims are no part of this, because they are written late; neither is
what stands behind the chunk data.
-/

set_option autoImplicit false

namespace Vault

namespace Layout

/-- The bytes that a chunk takes in a file whose last chunk is `last`. -/
def storedSize (l : Layout) (overhead ciphertextSize last seqnum : Nat) : Nat :=
  if seqnum < last then l.capacity seqnum + overhead
  else l.dataOffset + ciphertextSize - l.rawStartOf seqnum

end Layout

namespace Metadata

/-- The cipher of the container's chunks. -/
def cipher (m : Metadata) : ChunkCipher := m.keys.chunk

/-- The bytes that a chunk takes in a file of this container. -/
def storedSize (m : Metadata) (ciphertextSize last seqnum : Nat) : Nat :=
  m.layout.storedSize ChunkCipher.overhead ciphertextSize last seqnum

/-- What is stored of a chunk. -/
def chunkAt (m : Metadata) (raw : Bytes) (ciphertextSize last seqnum : Nat) : Bytes :=
  raw.slice (m.layout.rawStartOf seqnum) (m.storedSize ciphertextSize last seqnum)

/-- A raw file holds a content in sealed chunks, of which `last` is the last one. -/
structure Stores (m : Metadata) (raw : Bytes) (ciphertextSize last : Nat) (content : Bytes) :
    Prop where
  sealed : m.streaming = false
  head : raw.take 6 = m.head
  descriptor : raw.slice Header.size m.descriptor.length = m.descriptor
  /-- The last chunk begins somewhere, and has a number. -/
  reaches : m.layout.Reaches last
  numbered : last < seqnumLimit
  /-- The content ends in the last chunk. -/
  start : m.layout.startOf last ≤ content.length
  within : m.layout.Within last content.length
  /-- Chunk data ends behind the last chunk, of which nothing is stored or the packed form. -/
  extent :
    (m.dataOffset + ciphertextSize = m.layout.rawStartOf last ∧
        content.length = m.layout.startOf last) ∨
      (m.dataOffset + ciphertextSize =
          m.layout.rawStartOf last + ((m.layout.part content last).length + ChunkCipher.overhead) ∧
        (m.layout.startOf last < content.length ∨ last = 0))
  present : m.dataOffset + ciphertextSize ≤ raw.length
  /-- What is stored of a chunk opens to its part. -/
  opens : ∀ i ≤ last, 0 < m.storedSize ciphertextSize last i →
    m.cipher.unpack (raw.slice (m.layout.rawStartOf i) (m.storedSize ciphertextSize last i)) i =
      .ok (m.layout.part content i)

variable {m : Metadata} {raw raw' d plain packed : Bytes} {ct ct' e i : Nat}

theorem packs_of_sealed (h : m.streaming = false) : m.layout.Packs ChunkCipher.overhead := by
  have hp := m.packs_layout
  rwa [show m.overhead = ChunkCipher.overhead by simp [overhead, h]] at hp

theorem storedSize_of_lt (h : i < e) :
    m.storedSize ct e i = m.layout.capacity i + ChunkCipher.overhead := by
  simp [storedSize, Layout.storedSize, h]

theorem storedSize_last : m.storedSize ct e e = m.dataOffset + ct - m.layout.rawStartOf e := by
  simp [storedSize, Layout.storedSize]

namespace Stores

theorem packs (h : m.Stores raw ct e d) : m.layout.Packs ChunkCipher.overhead :=
  packs_of_sealed h.sealed

theorem rawStart_last_le (h : m.Stores raw ct e d) :
    m.layout.rawStartOf e ≤ m.dataOffset + ct := by
  rcases h.extent with ⟨heq, -⟩ | ⟨heq, -⟩ <;> omega

/-- What is stored of a chunk lies inside the chunk data. -/
theorem rawStart_add_storedSize_le (h : m.Stores raw ct e d) (hi : i ≤ e) :
    m.layout.rawStartOf i + m.storedSize ct e i ≤ m.dataOffset + ct := by
  have hlast := h.rawStart_last_le
  rcases Nat.lt_or_eq_of_le hi with hlt | rfl
  · rw [storedSize_of_lt hlt]
    exact Nat.le_trans (Layout.rawStartOf_add_le h.packs h.reaches hlt) hlast
  · rw [storedSize_last]
    omega

/-- The part of a chunk in front of the last one is full. -/
theorem length_part_of_lt (h : m.Stores raw ct e d) (hi : i < e) :
    (m.layout.part d i).length = m.layout.capacity i :=
  Layout.length_part_of_le (h.reaches i hi)
    (Nat.le_trans (m.layout.startOf_add_capacity_le hi) h.start)

theorem length_part_last (h : m.Stores raw ct e d) :
    (m.layout.part d e).length = d.length - m.layout.startOf e :=
  Layout.length_part_of_within h.within

/-- Of every chunk there is stored nothing, when its part is empty, or the packed part. -/
theorem storedSize_eq (h : m.Stores raw ct e d) (hi : i ≤ e) :
    (m.storedSize ct e i = 0 ∧ m.layout.part d i = []) ∨
      m.storedSize ct e i = (m.layout.part d i).length + ChunkCipher.overhead := by
  rcases Nat.lt_or_eq_of_le hi with hlt | rfl
  · exact .inr (by rw [storedSize_of_lt hlt, h.length_part_of_lt hlt])
  · have hlen := h.length_part_last
    rw [storedSize_last]
    -- only of the last chunk there may be nothing
    rcases h.extent with ⟨heq, hempty⟩ | ⟨heq, -⟩
    · exact .inl ⟨by omega, List.eq_nil_of_length_eq_zero (by omega)⟩
    · exact .inr (by omega)

/-! ## Changes that the content does not see

Header sizes are not looked at, and nothing behind the chunk data is. What is left to show each
time is that the pieces that are looked at lie somewhere else. -/

/-- Only the first bytes count, up to the end of the chunk data. -/
theorem of_take_eq (h : m.Stores raw ct e d) (hlen : m.dataOffset + ct ≤ raw'.length)
    (htake : raw'.take (m.dataOffset + ct) = raw.take (m.dataOffset + ct)) :
    m.Stores raw' ct e d := by
  -- every piece that is looked at ends in front of the end of the chunk data
  have hslice {a n : Nat} (hn : a + n ≤ m.dataOffset + ct) : raw'.slice a n = raw.slice a n := by
    rw [← Bytes.slice_take hn, htake, Bytes.slice_take hn]
  have hdata : Header.size + m.descriptor.length = m.dataOffset := rfl
  have hsize : Header.size = 22 := rfl
  refine { h with present := hlen, head := ?head, descriptor := ?descriptor, opens := ?opens }
  case head =>
    have hfirst := hslice (a := 0) (n := 6) (by omega)
    simp only [Bytes.slice, List.drop_zero] at hfirst
    rw [hfirst, h.head]
  case descriptor => rw [hslice (by omega), h.descriptor]
  case opens =>
    intro i hi hpos
    rw [hslice (h.rawStart_add_storedSize_le hi), h.opens i hi hpos]

/-- Cutting or extending a file behind the chunk data does not touch the content. -/
theorem resize (h : m.Stores raw ct e d) {n : Nat} (hn : m.dataOffset + ct ≤ n) :
    m.Stores (raw.resize n) ct e d := by
  refine h.of_take_eq (by simpa using hn) ?_
  apply List.ext_getElem?
  intro k
  have hpresent := h.present
  simp only [List.getElem?_take, Bytes.getElem?_resize]
  grind

/-- Writing a size into the header does not touch the content. -/
theorem overlay_size (h : m.Stores raw ct e d) {at_ : Nat} (h6 : 6 ≤ at_)
    (hend : at_ + packed.length ≤ Header.size) : m.Stores (raw.overlay at_ packed) ct e d := by
  have hdata : Header.size + m.descriptor.length = m.dataOffset := rfl
  have hpresent := h.present
  refine
    { h with present := ?present, head := ?head, descriptor := ?descriptor, opens := ?opens }
  case present =>
    rw [Bytes.length_overlay]
    omega
  case head => rw [Bytes.take_overlay h6 (by omega), h.head]
  case descriptor => rw [Bytes.slice_overlay_of_ge hend, h.descriptor]
  case opens =>
    intro i hi hpos
    have hle := m.layout.dataOffset_le_rawStartOf i
    rw [dataOffset_layout] at hle
    rw [Bytes.slice_overlay_of_ge (by omega), h.opens i hi hpos]

theorem rawStart_le_length (h : m.Stores raw ct e d) (hi : i ≤ e) :
    m.layout.rawStartOf i ≤ raw.length :=
  Nat.le_trans (m.layout.rawStartOf_mono hi) (Nat.le_trans h.rawStart_last_le h.present)

/-! ## Writing chunks

A packed chunk goes to the raw start of its number. The chunks in front end there, and the chunks
behind start after it, if it is as long as the one whose place it takes; the last chunk has none
behind it and may grow. -/

/-- What is written to the place of a chunk lies behind the metadata. -/
theorem metadata_overlay (h : m.Stores raw ct e d) (hi : i ≤ e) (packed : Bytes) :
    (raw.overlay (m.layout.rawStartOf i) packed).take 6 = m.head ∧
      (raw.overlay (m.layout.rawStartOf i) packed).slice Header.size m.descriptor.length
        = m.descriptor := by
  have hoffset := m.layout.dataOffset_le_rawStartOf i
  rw [dataOffset_layout] at hoffset
  have hdata : Header.size + m.descriptor.length = m.dataOffset := rfl
  have hsize : Header.size = 22 := rfl
  have hthere := h.rawStart_le_length hi
  constructor
  · rw [Bytes.take_overlay (by omega) hthere, h.head]
  · rw [Bytes.slice_overlay_of_le (by omega) hthere, h.descriptor]

/-- A chunk in front of the place that is written to ends before it. -/
theorem slice_overlay_of_lt (h : m.Stores raw ct e d) {j : Nat} (hi : i ≤ e) (hj : j < i) :
    (raw.overlay (m.layout.rawStartOf i) packed).slice (m.layout.rawStartOf j)
        (m.storedSize ct e j)
      = raw.slice (m.layout.rawStartOf j) (m.storedSize ct e j) := by
  rw [storedSize_of_lt (Nat.lt_of_lt_of_le hj hi)]
  exact Bytes.slice_overlay_of_le (Layout.rawStartOf_add_le h.packs (h.reaches.mono hi) hj)
    (h.rawStart_le_length hi)

/-- A chunk behind it starts after what is written, if that is as long as a full chunk. -/
theorem slice_overlay_of_gt (h : m.Stores raw ct e d) {j : Nat} (hj : j ≤ e) (hi : i < j)
    (hpacked : packed.length = m.layout.capacity i + ChunkCipher.overhead) :
    (raw.overlay (m.layout.rawStartOf i) packed).slice (m.layout.rawStartOf j)
        (m.storedSize ct e j)
      = raw.slice (m.layout.rawStartOf j) (m.storedSize ct e j) := by
  have hbehind := Layout.rawStartOf_add_le h.packs (h.reaches.mono hj) hi
  exact Bytes.slice_overlay_of_ge (by omega)

/-- Of a chunk in front of the last one, a full one takes the place. -/
theorem overlay_inner (h : m.Stores raw ct e d) (hi : i < e)
    (hfull : plain.length = m.layout.capacity i)
    (hlen : packed.length = plain.length + ChunkCipher.overhead)
    (hopens : m.cipher.unpack packed i = .ok plain) :
    m.Stores (raw.overlay (m.layout.rawStartOf i) packed) ct e (m.layout.withPart d i plain) := by
  have hle := Nat.le_of_lt hi
  have hstart : m.layout.startOf i ≤ d.length := Nat.le_trans (m.layout.startOf_mono hle) h.start
  have hwithin : m.layout.Within i (m.layout.startOf i + plain.length) :=
    .inr (Nat.le_of_eq (by rw [hfull]))
  -- the parts of the other chunks are those of the old content
  have hparts {j : Nat} (hj : j ≤ e) (hne : j ≠ i) :
      m.layout.part (m.layout.withPart d i plain) j = m.layout.part d j :=
    Layout.part_withPart_of_ne hstart hwithin hne (h.reaches.mono hle) (h.reaches.mono hj)
  have hpart : m.layout.part (m.layout.withPart d i plain) i = plain :=
    Layout.part_withPart_self hstart hwithin
      (Nat.le_of_eq ((h.length_part_of_lt hi).trans hfull.symm))
  have hlength : (m.layout.withPart d i plain).length = d.length := by
    have hbehind := m.layout.startOf_add_capacity_le hi
    rw [Layout.length_withPart, hfull]
    exact Nat.max_eq_left (Nat.le_trans hbehind h.start)
  obtain ⟨hhead, hdescriptor⟩ := h.metadata_overlay hle packed
  refine
    { h with
      head := hhead, descriptor := hdescriptor, start := hlength.symm ▸ h.start
      within := hlength.symm ▸ h.within, extent := ?extent, present := ?present, opens := ?opens }
  -- neither the size of the content nor the last part changed, so the end is where it was
  case extent =>
    rw [hparts (Nat.le_refl e) (Nat.ne_of_gt hi), hlength]
    exact h.extent
  case present =>
    rw [Bytes.length_overlay]
    exact Nat.le_trans h.present (Nat.le_max_left _ _)
  case opens =>
    intro j hj hpos
    -- the chunk lies in front, is the one that was written, or lies behind
    rcases Nat.lt_trichotomy j i with hlt | rfl | hgt
    · rw [hparts hj (Nat.ne_of_lt hlt), h.slice_overlay_of_lt hle hlt, h.opens j hj hpos]
    · rw [storedSize_of_lt hi, ← hfull, ← hlen, hpart, Bytes.slice_overlay_self, hopens]
    · rw [hparts hj (Nat.ne_of_gt hgt), h.slice_overlay_of_gt hj hgt (by rw [hlen, hfull]),
        h.opens j hj hpos]

/-- Of the last chunk, one takes the place that is not shorter. -/
theorem overlay_last (h : m.Stores raw ct e d)
    (hlonger : (m.layout.part d e).length ≤ plain.length)
    (hwithin : m.layout.Within e (m.layout.startOf e + plain.length)) (hfilled : plain ≠ [] ∨ e = 0)
    (hlen : packed.length = plain.length + ChunkCipher.overhead)
    (hopens : m.cipher.unpack packed e = .ok plain)
    (hct : m.dataOffset + ct' = m.layout.rawStartOf e + packed.length) :
    m.Stores (raw.overlay (m.layout.rawStartOf e) packed) ct' e (m.layout.withPart d e plain) := by
  have hstart := h.start
  -- the chunks in front are full and stay as they are
  have hparts {j : Nat} (hj : j < e) :
      m.layout.part (m.layout.withPart d e plain) j = m.layout.part d j :=
    Layout.part_withPart_of_ne hstart hwithin (Nat.ne_of_lt hj) h.reaches
      (h.reaches.mono (Nat.le_of_lt hj))
  have hpart : m.layout.part (m.layout.withPart d e plain) e = plain :=
    Layout.part_withPart_self hstart hwithin hlonger
  have hlength : (m.layout.withPart d e plain).length = m.layout.startOf e + plain.length := by
    rw [h.length_part_last] at hlonger
    rw [Layout.length_withPart]
    omega
  obtain ⟨hhead, hdescriptor⟩ := h.metadata_overlay (Nat.le_refl e) packed
  refine
    { h with
      head := hhead, descriptor := hdescriptor, start := by omega
      within := hlength.symm ▸ hwithin, extent := ?extent, present := ?present, opens := ?opens }
  case extent =>
    rw [hpart, hct, hlen, hlength]
    refine .inr ⟨rfl, hfilled.imp_left fun hne => ?_⟩
    exact Nat.lt_add_of_pos_right (List.length_pos_iff.mpr hne)
  case present =>
    rw [Bytes.length_overlay, hct]
    exact Nat.le_max_right _ _
  case opens =>
    intro j hj hpos
    rcases Nat.lt_or_eq_of_le hj with hlt | rfl
    · -- what is stored of the chunks in front does not depend on where the chunk data ends
      have hsame : m.storedSize ct' e j = m.storedSize ct e j := by
        rw [storedSize_of_lt hlt, storedSize_of_lt hlt]
      rw [hsame] at hpos ⊢
      rw [hparts hlt, h.slice_overlay_of_lt (Nat.le_refl e) hlt, h.opens j hj hpos]
    · have hstored : m.storedSize ct' j j = packed.length := by
        rw [storedSize_last, hct, Nat.add_sub_cancel_left]
      rw [hstored, hpart, Bytes.slice_overlay_self, hopens]

/-- **Writing a packed chunk to its place puts its plain form into the content.** A chunk in front
of the last one stays full; the last one does not get shorter. -/
theorem overlay_chunk (h : m.Stores raw ct e d) (hi : i ≤ e)
    (hlen : packed.length = plain.length + ChunkCipher.overhead)
    (hopens : m.cipher.unpack packed i = .ok plain)
    (hfull : i < e → plain.length = m.layout.capacity i)
    (hlast : i = e → (m.layout.part d e).length ≤ plain.length ∧
      m.layout.Within e (m.layout.startOf e + plain.length) ∧ (plain ≠ [] ∨ e = 0))
    (hct : m.dataOffset + ct' =
      if i < e then m.dataOffset + ct else m.layout.rawStartOf e + packed.length) :
    m.Stores (raw.overlay (m.layout.rawStartOf i) packed) ct' e (m.layout.withPart d i plain) := by
  -- in front of the last chunk nothing may become longer, at the end nothing shorter
  rcases Nat.lt_or_eq_of_le hi with hlt | rfl
  · rw [if_pos hlt] at hct
    obtain rfl : ct' = ct := Nat.add_left_cancel hct
    exact h.overlay_inner hlt (hfull hlt) hlen hopens
  · rw [if_neg (Nat.lt_irrefl i)] at hct
    obtain ⟨hlonger, hwithin, hfilled⟩ := hlast rfl
    exact h.overlay_last hlonger hwithin hfilled hlen hopens hct

/-! ## The last chunk

Which chunk is the last one is part of the statement. It moves on when the last one is full, and
back when the content is cut at the start of a chunk. -/

/-- Behind a last chunk that is full, an empty one can be counted as the last. -/
theorem advance (h : m.Stores raw ct e d) (hc : 0 < m.layout.capacity e)
    (hfull : d.length = m.layout.startOf e + m.layout.capacity e) (he : e + 1 < seqnumLimit) :
    m.Stores raw ct (e + 1) d := by
  have hlen : (m.layout.part d e).length = m.layout.capacity e := by
    rw [h.length_part_last]
    omega
  -- the chunk data ends where the empty chunk would start
  have hend : m.dataOffset + ct = m.layout.rawStartOf (e + 1) := by
    rw [Layout.rawStartOf_succ h.packs hc]
    rcases h.extent with ⟨-, hbad⟩ | ⟨heq, -⟩
    · omega
    · omega
  have hstart : d.length = m.layout.startOf (e + 1) := by rw [Layout.startOf_succ]; omega
  refine
    { h with
      reaches := h.reaches.succ hc, numbered := he, start := Nat.le_of_eq hstart.symm
      within := ?_, extent := .inl ⟨hend, hstart⟩, opens := ?_ }
  · unfold Layout.Within
    omega
  · -- of the empty chunk nothing is stored, so only those in front have to open
    intro i hi hpos
    rcases Nat.lt_or_eq_of_le hi with hlt | rfl
    · have hie : i ≤ e := Nat.le_of_lt_succ hlt
      -- the chunk that was the last one takes the room of a full one
      have hsame : m.storedSize ct (e + 1) i = m.storedSize ct e i := by
        rcases Nat.lt_or_eq_of_le hie with h' | rfl
        · rw [storedSize_of_lt hlt, storedSize_of_lt h']
        · rw [storedSize_of_lt hlt, storedSize_last, hend, Layout.rawStartOf_succ h.packs hc]
          omega
      rw [hsame] at hpos ⊢
      exact h.opens i hie hpos
    · rw [storedSize_last] at hpos
      omega

/-- The chunks in front of a chunk hold the content in front of it. -/
theorem cut (h : m.Stores raw ct e d) {b : Nat} (hb : b ≤ e) :
    m.Stores raw (m.layout.rawStartOf b - m.dataOffset) b (d.take (m.layout.startOf b)) := by
  have hoffset := m.layout.dataOffset_le_rawStartOf b
  rw [dataOffset_layout] at hoffset
  have hend : m.dataOffset + (m.layout.rawStartOf b - m.dataOffset) = m.layout.rawStartOf b := by
    omega
  have hle := m.layout.startOf_mono hb
  have hstart := h.start
  have hlen : (d.take (m.layout.startOf b)).length = m.layout.startOf b := by
    rw [List.length_take]
    omega
  refine
    { h with
      reaches := h.reaches.mono hb, numbered := Nat.lt_of_le_of_lt hb h.numbered
      start := Nat.le_of_eq hlen.symm, within := .inr (by omega), extent := .inl ⟨hend, hlen⟩
      present := ?_, opens := ?_ }
  · rw [hend]
    exact Nat.le_trans (m.layout.rawStartOf_mono hb) (Nat.le_trans h.rawStart_last_le h.present)
  · intro i hi hpos
    -- the chunks in front are full and keep all of their parts
    rcases Nat.lt_or_eq_of_le hi with hlt | rfl
    · have hie : i < e := Nat.lt_of_lt_of_le hlt hb
      rw [storedSize_of_lt hlt] at hpos ⊢
      rw [Layout.part_take_of_le (h.reaches i hie) (m.layout.startOf_add_capacity_le hlt)]
      have hold := h.opens i (Nat.le_of_lt hie)
      rw [storedSize_of_lt hie] at hold
      exact hold hpos
    · rw [storedSize_last] at hpos
      omega

end Stores

end Metadata

end Vault
