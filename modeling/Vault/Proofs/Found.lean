import Vault.Proofs.BrowsingOpening
import Vault.Proofs.Calls

/-!
# `Vault/Proofs/Found.lean` — what is found in a file that was written

`Metadata.Keeps` says what is in a raw file that a container wrote, and `Place.survey` says what
opening finds in one that anybody may have written. Here the two meet: **everybody with the master
key finds what the metadata say, and each chunk that is as it was written opens to its part of the
content.**

Both are stated for a file that is like the written one in the bytes that matter and may differ in
all others. So they also tell what is found in a file that was changed afterwards: where sizes in
the header were replaced they are believed as far as they go together (`survey_eq`), and where a
chunk was replaced the others are not touched by it (`Stores.opens_source`).
-/

set_option autoImplicit false

namespace Vault

namespace Metadata

variable {m : Metadata} {raw raw' c : Bytes} {ct last size file : Nat} {w : Place} {mode : Mode}
  {p : Processor}

/-- What is found in a raw file with this metadata. -/
def source (m : Metadata) (w : Place) (file : Nat) (mode : Mode) (p : Processor)
    (size ciphertextSize last : Nat) : Source :=
  { w with
    file, mode, processor := m.install p, layout := m.layout, size, ciphertextSize, last }

/-- **Everybody with the master key finds what the metadata say,** if the sizes go together. -/
theorem survey_eq (hfile : w.disk.find? w.path = some file) (hraw : raw = w.disk.contents file)
    (hheader : raw.slice 0 Header.size = m.header size ct)
    (hdescriptor : raw.slice Header.size m.descriptor.length = m.descriptor)
    (hmaster : p.master = m.master) (hkind : p.config.streaming = m.streaming)
    (hsealed : m.streaming = false) (hsize : size < offsetLimit)
    (hlast : m.layout.seqnumOf? size = some last)
    (hstart : m.layout.rawStartOf last ≤ m.dataOffset + ct)
    (hpresent : m.dataOffset + ct ≤ raw.length) (hend : m.dataOffset + ct < offsetLimit) :
    w.survey mode p = .ok (m.source w file mode p size ct last) := by
  have hread : p.readMetadata raw = .ok (⟨size, m.descriptor.length, ct⟩, m.install p) := by
    unfold Processor.readMetadata
    simp only [hheader, hdescriptor,
      Metadata.unpackHeader_header hkind hsize (show ct < offsetLimit by omega),
      m.opens p hmaster hkind]
    simp [header, install]
  have hlayout : (m.install p).layout (Header.size + m.descriptor.length) = m.layout :=
    layout_eq rfl rfl hkind
  have hbefore := Layout.packedBefore?_eq (l := m.layout) (i := last) (by omega)
  rw [dataOffset_layout] at hbefore
  have hblock : ¬(m.install p).config.streaming = true := by
    show ¬p.config.streaming = true
    rw [hkind, hsealed]
    simp
  unfold Place.survey
  simp only [hfile, ← hraw, hread]
  unfold Place.measure Place.fit
  simp only [hlayout, if_neg hblock, ← hraw, dataOffset_layout, hlast, hbefore]
  rw [if_neg (by omega), if_neg (by omega)]
  rfl

/-- What there is of a chunk is what is stored of it. -/
theorem Stores.stored_source (h : m.Stores raw ct last c) (hkind : p.config.streaming = m.streaming)
    {i : Nat} (hi : i ≤ last) :
    (m.source w file mode p size ct last).stored i = m.storedSize ct last i := by
  have hblock : ¬(m.install p).config.streaming = true := by
    show ¬p.config.streaming = true
    rw [hkind, h.sealed]
    simp
  have hpacked : (m.install p).maxPackedSize i ct
      = if m.layout.capacity i = 0 then ct else m.layout.capacity i + ChunkCipher.overhead := by
    rw [capacity_layout (p := m.install p) rfl rfl i, Processor.maxPackedSize, Processor.overhead,
      if_neg hblock]
  have hstart := m.layout.dataOffset_le_rawStartOf i
  rw [dataOffset_layout] at hstart
  show min ((m.install p).maxPackedSize i ct) (m.dataOffset + ct - m.layout.rawStartOf i) = _
  rw [hpacked]
  -- all chunks but the last are full, and of the last one there is what is left
  rcases Nat.lt_or_eq_of_le hi with hlt | rfl
  · have hcap := h.reaches i hlt
    have hend := Layout.rawStartOf_add_le h.packs h.reaches hlt
    have hlast := h.rawStart_last_le
    rw [storedSize_of_lt hlt, if_neg (by omega)]
    omega
  · have hlen := h.length_part_last
    have hwithin := h.within
    unfold Layout.Within at hwithin
    rw [storedSize_last]
    split
    · omega
    · rcases h.extent with ⟨heq, -⟩ | ⟨heq, -⟩ <;> omega

/-- What there is of it is opened with the keys that the metadata say. -/
theorem Stores.chunk_source (h : m.Stores raw ct last c) (hraw : raw' = w.disk.contents file)
    (hkind : p.config.streaming = m.streaming) {i : Nat} (hi : i ≤ last)
    (hpos : 0 < m.storedSize ct last i) :
    (m.source w file mode p size ct last).chunk i =
      (m.cipher.unpack (m.chunkAt raw' ct last i) i).mapError Error.crypto := by
  unfold Source.chunk
  rw [h.stored_source hkind hi, if_neg (by omega)]
  show (m.install p).unpackChunk ((w.disk.contents file).slice (m.layout.rawStartOf i) _) i = _
  rw [← hraw, Processor.unpackChunk_eq (m.keys_install p) (hkind.trans h.sealed)]
  rfl

/-- **A chunk that is as it was written opens to its part of the content.** -/
theorem Stores.opens_source (h : m.Stores raw ct last c) (hraw : raw' = w.disk.contents file)
    (hkind : p.config.streaming = m.streaming) {i : Nat} (hi : i ≤ last)
    (hsame : m.chunkAt raw' ct last i = m.chunkAt raw ct last i) :
    (m.source w file mode p size ct last).chunk i = .ok (m.layout.part c i) := by
  rcases Nat.eq_zero_or_pos (m.storedSize ct last i) with hnone | hpos
  · -- of a chunk without content nothing is stored
    have hempty : m.layout.part c i = [] := by
      rcases h.storedSize_eq hi with ⟨-, hempty⟩ | hfull
      · exact hempty
      · exact List.eq_nil_of_length_eq_zero (by omega)
    unfold Source.chunk
    rw [h.stored_source hkind hi, if_pos hnone, hempty]
  · rw [h.chunk_source hraw hkind hi hpos, hsame, chunkAt, h.opens i hi hpos]
    rfl

/-- If no chunk was changed, all of the content is there, whatever size of it the header tells. -/
theorem Stores.serves_source (h : m.Stores raw ct last c) (hraw : raw' = w.disk.contents file)
    (hkind : p.config.streaming = m.streaming)
    (hsame : ∀ i ≤ last, m.chunkAt raw' ct last i = m.chunkAt raw ct last i) :
    (m.source w file mode p size ct last).Serves c where
  start := h.start
  within := h.within
  parts i hi _ hc :=
    (Except.ok.inj ((h.opens_source hraw hkind hi (hsame i hi)).symm.trans hc)).symm

/-- The chunk data is as long as the content needs it. -/
theorem Stores.served_source (h : m.Stores raw ct last c)
    (hkind : p.config.streaming = m.streaming) :
    (m.source w file mode p size ct last).served = c.length := by
  have hblock : ¬(m.install p).config.streaming = true := by
    show ¬p.config.streaming = true
    rw [hkind, h.sealed]
    simp
  have hoverhead : (m.install p).overhead = ChunkCipher.overhead := by
    rw [Processor.overhead, if_neg hblock]
  have hpart := h.length_part_last
  have hstart := h.start
  unfold Source.served
  show m.layout.startOf last + ((m.source w file mode p size ct last).stored last
    - (m.install p).overhead) = _
  rw [h.stored_source hkind (Nat.le_refl last), hoverhead]
  rcases h.storedSize_eq (Nat.le_refl last) with ⟨hnone, hempty⟩ | hfull
  · rw [hempty, List.length_nil] at hpart
    omega
  · omega

end Metadata

open Container

namespace Session

variable {s : Session} {m : Metadata} {raw : Bytes} {mode : Mode} {v : Source}

/-- A closed container without faults comes to a raw file of its master key and its kind. -/
structure Confronts (s : Session) (m : Metadata) (raw : Bytes) : Prop where
  closed : s.Closed ⟨s.disk, s.path, true⟩
  file : s.disk.read? s.path = some raw
  master : s.processor.master = m.master
  kind : s.processor.config.streaming = m.streaming

/-- A new container comes to the only file of its disk. -/
theorem confronts_pristine {processor : Processor} {random : Random}
    (hmaster : processor.master = m.master) (hkind : processor.config.streaming = m.streaming) :
    Confronts { pristine "vault" processor {} random with
      disk := { names := [("vault", 0)], files := [raw] } } m raw where
  closed :=
    { disk := rfl, path := rfl, handle := rfl, calm := fun _ => rfl, pool := rfl
      room := by show 0 < (Pool.new 8).capacity; decide
      capacity := by show (Pool.new 8).capacity < offsetLimit; decide }
  file := rfl
  master := hmaster
  kind := hkind

/-- **It can open that file if it can open the first chunk.** Then the numbers that it found go
together, and it browses what it found. -/
theorem Confronts.opens (h : s.Confronts m raw) (hsealed : m.streaming = false)
    (hmode : mode.isWrite = false) (hlength : raw.length < offsetLimit)
    (hfind : Place.survey ⟨s.disk, s.path, true⟩ mode s.processor = .ok v)
    (hfirst : ∃ plain, v.chunk 0 = .ok plain) :
    v.Sound ∧ ∃ t, openIn mode s = .ok () t ∧ t.Browses v ∧ t.seekCursor = 0 := by
  obtain ⟨plain, hplain⟩ := hfirst
  obtain ⟨file, hfound, hraw⟩ : ∃ file, s.disk.find? s.path = some file ∧
      s.disk.contents file = raw := Option.map_eq_some_iff.mp h.file
  have hw : Place.Addressable ⟨s.disk, s.path, true⟩ := by
    intro found hfound'
    obtain rfl : file = found := Option.some.inj (hfound.symm.trans hfound')
    exact hraw ▸ hlength
  refine ⟨Place.sound_of_survey hmode hfind hw, ?_⟩
  have hends := (openIn_closed h.closed hmode hw).ends
  cases hopen : openIn mode s with
  | ok x t =>
    obtain ⟨v', hfind', ht, -, hstart⟩ := hends.of_ok hopen
    obtain rfl := Except.ok.inj (hfind.symm.trans hfind')
    exact ⟨t, rfl, ht, hstart⟩
  | error e t =>
    -- there are no faults, the metadata are read, the first chunk opens, and nothing is streamed
    obtain ⟨-, (hfaulty | herror | ⟨v', hfind', herror⟩) | hstream⟩ := hends.of_error hopen
    · exact absurd hfaulty (by simp)
    · exact absurd (hfind.symm.trans herror) (by simp)
    · obtain rfl := Except.ok.inj (hfind.symm.trans hfind')
      exact absurd (herror.symm.trans hplain) (by simp)
    · rw [h.kind, hsealed] at hstream
      exact absurd hstream (by simp)

end Session

end Vault
