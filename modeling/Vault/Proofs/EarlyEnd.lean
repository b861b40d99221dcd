import Mathlib.Algebra.Ring.Nat
import Vault.Proofs.Found
import Vault.Proofs.Reopen
import Vault.Proofs.Untrusted

/-!
# `Vault/Proofs/EarlyEnd.lean` — how far an opened container can be read

A header tells the size of the content and the size of the chunk data, and nothing protects the two.
Opening holds one against the other: all chunks in front of the one in which the content ends are
full, so the chunk data must have room for those, and a header that asks for more is refused. About
the last chunk nothing is asked.

**Read from its start, a container that was opened gives its content as far as there is chunk data
for it.** A streamed one gives all of it, since its size is made from the chunk data; any other one
can end early only in its last chunk.
-/

set_option autoImplicit false

namespace Vault

/-- The content takes more full chunks than there is chunk data for, or more than have a number. -/
def Layout.Overfull (l : Layout) (size ciphertextSize : Nat) : Prop :=
  ∀ last needed, l.seqnumOf? size = some last → l.packedBefore? last = some needed →
    ciphertextSize < needed

/-- Reads on and on, in pieces of these sizes. -/
def Container.readAll : List Nat → Op Bytes
  | [] => return []
  | n :: sizes => do
    let data ← read n
    return data ++ (← readAll sizes)

namespace Session

/-- How much content the chunk data has room for, up to the end of the last chunk. -/
def held (s : Session) : Nat :=
  s.layout.startOf s.eofSeqnum +
    (min (s.processor.maxPackedSize s.eofSeqnum s.ciphertextSize)
      (s.eofPos - s.layout.rawStartOf s.eofSeqnum) - s.processor.overhead)

/-- Read from where it is, the container gives this content. -/
structure Gives (s : Session) (content : Bytes) : Prop where
  /-- It gives it in pieces of any sizes, as long as no read fails. -/
  pieces : ∀ sizes data t, Container.readAll sizes s = .ok data t → data = content.take sizes.sum
  /-- It says that there is nothing more when all was read, and not earlier. -/
  ends : ∀ sizes data t n t', Container.readAll sizes s = .ok data t → 0 < n →
    Container.read n t = .ok [] t' → data = content

/-- A raw file with these sizes in its header is to be opened, and nothing else is wrong with it. -/
structure Offers (s : Session) (mode : Mode) (layout : Layout) (size ciphertextSize : Nat) :
    Prop where
  closed : s.isOpen = false
  calm : s.faults = []
  allowed : (s.processor.config.streaming && !mode.allowsStreaming) = false
  metadata : ∃ file info processor, s.disk.find? s.path = some file ∧
    s.processor.readMetadata (s.disk.contents file) = .ok (info, processor) ∧
    layout = processor.layout (Header.size + info.descriptorSize) ∧
    ciphertextSize = info.ciphertextSize ∧
    size = if processor.config.streaming
      then layout.streamedSize ciphertextSize processor.streamLead
      else info.plaintextSize

end Session

/-! ## Reading from the start to the end -/

namespace Session

variable {s s' : Session} {v : Source} {d : Bytes}

theorem Browses.held_eq (h : s.Browses v) : s.held = v.served := by
  rw [held, h.layout, h.last, h.processor, h.ciphertextSize, h.eofPos]
  rfl

end Session

namespace Container

open Session

variable {s : Session} {v : Source} {d : Bytes}

/-- Reads that follow each other give what one long read would give. -/
theorem readAll_browses (hv : v.Sound) (hd : v.Serves d) (sizes : List Nat) (h : s.Browses v) :
    (readAll sizes).Ends s
      (fun data s' => s'.Browses v ∧
        data = Bytes.slice (d.take v.size) s.seekCursor sizes.sum ∧
        s'.seekCursor = s.seekCursor + data.length)
      (fun _ _ => True) := by
  induction sizes generalizing s with
  | nil =>
    refine ⟨h, ?_, rfl⟩
    simp [Bytes.slice]
  | cons n sizes ih =>
    unfold readAll
    refine Op.Ends.bind ((read_browses h hv hd n).ends.mono (fun _ _ => id) fun _ _ _ => trivial) ?_
    intro data s₁ h₁
    refine Op.Ends.bind (ih h₁.browses) ?_
    rintro rest s₂ ⟨h₂, hrest, hcursor⟩
    refine ⟨h₂, ?_, ?_⟩
    · rw [hrest, h₁.seekCursor, h₁.gives, Bytes.slice_append_rest, List.sum_cons]
    · rw [hcursor, h₁.seekCursor, List.length_append, Nat.add_assoc]

/-- **At its start, a container gives the content that the source has to offer.** -/
theorem gives_browses (h : s.Browses v) (hv : v.Sound) (hd : v.Serves d)
    (hstart : s.seekCursor = 0) : s.Gives (d.take v.size) := by
  have hreads (sizes : List Nat) {data : Bytes} {t : Session}
      (hrun : readAll sizes s = .ok data t) :
      t.Browses v ∧ data = (d.take v.size).take sizes.sum ∧ t.seekCursor = data.length := by
    obtain ⟨ht, hdata, hcursor⟩ := (readAll_browses hv hd sizes h).of_ok hrun
    rw [hstart] at hdata hcursor
    exact ⟨ht, hdata, by omega⟩
  refine ⟨fun sizes data t hrun => (hreads sizes hrun).2.1, ?_⟩
  intro sizes data t n t' hrun hn hread
  obtain ⟨ht, hdata, hcursor⟩ := hreads sizes hrun
  -- the last read gave nothing, so the position was at the end of the content already
  have hnone := ((read_browses ht hv hd n).ends.of_ok hread).gives
  rw [eq_comm, ← List.length_eq_zero_iff, Bytes.length_slice, hcursor] at hnone
  rw [hdata] at hnone
  rw [hdata, List.take_of_length_le]
  simp only [List.length_take] at hnone ⊢
  omega

end Container

/-! ## Opening

The comparison that opening makes, once for numbers that were taken over and once for numbers
that were refused. Any faults would be another reason to refuse, so there are none here. -/

/-- Numbers that opening takes over do not ask for more than there is. -/
theorem Source.Sound.not_overfull {v : Source} (h : v.Sound) :
    ¬v.layout.Overfull v.size v.ciphertextSize := by
  intro hover
  have hfits := h.fits
  have hlimit := h.end_lt
  have hlt := hover v.last _ h.last (Layout.packedBefore?_eq (by omega))
  unfold Source.eofPos at hfits
  omega

/-- **Numbers that ask for more than there is are refused.** -/
theorem Place.measure_overfull (w : Place) (mode : Mode) (file : Nat) {info : HeaderInfo}
    {processor : Processor} {layout : Layout} {size : Nat}
    (hlayout : layout = processor.layout (Header.size + info.descriptorSize))
    (hsize : size = if processor.config.streaming
      then layout.streamedSize info.ciphertextSize processor.streamLead else info.plaintextSize)
    (h : layout.Overfull size info.ciphertextSize) :
    ∃ why, w.measure mode file info processor = .error (.malformed why) := by
  unfold measure fit
  simp only [← hlayout, ← hsize]
  split
  · exact ⟨_, rfl⟩
  · split
    · exact ⟨_, rfl⟩
    · next last hlast =>
      split
      · exact ⟨_, rfl⟩
      · next needed hneeded =>
        rw [if_pos (h last needed hlast hneeded)]
        exact ⟨_, rfl⟩

open Session Container

variable {s : Session} {mode : Mode} {w : Place} {layout : Layout} {size ciphertextSize : Nat}

/-- A closed container with no faults refuses such a raw file for what its header says. -/
theorem Session.Offers.refused (h : s.Offers mode layout size ciphertextSize) (hclosed : s.Closed w)
    (hmode : mode.isWrite = false) (hw : w.Addressable)
    (hover : layout.Overfull size ciphertextSize) :
    ∃ why t, openIn mode s = .error (.malformed why) t := by
  obtain ⟨disk, path, calm⟩ := w
  obtain ⟨rfl, rfl⟩ := And.intro hclosed.disk hclosed.path
  have hcalm : s.Closed ⟨s.disk, s.path, true⟩ := { hclosed with calm := fun _ => h.calm }
  obtain ⟨file, info, processor, hfile, hread, hlayout, rfl, hsize⟩ := h.metadata
  obtain ⟨why, hwhy⟩ := Place.measure_overfull ⟨s.disk, s.path, true⟩ mode file hlayout hsize hover
  have hsurvey : Place.survey ⟨s.disk, s.path, true⟩ mode s.processor
      = .error (.malformed why) := by
    unfold Place.survey
    simp only [hfile, hread, hwhy]
  have hends := (openIn_closed hcalm hmode hw).ends
  cases hrun : openIn mode s with
  | ok u t =>
    obtain ⟨v, hfind, -⟩ := hends.of_ok hrun
    exact absurd (hsurvey.symm.trans hfind) (by simp)
  | error e t =>
    obtain ⟨-, (hfaulty | herror | ⟨v, hfind, -⟩) | hstream⟩ := hends.of_error hrun
    · exact absurd hfaulty (by simp)
    · rw [hsurvey] at herror
      exact ⟨why, t, by rw [Except.error.inj herror]⟩
    · exact absurd (hsurvey.symm.trans hfind) (by simp)
    · exact absurd (hstream.symm.trans h.allowed) (by simp)

/-! ## A file whose header promises more

The descriptor and the chunk data are the ones that were written; only the eight bytes of the
size differ. A larger size is noticed if it asks for another last chunk, for then the one that is
now the last would have to be full. -/

namespace Metadata

variable {m : Metadata} {raw c : Bytes} {ct last file : Nat} {p : Processor}

/-- **A larger size in the header is believed,** as long as the content would end in the same
chunk. -/
theorem Keeps.survey_overstated (h : m.Keeps raw ct last c)
    (hlast : m.layout.seqnumOf? size = some last) (hsize : size < offsetLimit)
    (hlength : raw.length < offsetLimit) (hfile : w.disk.find? w.path = some file)
    (hraw : w.disk.contents file = raw.overlay Header.plaintextAt (Bytes.ofNatLE 8 size))
    (hmaster : p.master = m.master) (hkind : p.config.streaming = m.streaming) :
    w.survey mode p = .ok (m.source w file mode p size ct last) := by
  have hfield : (Bytes.ofNatLE 8 size).length = 8 := Bytes.length_ofNatLE 8 size
  have hplain : Header.plaintextAt = 6 := rfl
  have hcipher : Header.ciphertextAt = 14 := rfl
  have hheader : Header.size = 22 := rfl
  have hdata : m.dataOffset = Header.size + m.descriptor.length := rfl
  have hpresent := h.present
  have hkept : raw.length ≤ (raw.overlay Header.plaintextAt (Bytes.ofNatLE 8 size)).length := by
    rw [Bytes.length_overlay]
    omega
  refine survey_eq hfile rfl ?_ ?_ hmaster hkind h.sealed hsize hlast h.rawStart_last_le ?_
    (by omega)
  · rw [hraw]
    refine header_of_fields ?head ?plaintext ?ciphertext
    case head =>
      rw [Bytes.take_overlay (by omega) (by omega)]
      exact h.head
    case plaintext =>
      have hself := Bytes.slice_overlay_self raw Header.plaintextAt (Bytes.ofNatLE 8 size)
      rwa [hfield] at hself
    case ciphertext =>
      rw [Bytes.slice_overlay_of_ge (by omega)]
      exact h.ciphertext
  · rw [hraw, Bytes.slice_overlay_of_ge (by omega)]
    exact h.descriptor
  · rw [hraw]
    omega

/-- The chunks are where they were. -/
theorem chunkAt_overstated (i : Nat) :
    m.chunkAt (raw.overlay Header.plaintextAt (Bytes.ofNatLE 8 size)) ct last i =
      m.chunkAt raw ct last i := by
  have hstart := m.layout.dataOffset_le_rawStartOf i
  rw [dataOffset_layout] at hstart
  have hdata : m.dataOffset = Header.size + m.descriptor.length := rfl
  have hbehind : Header.plaintextAt + 8 ≤ Header.size := by decide
  refine Bytes.slice_overlay_of_ge ?_
  rw [Bytes.length_ofNatLE]
  omega

/-- **A file whose header promises more gives what it has.** Let a file keep a content, and let the
size in its header be replaced by a larger one, with which the content would end in the same chunk.
The container tells that size, has chunk data for the content and no more, and gives the content. -/
theorem Keeps.gives_overstated {e : Nat} (h : m.Keeps raw ct e c)
    (hend : m.layout.seqnumOf? c.length = some last) (hlast : m.layout.seqnumOf? size = some last)
    (hgrown : c.length ≤ size) (hsize : size < offsetLimit) (hlength : raw.length < offsetLimit)
    (hs : s.Confronts m (raw.overlay Header.plaintextAt (Bytes.ofNatLE 8 size)))
    (hmode : mode.isWrite = false) :
    ∃ t, openIn mode s = .ok () t ∧ t.size = size ∧ t.held = c.length ∧ t.Gives c := by
  replace h := h.reach hend
  obtain ⟨file, hfile, hraw⟩ : ∃ file, s.disk.find? s.path = some file ∧
      s.disk.contents file = raw.overlay Header.plaintextAt (Bytes.ofNatLE 8 size) :=
    Option.map_eq_some_iff.mp hs.file
  have hlength' : (raw.overlay Header.plaintextAt (Bytes.ofNatLE 8 size)).length < offsetLimit := by
    have hfield : (Bytes.ofNatLE 8 size).length = 8 := Bytes.length_ofNatLE 8 size
    have hplain : Header.plaintextAt = 6 := rfl
    have hlimit : 14 < offsetLimit := by decide
    rw [Bytes.length_overlay]
    omega
  have hfind : Place.survey ⟨s.disk, s.path, true⟩ mode s.processor
      -- the larger size leads to the same last chunk, so the survey finds the same source but for
      -- it
      = .ok (m.source ⟨s.disk, s.path, true⟩ file mode s.processor size ct last) :=
    h.survey_overstated hlast hsize hlength hfile hraw hs.master hs.kind
  have hsame (i : Nat) (_ : i ≤ last) :
      m.chunkAt (raw.overlay Header.plaintextAt (Bytes.ofNatLE 8 size)) ct last i
        = m.chunkAt raw ct last i := chunkAt_overstated i
  have hserves : Source.Serves (m.source ⟨s.disk, s.path, true⟩ file mode s.processor size ct last)
      c := h.serves_source hraw.symm hs.kind hsame
  obtain ⟨hsound, t, hopen, ht, hstart⟩ := hs.opens h.sealed hmode hlength' hfind
    ⟨_, h.opens_source hraw.symm hs.kind (Nat.zero_le last) (hsame 0 (Nat.zero_le last))⟩
  have hgives : t.Gives (c.take size) := gives_browses ht hsound hserves hstart
  rw [List.take_of_length_le hgrown] at hgives
  exact ⟨t, hopen, ht.size, ht.held_eq.trans (h.served_source hs.kind), hgives⟩

end Metadata

/-! ## Any file -/

/-- **An opened container is read as far as its chunk data goes,** whatever its header tells, and a
header that asks for more full chunks than there can be is refused. -/
theorem Visited.read_out (h : Visited s) (hmode : mode.isWrite = false) :
    (∀ t, openIn mode s = .ok () t →
      ¬t.layout.Overfull t.size t.ciphertextSize ∧
      (t.processor.config.streaming = true → t.size ≤ t.held) ∧
      ∃ content : Bytes, content.length = min t.size t.held ∧ t.Gives content) ∧
    ∀ layout size ciphertextSize, s.Offers mode layout size ciphertextSize →
      layout.Overfull size ciphertextSize →
      ∃ why t, openIn mode s = .error (.malformed why) t := by
  obtain ⟨w, hw, -, hsafe⟩ := h.safe
  rcases hsafe with hclosed | ⟨v, hv, rfl, hbrowses⟩
  · refine ⟨fun t hopen => ?_, fun _ _ _ hoffers => hoffers.refused hclosed hmode hw⟩
    obtain ⟨v, hfind, ht, -, hstart⟩ := (openIn_closed hclosed hmode hw).ends.of_ok hopen
    have hv : v.Sound := Place.sound_of_survey hmode hfind hw
    obtain ⟨d, hd, hlength⟩ := hv.serves
    refine ⟨?_, fun hstreaming => ?_, d.take v.size, ?_, gives_browses ht hv hd hstart⟩
    · rw [ht.layout, ht.size, ht.ciphertextSize]
      exact hv.not_overfull
    · refine Nat.le_of_eq ?_
      rw [ht.held_eq, hv.served_of_streaming (ht.processor ▸ hstreaming), ht.size]
    · rw [List.length_take, hlength, ht.held_eq, ht.size]
  · refine ⟨fun t hopen => ?_, fun _ _ _ hoffers => ?_⟩
    · -- a container that is open already refuses to be opened
      have hnever : (openIn mode).Ends s (fun _ _ => False) (fun _ t => t = s) :=
        (openIn_browses hbrowses mode).ends
      exact (hnever.of_ok hopen).elim
    · exact absurd (hbrowses.isOpen.symm.trans hoffers.closed) (by simp)

/-- The header is believed, and nothing is there of all that it promises. -/
theorem Session.ends_early_overstated :
    ∃ t u, openIn .read overstated = .ok () t ∧ t.size = 10 ∧ Container.read 10 t = .ok [] u := by
  have hopen : (openIn .read).answer? overstated = some () := by decide +kernel
  have hread : (Container.read 10).answer? ((openIn .read).after overstated) = some [] := by
    decide +kernel
  exact ⟨_, _, Op.ok_of_answer? hopen, by decide +kernel, Op.ok_of_answer? hread⟩

/-- Five bytes were written, and the header promises ten. -/
theorem Session.read_out_overstated :
    ∃ s t : Session, Visited s ∧ openIn .read s = .ok () t ∧ t.size = 10 ∧
      ¬t.layout.Overfull t.size t.ciphertextSize ∧
      ∃ content : Bytes, content.length = 5 ∧ t.Gives content := by
  have hready : Ready (pristine "vault" (Processor.ofConfig ⟨[7]⟩ { chunkMax := 16 }) {}
      (Random.seeded 0)) .append 0 16 [] := .new (vacant_pristine (by decide) rfl rfl rfl)
  obtain ⟨m, raw, ct, e, hkeeps, hlength, hmaster, hfirst, hchunk⟩ :=
    hready.leaves_file rfl rfl [.write [1, 2, 3, 4, 5]] (by decide)
  have hnumber (p : Nat) : m.layout.seqnumOf? p = (Layout.ofSizes 0 16 0 0).seqnumOf? p := by
    rw [← hfirst, ← hchunk]
    rfl
  -- five bytes and ten would both end in the first chunk
  have hend : m.layout.seqnumOf? 5 = some 0 := by
    rw [hnumber]
    decide
  have hlast : m.layout.seqnumOf? 10 = some 0 := by
    rw [hnumber]
    decide
  obtain ⟨raw', hraw'⟩ : ∃ raw', raw' = raw.overlay Header.plaintextAt (Bytes.ofNatLE 8 10) :=
    ⟨_, rfl⟩
  let disk : Disk := { names := [("vault", 0)], files := [raw'] }
  let s : Session :=
    { pristine "vault" (Processor.ofConfig ⟨[7]⟩ { chunkMax := 16 }) {} (Random.seeded 0) with disk }
  have hs : s.Confronts m raw' := confronts_pristine hmaster.symm hkeeps.sealed.symm
  have hvisited : Visited s := by
    have hmade : Container.new "vault" (Processor.ofConfig ⟨[7]⟩ { chunkMax := 16 }) {}
        = .ok s.toContainer := rfl
    refine .given hmade (by decide) fun file hfile => ?_
    obtain rfl := List.mem_singleton.mp hfile
    rw [hraw', Bytes.length_overlay, Bytes.length_ofNatLE]
    have hplain : Header.plaintextAt + 8 < offsetLimit := by decide
    omega
  obtain ⟨t, hopen, hsize, hheld, -⟩ :=
    hkeeps.gives_overstated hend hlast (by decide) (by decide) hlength (hraw' ▸ hs)
      (rfl : Mode.read.isWrite = false)
  obtain ⟨hfits, -, content, hcontent, hgives⟩ := (Visited.read_out hvisited rfl).1 t hopen
  refine ⟨s, t, hvisited, hopen, hsize, hfits, content, ?_, hgives⟩
  rw [hcontent, hsize, hheld]
  rfl

end Vault
