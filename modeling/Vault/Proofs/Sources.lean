import Vault.Disk
import Vault.Mode
import Vault.Proofs.Checked
import Vault.Proofs.Metadata
import Vault.Proofs.Parts
import Vault.Proofs.Sealing

/-!
# `Vault/Proofs/Sources.lean` — what a raw file has to offer

A container that is only read believes a header. Nothing protects the sizes in it, and the chunks
behind it may be anything. A `Source` is such a raw file together with the numbers that were taken
from its header: where a chunk should lie, how many bytes there are of it, and what they open to, if
they do.

Opening checks the numbers against each other (`Source.Sound`), and that is enough for this: **every
chunk in front of the last one is all there, and a chunk that opens is as long as the layout says.**
So all chunks that open are the parts of one content (`Source.Serves`), and its length is known
before any of them is read.
-/

set_option autoImplicit false

namespace Vault

/-! ## The length of what opens

Sealing and streaming each have their own overhead, and nothing opens that is shorter. So the length
of a plain chunk is known from that of the packed one, without the key. -/

theorem StreamEncryptor.length_of_openChunk {key packed plain : Bytes}
    (h : openChunk key packed = .ok plain) : plain.length = packed.length - Salsa20.nonceSize := by
  unfold openChunk at h
  split at h
  · exact absurd h (by simp)
  · next hlen =>
    have hnonce : (packed.take Salsa20.nonceSize).length = Salsa20.nonceSize := by
      rw [List.length_take]
      omega
    simp only [start, if_pos hnonce, bind, Except.bind, pure, Except.pure, Except.ok.injEq] at h
    rw [← h, length_apply, List.length_drop]

namespace Processor

variable {p : Processor}

theorem length_of_unpackChunk {packed plain : Bytes} {i : Nat}
    (h : p.unpackChunk packed i = .ok plain) : plain.length = packed.length - p.overhead := by
  have hinner {α : Type} {x : Except CryptoError α} {a : α} (hx : x.mapError Error.crypto = .ok a) :
      x = .ok a := by
    cases x with
    | ok b => simpa using hx
    | error e => exact absurd (show Except.error (Error.crypto e) = .ok a from hx) (by simp)
  unfold unpackChunk at h
  unfold overhead
  split at h
  · next hstreaming =>
    rw [if_pos hstreaming]
    cases hkey : p.streamKey with
    | error e =>
      simp only [hkey] at h
      exact absurd h (by simp)
    | ok key =>
      simp only [hkey] at h
      exact StreamEncryptor.length_of_openChunk (hinner h)
  · next hstreaming =>
    rw [if_neg hstreaming]
    cases hkeys : p.workingKeys with
    | error e =>
      simp only [hkeys] at h
      exact absurd h (by simp)
    | ok keys =>
      simp only [hkeys] at h
      exact ChunkCipher.length_of_unpack (hinner h)

/-- The fields of a header are as wide as they are. -/
theorem unpackHeader_lt {data : Bytes} {info : HeaderInfo} (h : p.unpackHeader data = .ok info) :
    info.plaintextSize < offsetLimit ∧ info.descriptorSize < 0x10000 ∧
      info.ciphertextSize < offsetLimit := by
  unfold unpackHeader at h
  split at h
  · exact absurd h (by simp)
  · next header _ =>
    split at h
    · obtain rfl := Except.ok.inj h
      exact ⟨header.plaintextSize.toNat_lt, header.descriptorSize.toNat_lt,
        header.ciphertextSize.toNat_lt⟩
    · exact absurd h (by simp)

/-- Every processor packs its chunks in the same way. -/
theorem packs_layout (p : Processor) (dataOffset : Nat) :
    (p.layout dataOffset).Packs p.overhead where
  firstPacked := rfl
  packed := rfl
  plain := fun h => by
    simp only [layout, maxPlainSize, Nat.one_ne_zero, false_and, if_false, true_and] at h ⊢
    split at h
    · next hfirst => exact absurd (UInt32.toNat_inj.mp h) hfirst
    · exact h

@[simp] theorem capacity_layout (p : Processor) (dataOffset i : Nat) :
    (p.layout dataOffset).capacity i = p.maxPlainSize i := by
  unfold Layout.capacity
  split
  · next hi => rw [hi]; rfl
  · next hi => simp [layout, maxPlainSize, hi]

end Processor

/-! ## A content for pieces that fit

What opens is a family of pieces, one for each number, and nothing yet says that they belong
together. Any pieces that fill their chunks are the parts of one content: it is put together from
the first chunk on, so the induction is on the number of the last. -/

namespace Layout

variable {l : Layout}

/-- Pieces that fill their chunks are the parts of a content. -/
theorem exists_parts {e : Nat} (piece : Nat → Bytes) (hr : l.Reaches e)
    (hfull : ∀ i < e, (piece i).length = l.capacity i)
    (hlast : l.Within e (l.startOf e + (piece e).length)) :
    ∃ d : Bytes, d.length = l.startOf e + (piece e).length ∧ ∀ i ≤ e, l.part d i = piece i := by
  have hend {d : Bytes} {e : Nat} (hd : d.length = l.startOf e) (p : Bytes)
      (hp : l.Within e (l.startOf e + p.length)) : l.part (d ++ p) e = p := by
    rw [part_eq_drop (by rwa [List.length_append, hd]), ← hd, List.drop_left]
  -- One more chunk is put behind a content that ends where it begins.
  induction e with
  | zero =>
    refine ⟨[] ++ piece 0, by simp, fun i hi => ?_⟩
    obtain rfl : i = 0 := Nat.le_zero.mp hi
    exact hend rfl _ hlast
  | succ e ih =>
    have hcap := hr e (Nat.lt_succ_self e)
    have hpiece := hfull e (Nat.lt_succ_self e)
    obtain ⟨d, hd, hparts⟩ := ih (hr.mono (Nat.le_succ e))
      (fun i hi => hfull i (Nat.lt_succ_of_lt hi)) (.inr (by omega))
    have hlen : d.length = l.startOf (e + 1) := by rw [hd, hpiece, startOf_succ]
    refine ⟨d ++ piece (e + 1), by rw [List.length_append, hlen], fun i hi => ?_⟩
    rcases Nat.lt_or_eq_of_le hi with hlt | rfl
    · have hin := l.startOf_add_capacity_le hlt
      rw [← hparts i (Nat.le_of_lt_succ hlt),
        ← part_take_of_le (c := d ++ piece (e + 1)) (n := d.length)
          (hr i hlt) (by omega), List.take_left]
    · exact hend hlen _ hlast

/-- The chunk in which a streamed content ends has just the bytes that are left for it. -/
theorem streamedSize_eq {ct lead last : Nat} (hp : l.Packs lead)
    (hlast : l.seqnumOf? (l.streamedSize ct lead) = some last) :
    l.streamedSize ct lead = l.startOf last + (ct - (l.rawStartOf last - l.dataOffset) - lead) := by
  -- The end of the content lies in chunk 0.
  have hzero {size : Nat} (hsize : size = ct - lead)
      (hin : l.firstPlain = 0 ∨ size < l.firstPlain) (hl : l.seqnumOf? size = some last) :
      size = l.startOf last + (ct - (l.rawStartOf last - l.dataOffset) - lead) := by
    rw [seqnumOf?, if_pos hin, Option.some.injEq] at hl
    rw [← hl, hsize]
    simp
  unfold streamedSize at hlast ⊢
  split at hlast
  · next hct =>
    rw [if_pos hct]
    refine hzero (by omega) (by omega) hlast
  · next hct =>
    rw [if_neg hct]
    split at hlast
    · next hin =>
      rw [if_pos hin]
      by_cases hless : l.firstPlain = 0 ∨ ct - lead < l.firstPlain
      · exact hzero rfl hless hlast
      -- Chunk 0 is exactly full, and the end counts as the start of chunk 1.
      · obtain ⟨hfirst, hge⟩ := not_or.mp hless
        have hfp := hp.firstPacked_eq hfirst
        have hone : last = 1 := by
          have hsize : ct - lead = l.firstPlain := by omega
          rw [hsize, seqnumOf?, if_neg (by omega)] at hlast
          split at hlast
          · simpa using hlast.symm
          · simp only [Nat.sub_self, Nat.zero_div, Nat.zero_add] at hlast
            rw [if_pos (by decide)] at hlast
            simpa using hlast.symm
        subst hone
        simp only [startOf, rawStartOf, Nat.one_ne_zero, if_false, Nat.sub_self, Nat.zero_mul]
        omega
    · next hin =>
      rw [if_neg hin]
      obtain ⟨hfirst, hbehind⟩ := not_or.mp hin
      have hfp := hp.firstPacked_eq hfirst
      simp only at hlast ⊢
      split at hlast
      · next hplain =>
        rw [if_pos hplain]
        rw [seqnumOf?, if_neg (by omega), if_pos hplain, Option.some.injEq] at hlast
        subst hlast
        simp only [startOf, rawStartOf, Nat.one_ne_zero, if_false, Nat.sub_self, Nat.zero_mul]
        omega
      · next hplain =>
        rw [if_neg hplain]
        have hpk := hp.packed_eq hplain
        have hmod := Nat.div_add_mod (ct - l.firstPacked) l.packed
        have hlt := Nat.mod_lt (ct - l.firstPacked) (y := l.packed) (by omega)
        rw [Nat.mul_comm] at hmod
        generalize (ct - l.firstPacked) / l.packed = q at hlast hmod ⊢
        generalize (ct - l.firstPacked) % l.packed = r at hlast hmod hlt ⊢
        -- As many chunks as went in whole, and the one behind them.
        have hnext : last = q + 1 := by
          rw [seqnumOf?, if_neg (by omega), if_neg hplain] at hlast
          simp only [Option.ite_none_right_eq_some, Option.some.injEq] at hlast
          have hdiv : (l.firstPlain + q * l.plain + (r - lead) - l.firstPlain) / l.plain = q := by
            rw [Nat.div_eq_iff (Nat.pos_of_ne_zero hplain)]
            omega
          rw [hdiv] at hlast
          exact hlast.2.symm
        subst hnext
        simp only [startOf, rawStartOf, Nat.succ_ne_zero, if_false, Nat.add_sub_cancel]
        omega

end Layout

/-! ## Sources

`Source.chunk` is what reading a chunk comes to, told without a session. The numbers in a source are
what the container believes, and `Sound` is all that is assumed of them; that a chunk opens is never
assumed, only what follows when it does. -/

/-- Where a raw file is looked for. -/
structure Place where
  disk : Disk
  path : String
  /-- Are there no faults? -/
  calm : Bool

/-- A raw file that is open to be read, with the numbers that were taken from it. -/
structure Source extends Place where
  file : Nat
  mode : Mode
  processor : Processor
  layout : Layout
  /-- The size of the content, as the header tells it. -/
  size : Nat
  /-- The size of the chunk data, as the header tells it. -/
  ciphertextSize : Nat
  /-- The number of the chunk that holds the end. -/
  last : Nat

namespace Source

/-- The bytes of the raw file. -/
def raw (v : Source) : Bytes := v.disk.contents v.file

/-- The raw offset behind the chunk data. -/
def eofPos (v : Source) : Nat := v.layout.dataOffset + v.ciphertextSize

/-- The bytes that there are of a chunk. -/
def stored (v : Source) (i : Nat) : Nat :=
  min (v.processor.maxPackedSize i v.ciphertextSize) (v.eofPos - v.layout.rawStartOf i)

/-- What a chunk opens to, if it does. Of a chunk that is not there nothing has to open. -/
def chunk (v : Source) (i : Nat) : Except Error Bytes :=
  if v.stored i = 0 then .ok []
  else v.processor.unpackChunk (v.raw.slice (v.layout.rawStartOf i) (v.stored i)) i

/-- The size of the content as far as there is chunk data for it. -/
def served (v : Source) : Nat :=
  v.layout.startOf v.last + (v.stored v.last - v.processor.overhead)

/-- The numbers go together as far as opening checks them. -/
structure Sound (v : Source) : Prop where
  readOnly : v.mode.isWrite = false
  layout : v.layout = v.processor.layout v.layout.dataOffset
  present : v.eofPos ≤ v.raw.length
  end_lt : v.eofPos < offsetLimit
  size_lt : v.size < offsetLimit
  last : v.layout.seqnumOf? v.size = some v.last
  fits : v.layout.rawStartOf v.last ≤ v.eofPos
  streamed : v.processor.config.streaming = true →
    v.size = v.layout.streamedSize v.ciphertextSize v.processor.streamLead

/-- The chunks that open are the parts of this content. -/
structure Serves (v : Source) (d : Bytes) : Prop where
  start : v.layout.startOf v.last ≤ d.length
  within : v.layout.Within v.last d.length
  parts : ∀ i ≤ v.last, ∀ content, v.chunk i = .ok content → content = v.layout.part d i

variable {v : Source} {i p : Nat} {content d : Bytes}

namespace Sound

theorem isAppend (h : v.Sound) : v.mode.isAppend = false := by
  cases happend : v.mode.isAppend with
  | false => rfl
  | true => exact absurd (h.readOnly.symm.trans (Mode.isWrite_of_isAppend happend)) (by decide)

theorem packs (h : v.Sound) : v.layout.Packs v.processor.overhead := by
  rw [h.layout]
  exact v.processor.packs_layout _

theorem small (h : v.Sound) : v.layout.Small := by
  rw [h.layout]
  exact v.processor.small_layout _

theorem capacity (h : v.Sound) (i : Nat) : v.layout.capacity i = v.processor.maxPlainSize i := by
  rw [h.layout, Processor.capacity_layout]

theorem reaches (h : v.Sound) : v.layout.Reaches v.last :=
  (Layout.seqnumOf?_eq_some_iff.mp h.last).1

/-- Positions up to the end lie in chunks up to the last one. -/
theorem seqnumOf?_le (h : v.Sound) (hp : p ≤ v.size) :
    ∃ i ≤ v.last, v.layout.seqnumOf? p = some i := by
  obtain ⟨i, hi⟩ := Option.isSome_iff_exists.mp
    (Layout.seqnumOf?_isSome_of_le hp (by rw [h.last]; rfl))
  exact ⟨i, Layout.seqnumOf?_mono hi h.last hp, hi⟩

theorem rawStart_le (h : v.Sound) (hi : i ≤ v.last) : v.layout.rawStartOf i ≤ v.eofPos :=
  Nat.le_trans (v.layout.rawStartOf_mono hi) h.fits

theorem rawStart_add_stored_le (h : v.Sound) (hi : i ≤ v.last) :
    v.layout.rawStartOf i + v.stored i ≤ v.raw.length := by
  have hstart := h.rawStart_le hi
  have hpresent := h.present
  have hle : v.stored i ≤ v.eofPos - v.layout.rawStartOf i := Nat.min_le_right _ _
  omega

/-- **Every chunk in front of the last one is all there.** -/
theorem stored_eq (h : v.Sound) (hi : i < v.last) :
    0 < v.layout.capacity i ∧ v.stored i = v.layout.capacity i + v.processor.overhead := by
  have hcap := h.reaches i hi
  have hend := Layout.rawStartOf_add_le h.packs h.reaches hi
  have hfits := h.fits
  rw [h.capacity] at hcap hend ⊢
  refine ⟨hcap, ?_⟩
  rw [stored, Processor.maxPackedSize, if_neg (by omega)]
  omega

/-- No chunk has more bytes than its capacity takes. -/
theorem stored_le (h : v.Sound) (i : Nat) :
    v.layout.capacity i = 0 ∨ v.stored i ≤ v.layout.capacity i + v.processor.overhead := by
  rw [h.capacity, stored, Processor.maxPackedSize]
  split
  · exact .inl ‹_›
  · exact .inr (Nat.min_le_left _ _)

theorem length_chunk (h : v.Sound) (hi : i ≤ v.last) (hc : v.chunk i = .ok content) :
    content.length = v.stored i - v.processor.overhead := by
  unfold chunk at hc
  split at hc
  · next hnone =>
    obtain rfl : ([] : Bytes) = content := by simpa using hc
    simp [hnone]
  · have hend := h.rawStart_add_stored_le hi
    rw [Processor.length_of_unpackChunk hc, Bytes.length_slice]
    omega

/-- A chunk in front of the last one that opens is full. -/
theorem length_chunk_of_lt (h : v.Sound) (hi : i < v.last) (hc : v.chunk i = .ok content) :
    0 < v.layout.capacity i ∧ content.length = v.layout.capacity i := by
  obtain ⟨hcap, hstored⟩ := h.stored_eq hi
  rw [h.length_chunk (Nat.le_of_lt hi) hc, hstored, Nat.add_sub_cancel]
  exact ⟨hcap, rfl⟩

theorem within_chunk (h : v.Sound) (hi : i ≤ v.last) (hc : v.chunk i = .ok content) :
    v.layout.Within i (v.layout.startOf i + content.length) := by
  rw [h.length_chunk hi hc]
  rcases h.stored_le i with hcap | hle
  · exact .inl hcap
  · exact .inr (by omega)

/-- **All chunks that open are the parts of one content,** whose length the numbers tell. -/
theorem serves (h : v.Sound) : ∃ d : Bytes, v.Serves d ∧ d.length = v.served := by
  let piece (i : Nat) : Bytes :=
    (v.chunk i).toOption.getD (Bytes.zeros (v.stored i - v.processor.overhead))
  have hlength {i : Nat} (hi : i ≤ v.last) :
      (piece i).length = v.stored i - v.processor.overhead := by
    cases hc : v.chunk i with
    | ok content => simpa [piece, hc, Except.toOption] using h.length_chunk hi hc
    | error e => simp [piece, hc, Except.toOption]
  have hlast : v.layout.Within v.last v.served := by
    rcases h.stored_le v.last with hcap | hle
    · exact .inl hcap
    · exact .inr (by rw [served]; omega)
  have hfull (i : Nat) (hi : i < v.last) : (piece i).length = v.layout.capacity i := by
    rw [hlength (Nat.le_of_lt hi), (h.stored_eq hi).2, Nat.add_sub_cancel]
  obtain ⟨d, hd, hparts⟩ := Layout.exists_parts piece h.reaches hfull
    (by rwa [hlength (Nat.le_refl _)])
  rw [hlength (Nat.le_refl _)] at hd
  refine ⟨d, ⟨by omega, hd ▸ hlast, fun i hi content hc => ?_⟩, hd⟩
  rw [hparts i hi]
  simp [piece, hc, Except.toOption]

/-- **Of a streamed container the header does not tell the size of the content,** and so there is
chunk data for all of it. -/
theorem served_of_streaming (h : v.Sound) (hstreaming : v.processor.config.streaming = true) :
    v.served = v.size := by
  have hlead : v.processor.streamLead = v.processor.overhead := by
    rw [Processor.streamLead, Processor.overhead, if_pos hstreaming, if_pos hstreaming]
  have hstream := h.streamed hstreaming
  rw [hlead] at hstream
  have hlast := h.last
  rw [hstream] at hlast
  have hsize := Layout.streamedSize_eq h.packs hlast
  have hdata := v.layout.dataOffset_le_rawStartOf v.last
  have hend : v.eofPos = v.layout.dataOffset + v.ciphertextSize := rfl
  rw [← hstream] at hsize
  have hin := (Layout.seqnumOf?_eq_some_iff.mp h.last).2.2.1
  rw [served, hsize]
  congr 1
  -- A bounded last chunk has no more bytes left for it than it takes.
  rw [stored, Processor.maxPackedSize, ← h.capacity]
  split
  · omega
  · omega

end Sound

/-- What is left of a content from a chunk that opens is read in that chunk. -/
theorem Serves.slice_chunk (h : v.Serves d) (hv : v.Sound) (hi : i ≤ v.last)
    (hc : v.chunk i = .ok content) {off n : Nat} (hn : off + n ≤ content.length) :
    content.slice off n = d.slice (v.layout.startOf i + off) n := by
  have hwithin := hv.within_chunk hi hc
  have hpart := h.parts i hi content hc
  rw [hpart]
  refine Layout.slice_part d ?_
  unfold Layout.Within at hwithin ⊢
  omega

/-- The last chunk, if it opens, is all that is left of the content. -/
theorem Serves.length_last (h : v.Serves d) (hc : v.chunk v.last = .ok content) :
    d.length = v.layout.startOf v.last + content.length := by
  have hstart := h.start
  rw [h.parts v.last (Nat.le_refl _) content hc, Layout.length_part_of_within h.within]
  omega

end Source

/-! ## What opening finds

The checks of opening are told here as a function from a disk to a source, in the order the
container makes them. That opening is this function is proved with the container; here it is enough
that a source it finds is sound (`Place.sound_of_survey`). -/

/-- The sizes and the keys that a raw file begins with. -/
def Processor.readMetadata (p : Processor) (raw : Bytes) : Except Error (HeaderInfo × Processor) :=
  let header := raw.slice 0 Header.size
  if header.length ≠ Header.size then
    .error (.malformed (.shortHeader Header.size header.length))
  else
    match p.unpackHeader header with
    | .error e => .error e
    | .ok info =>
      let descriptor := raw.slice Header.size info.descriptorSize
      if descriptor.length ≠ info.descriptorSize then
        .error (.malformed (.shortDescriptor info.descriptorSize descriptor.length))
      else
        match p.unpackDescriptor descriptor with
        | .error e => .error e
        | .ok processor => .ok (info, processor)

namespace Place

/-- The sizes of a content and of its chunk data, if they go with the file and the layout. -/
def fit (w : Place) (mode : Mode) (file : Nat) (processor : Processor) (layout : Layout)
    (size ciphertextSize : Nat) : Except Error Source :=
  let found := (w.disk.contents file).length - layout.dataOffset
  if found < ciphertextSize then .error (.malformed (.missingData found ciphertextSize))
  else
    match layout.seqnumOf? size with
    | none => .error (.malformed (.unaddressable size))
    | some last =>
      match layout.packedBefore? last with
      | none => .error (.malformed (.overfull size ciphertextSize))
      | some needed =>
        if ciphertextSize < needed then .error (.malformed (.overfull size ciphertextSize))
        else .ok { w with file, mode, processor, layout, size, ciphertextSize, last }

/-- The sizes in a header as they are taken over. Of a streamed container the size of the content is
not taken from there. -/
def measure (w : Place) (mode : Mode) (file : Nat) (info : HeaderInfo) (processor : Processor) :
    Except Error Source :=
  let layout := processor.layout (Header.size + info.descriptorSize)
  let size := if processor.config.streaming
    then layout.streamedSize info.ciphertextSize processor.streamLead
    else info.plaintextSize
  w.fit mode file processor layout size info.ciphertextSize

/-- **What opening finds in the raw file.** -/
def survey (w : Place) (mode : Mode) (p : Processor) : Except Error Source :=
  match w.disk.find? w.path with
  | none => .error (.file .notFound)
  | some file =>
    match p.readMetadata (w.disk.contents file) with
    | .error e => .error e
    | .ok (info, processor) => w.measure mode file info processor

variable {w : Place} {mode : Mode} {p processor : Processor} {file : Nat} {info : HeaderInfo}
  {v : Source}

/-- In a raw file that is there, the metadata are read first and then measured. -/
theorem survey_eq_bind (mode : Mode) (p : Processor) (h : w.disk.find? w.path = some file) :
    w.survey mode p = (p.readMetadata (w.disk.contents file)).bind
      fun found => w.measure mode file found.1 found.2 := by
  unfold survey
  cases hread : p.readMetadata (w.disk.contents file) with
  | error e => simp only [h, hread, Except.bind]
  | ok found => simp only [h, hread, Except.bind]

/-- The source that a header's numbers make. -/
theorem measure_eq_ok (h : w.measure mode file info processor = .ok v) :
    v.toPlace = w ∧ v.mode = mode ∧ v.file = file ∧ v.processor = processor ∧
      v.layout = processor.layout (Header.size + info.descriptorSize) ∧
      v.ciphertextSize = info.ciphertextSize ∧
      v.size = (if processor.config.streaming
        then v.layout.streamedSize info.ciphertextSize processor.streamLead
        else info.plaintextSize) ∧
      v.ciphertextSize ≤ v.raw.length - v.layout.dataOffset ∧
      v.layout.seqnumOf? v.size = some v.last ∧
      ∃ needed ≤ v.ciphertextSize, v.layout.packedBefore? v.last = some needed := by
  unfold measure fit at h
  simp only at h
  split at h
  · exact absurd h (by simp)
  · next hfound =>
    split at h
    · exact absurd h (by simp)
    · next last hlast =>
      split at h
      · exact absurd h (by simp)
      · next needed hneeded =>
        split at h
        · exact absurd h (by simp)
        · next hfits =>
          rw [Except.ok.injEq] at h
          subst h
          exact ⟨rfl, rfl, rfl, rfl, rfl, rfl, rfl, Nat.not_lt.mp hfound, hlast, needed,
            Nat.not_lt.mp hfits, hneeded⟩

/-- A file that begins with metadata is at least as long as those. -/
theorem readMetadata_eq_ok {raw : Bytes} (h : p.readMetadata raw = .ok (info, processor)) :
    Header.size + info.descriptorSize ≤ raw.length ∧ info.plaintextSize < offsetLimit ∧
      p.unpackHeader (raw.slice 0 Header.size) = .ok info ∧
      p.unpackDescriptor (raw.slice Header.size info.descriptorSize) = .ok processor := by
  unfold Processor.readMetadata at h
  simp only at h
  split at h
  · exact absurd h (by simp)
  · next hheader =>
    split at h
    · exact absurd h (by simp)
    · next found hfound =>
      split at h
      · exact absurd h (by simp)
      · next hdescriptor =>
        split at h
        · exact absurd h (by simp)
        · next opened hopened =>
          obtain ⟨rfl, rfl⟩ : found = info ∧ opened = processor := by simpa using h
          rw [Bytes.length_slice] at hheader hdescriptor
          refine ⟨by omega, (Processor.unpackHeader_lt hfound).1, hfound, hopened⟩

theorem toPlace_of_survey (h : w.survey mode p = .ok v) : v.toPlace = w := by
  unfold survey at h
  split at h
  · exact absurd h (by simp)
  · split at h
    · exact absurd h (by simp)
    · exact (measure_eq_ok h).1

/-- The raw file, if there is one, has a length of 64 bits. -/
def Addressable (w : Place) : Prop :=
  ∀ file, w.disk.find? w.path = some file → (w.disk.contents file).length < offsetLimit

/-- **Numbers that pass the checks of opening go together.** -/
theorem sound_of_survey (hmode : mode.isWrite = false) (h : w.survey mode p = .ok v)
    (hw : w.Addressable) : v.Sound := by
  unfold survey at h
  split at h
  · exact absurd h (by simp)
  · next file hfile =>
    split at h
    · exact absurd h (by simp)
    · next info processor hread =>
      obtain ⟨hplace, rfl, rfl, rfl, hlayout, hct, hsize, hfound, hlast, needed, hle, hneeded⟩ :=
        measure_eq_ok h
      subst hplace
      have hraw : v.raw.length < offsetLimit := hw v.file hfile
      obtain ⟨hlong, hplain, -, -⟩ := readMetadata_eq_ok hread
      have hdata : v.layout.dataOffset = Header.size + info.descriptorSize := by
        rw [hlayout]
        rfl
      have hstart := Layout.rawStartOf_eq_add hneeded
      have hpresent : v.eofPos ≤ v.raw.length := by
        change _ ≤ v.raw.length at hlong
        rw [Source.eofPos]
        omega
      have hstreamed (hstreaming : v.processor.config.streaming = true) :
          v.size = v.layout.streamedSize v.ciphertextSize v.processor.streamLead := by
        rw [hsize, if_pos hstreaming, hct]
      refine
        { readOnly := hmode
          layout := by rw [hdata]; exact hlayout
          present := hpresent
          end_lt := by omega
          size_lt := ?size
          last := hlast
          fits := by rw [hstart, Source.eofPos]; omega
          streamed := hstreamed }
      -- A streamed size is computed and bounded by the chunk data; the other one was read from 8
      -- bytes.
      cases hstreaming : v.processor.config.streaming with
      | false =>
        rw [hsize, hstreaming]
        exact hplain
      | true =>
        have hlead : v.processor.streamLead = v.processor.overhead := by
          rw [Processor.streamLead, Processor.overhead, if_pos hstreaming, if_pos hstreaming]
        have hpacks : v.layout.Packs v.processor.overhead := by
          rw [hlayout]
          exact v.processor.packs_layout _
        have hreaches := (Layout.seqnumOf?_eq_some_iff.mp hlast).1
        have hstream := hstreamed hstreaming
        rw [hlead] at hstream
        rw [hstream] at hlast
        have hends := Layout.streamedSize_eq hpacks hlast
        have hbegin := Layout.rawStartOf_eq hpacks hreaches
        have heof : v.eofPos = v.layout.dataOffset + v.ciphertextSize := rfl
        omega

end Place

end Vault
