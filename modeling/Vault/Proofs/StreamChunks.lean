import Vault.Proofs.Opening
import Vault.Proofs.StreamState

/-!
# `Vault/Proofs/StreamChunks.lean` — streamed chunks come from the file

A chunk that is read from the file is its part of the stored content (`Channel.chunk`), and it knows
that all of it is stored. **Writing a streamed chunk back writes nothing,** so leaving and flushing
one only marks it clean.
-/

set_option autoImplicit false

namespace Vault

namespace Processor

variable {p : Processor} {key packed plain : Bytes} {seqnum : Nat}

theorem unpackChunk_of_streaming (hstream : p.config.streaming = true)
    (hkey : p.streamKey = .ok key) (hopens : StreamEncryptor.openChunk key packed = .ok plain) :
    p.unpackChunk packed seqnum = .ok plain := by
  simp only [unpackChunk, hstream, if_true, hkey, hopens, mapError_ok]

theorem packChunk_of_streaming (hstream : p.config.streaming = true) (random : Random) :
    p.packChunk plain seqnum random = .ok [] random := by
  simp only [packChunk, hstream, if_true]
  rfl

end Processor

/-- A chunk of a content that is stored as far as it goes. -/
def Channel.chunk (g : Channel) (content : Bytes) (seqnum : Nat) : Chunk where
  seqnum := seqnum
  content := g.layout.part content seqnum
  maxSize := g.layout.capacity seqnum
  ciphertextSize :=
    if (g.layout.part content seqnum).length = 0 then 0
    else Salsa20.nonceSize + (g.layout.part content seqnum).length
  streamed := (g.layout.part content seqnum).length

namespace Session

open Container

variable {s s' : Session} {g : Channel} {ink : Ink} {c d data : Bytes} {x : Chunk} {i : Nat}
  {full : Prop}

namespace Tuned

theorem ensureOpen_does (h : s.Tuned g) {err : Session → Prop} :
    ensureOpen.Does full s (fun _ s' => s' = s) err := by
  unfold ensureOpen
  refine Op.Does.get_bind ?_
  rw [h.isOpen]
  exact Op.Does.pure rfl

/-- Packing gives nothing to write. -/
theorem flushChunk_does (h : s.Tuned g) (x : Chunk) {err : Session → Prop} :
    (flushChunk x).Does full s (fun y s' => y = { x with dirty := false } ∧ s.PassesBy s') err := by
  obtain ⟨p, hp⟩ := h.handle
  unfold flushChunk packChunk Raw.note
  refine Op.Does.bind (P := fun data s' => data = [] ∧ s.PassesBy s') ?_ ?_
  · refine Op.Does.modify_bind rfl (Op.Does.get_bind (Op.Does.ofDraw
      (Processor.packChunk_of_streaming h.streaming s.random) ⟨rfl, ?_⟩))
    exact ⟨_, beside_of_handle hp s.faults _ s.random⟩
  · rintro _ s' ⟨rfl, hpass⟩
    exact Op.Does.pure ⟨rfl, hpass⟩

theorem flushActive_does (h : s.Tuned g) (hx : s.current = some x) {err : Session → Prop} :
    flushActive.Does full s
      (fun _ s' => PassesBy { s with current := some { x with dirty := false } } s') err := by
  unfold flushActive
  refine Op.Does.bind (active_does hx) ?_
  rintro x s ⟨rfl, rfl⟩
  refine Op.Does.bind (h.flushChunk_does x) ?_
  rintro _ - ⟨rfl, y, rfl⟩
  exact Op.Does.modify rfl ⟨y, rfl⟩

/-- Writing the last chunk at most marks it clean. -/
theorem flushLast_does (h : s.Tuned g) {err : Session → Prop} :
    flushLast.Does full s (fun _ s' => ∃ current, PassesBy { s with current } s' ∧
      ((s.current = none ∧ current = none) ∨
        ∃ x dirty, s.current = some x ∧ current = some { x with dirty })) err := by
  unfold flushLast
  refine Op.Does.get_bind ?_
  cases hx : s.current with
  | none =>
    -- without a current chunk there is nothing to mark
    have hsame : ({ s with current := none } : Session) = s := by rw [← hx]
    exact Op.Does.pure ⟨none, hsame.symm ▸ PassesBy.refl s, .inl ⟨rfl, rfl⟩⟩
  | some x =>
    refine Op.Does.when (fun _ => ?_) fun _ => ?_
    · exact (h.flushActive_does hx).mono
        (fun _ s' h' => ⟨_, h', .inr ⟨x, false, rfl, rfl⟩⟩) fun _ => id
    · have hsame : ({ s with current := some x } : Session) = s := by rw [← hx]
      exact ⟨some x, hsame.symm ▸ PassesBy.refl s, .inr ⟨x, x.dirty, rfl, rfl⟩⟩

theorem unpackChunk_does (h : s.Tuned g) {plain : Bytes}
    (hopens : StreamEncryptor.openChunk g.key data = .ok plain) :
    (unpackChunk data i).Does full s (fun content s' => content = plain ∧ s.PassesBy s')
      s.PassesBy := by
  obtain ⟨p, hp⟩ := h.handle
  unfold unpackChunk
  refine Op.Does.bind (Raw.note_does hp _) ?_
  rintro - - ⟨y, -, rfl⟩
  exact Op.Does.get_bind (Op.Does.ofExcept
    (Processor.unpackChunk_of_streaming h.streaming h.streamKey hopens) ⟨rfl, y, rfl⟩)

theorem takePooled_does (h : s.Tuned g) (i : Nat) {err : Session → Prop} :
    (takePooled i).Does full s (fun found s' => found = none ∧ s' = s) err := by
  unfold takePooled
  refine Op.Does.get_bind ?_
  rw [h.useCache]
  exact Op.Does.pure ⟨rfl, rfl⟩

theorem retire_does (h : s.Tuned g) (x : Chunk) {err : Session → Prop} :
    (retire x).Does full s (fun _ s' => s.PassesBy s') err := by
  unfold retire
  refine Op.Does.get_bind ?_
  simp only [h.useCache, Bool.false_eq_true, if_false]
  refine Op.Does.when (fun _ => ?_) fun _ => PassesBy.refl s
  exact Op.Does.discard ((h.flushChunk_does x).mono (fun _ _ h' => h'.2) fun _ => id)

end Tuned

namespace Tuned

/-! ## Moving

A container with streamed chunks keeps no chunk but the current one. To move inside that one is
to set its place; to move anywhere else is to forget it and read. `hload` says what is to hold
once the new chunk was read, whether it comes from the file or is new. -/

section
variable {pos overwrite offset : Nat} {ok : Unit → Session → Prop} {err : Session → Prop}

/-- A container may be asked to move to places where it does not go. -/
theorem moveTo_refused (h : s.Tuned g)
    (hrefused : (if s.mode.isAppend then pos ≠ s.size else s.size < pos) ∨
      g.layout.seqnumOf? pos = none) (hfull : full) :
    (moveTo pos overwrite).Does full s (fun _ _ => False) (fun s' => s' = s) := by
  unfold moveTo
  refine Op.Does.bind h.ensureOpen_does ?_
  rintro - s rfl
  refine Op.Does.get_bind ?_
  by_cases hallowed : if s.mode.isAppend then pos ≠ s.size else s.size < pos
  · rw [if_pos hallowed]
    exact fun _ => ⟨.inr ⟨Fault.Worn.refl _, hfull⟩, rfl⟩
  · rw [if_neg hallowed]
    simp only [h.layout, Layout.locate?_eq_none_iff.mpr (hrefused.resolve_left hallowed)]
    exact fun _ => ⟨.inr ⟨Fault.Worn.refl _, hfull⟩, rfl⟩

/-- Inside the current chunk only the place changes. -/
theorem moveTo_here (h : s.Tuned g)
    (hallowed : ¬if s.mode.isAppend then pos ≠ s.size else s.size < pos)
    (hx : s.current = some x) (hplace : g.layout.locate? pos = some (x.seqnum, offset)) :
    (moveTo pos overwrite).Does full s
      (fun _ s' => s' = { s with current := some { x with offset }, cursor := pos }) err := by
  unfold moveTo
  refine Op.Does.bind h.ensureOpen_does ?_
  rintro - s rfl
  refine Op.Does.get_bind ?_
  rw [if_neg hallowed]
  simp only [h.layout, hplace, hx, Option.any_some, decide_true, if_true]
  exact Op.Does.modify rfl (by simp only [hx, Option.map_some, h.layout])

/-- A chunk is not found in memory, and is read. -/
theorem arrive_does (h : s.Tuned g)
    (hload : (loadChunk i offset overwrite).Does full s
      (fun y t => ok () { t with
        current := some { y with offset }, cursor := pos, eofSeqnum := max t.eofSeqnum i }) err) :
    Op.Does (do
      let chunk ← match ← takePooled i with
        | some chunk => pure chunk
        | none => loadChunk i offset overwrite
      modify fun s => { s with
        current := some { chunk with offset }
        cursor := pos
        eofSeqnum := max s.eofSeqnum i }) full s ok err := by
  refine Op.Does.bind (h.takePooled_does i) ?_
  rintro _ s ⟨rfl, rfl⟩
  exact Op.Does.bind hload fun y t hy => Op.Does.modify rfl hy

/-- **To another chunk a container moves by forgetting the one before** and reading the new one. -/
theorem moveTo_other (h : s.Tuned g)
    (hallowed : ¬if s.mode.isAppend then pos ≠ s.size else s.size < pos)
    (hplace : g.layout.locate? pos = some (i, offset))
    (hother : ∀ x, s.current = some x → x.seqnum ≠ i)
    (hload : ∀ u, PassesBy { s with current := none } u →
      (loadChunk i offset overwrite).Does full u
        (fun y t => ok () { t with
          current := some { y with offset }, cursor := pos, eofSeqnum := max t.eofSeqnum i }) err) :
    (moveTo pos overwrite).Does full s ok err := by
  have hforgotten : Tuned { s with current := none } g := { h with }
  have htuned (u : Session) (hu : PassesBy { s with current := none } u) : u.Tuned g := by
    obtain ⟨y, rfl⟩ := hu
    exact hforgotten.beside y
  unfold moveTo
  refine Op.Does.bind h.ensureOpen_does ?_
  rintro - s rfl
  refine Op.Does.get_bind ?_
  rw [if_neg hallowed]
  -- no current chunk, or one with another number: both are moved away from
  have hhere : ¬(s.current.any fun chunk => chunk.seqnum = i) = true := by
    cases hx : s.current with
    | none => simp
    | some x => simpa using hother x hx
  simp only [h.layout, hplace]
  rw [if_neg hhere]
  refine Op.Does.bind h.flushLast_does ?_
  -- flushing at most marked the chunk, and it is forgotten next
  rintro - - ⟨current, ⟨y, rfl⟩, hcurrent⟩
  refine Op.Does.get_bind (Op.Does.modify_bind rfl ?_)
  have hleft : PassesBy { s with current := none }
      { Session.beside { s with current } y with current := none } := ⟨y, rfl⟩
  simp only [current_beside]
  rcases hcurrent with ⟨-, rfl⟩ | ⟨x, dirty, -, rfl⟩
  · exact (htuned _ hleft).arrive_does (hload _ hleft)
  · -- a chunk that was current is retired, which writes nothing
    refine Op.Does.bind ((hforgotten.beside y).retire_does { x with dirty }) ?_
    intro _ u hu
    exact (htuned u (hleft.trans hu)).arrive_does (hload u (hleft.trans hu))

end

end Tuned

namespace Stocks

/-! ## Reading a chunk

The raw start of a chunk is compared with the end of the chunk data, both counted in contents and
overheads. How many nonces there are in front is what `chunksFor` counts, and it is what decides
whether the chunk has a place. -/

theorem rawPosOf_does (h : s.Stocks g ink d) (hr : g.layout.Reaches i)
    (hi : g.layout.startOf i ≤ d.length) :
    (rawPosOf i).Does full s (fun raw s' => raw = g.layout.rawStartOf i ∧ s.PassesBy s')
      s.PassesBy := by
  obtain ⟨p, hp⟩ := h.handle
  obtain ⟨j, hends⟩ := h.ends
  have hcounted := Nat.mul_le_mul_left Salsa20.nonceSize (hends.le_chunksFor hr hi)
  -- as many nonces are stored as there are chunks in front, and more if this one is stored too
  have hraw : g.layout.rawStartOf i ≤ s.eofPos := by
    rw [h.eofPos_eq, Layout.rawStartOf_eq (Tuned.packs g) hr, Metadata.dataOffset_layout]
    omega
  unfold rawPosOf
  refine Op.Does.get_bind (Op.Does.bind (Raw.size_does hp) ?_)
  rintro n s' ⟨rfl, y, rfl⟩
  simp only
  rw [if_neg (Nat.not_lt.mpr h.eofPos_le)]
  refine Op.Does.get_bind ?_
  rw [layout_beside, h.layout, if_neg (Nat.not_lt.mpr hraw)]
  exact Op.Does.pure ⟨rfl, y, rfl⟩


/-- A chunk that begins behind the chunk data has no place. -/
theorem rawPosOf_refused (h : s.Stocks g ink d) (hr : g.layout.Reaches i)
    (hi : d.length < g.layout.startOf i) (hfull : full) :
    (rawPosOf i).Does full s (fun _ _ => False) s.PassesBy := by
  obtain ⟨p, hp⟩ := h.handle
  obtain ⟨j, hends⟩ := h.ends
  have hcounted := Nat.mul_le_mul_left Salsa20.nonceSize (hends.chunksFor_le hi)
  -- the chunk data ends in front of the chunk, so that looking for it is refused without a fault
  have hraw : s.eofPos < g.layout.rawStartOf i := by
    rw [h.eofPos_eq, Layout.rawStartOf_eq (Tuned.packs g) hr, Metadata.dataOffset_layout]
    omega
  unfold rawPosOf
  refine Op.Does.get_bind (Op.Does.bind (Raw.size_does hp) ?_)
  rintro n s' ⟨rfl, y, rfl⟩
  simp only
  rw [if_neg (Nat.not_lt.mpr h.eofPos_le)]
  refine Op.Does.get_bind ?_
  rw [layout_beside, h.layout, if_pos hraw]
  exact fun _ => ⟨.inr ⟨Fault.Worn.refl _, hfull⟩, y, rfl⟩

/-- How much is read of a chunk. -/
theorem length_packed (h : s.Stocks g ink d) (hr : g.layout.Reaches i)
    (hi : g.layout.startOf i ≤ d.length) :
    min (s.processor.maxPackedSize i s.ciphertextSize) (s.eofPos - g.layout.rawStartOf i)
      = (g.chunk d i).ciphertextSize := by
  obtain ⟨e, hends⟩ := h.ends
  have heof := h.eofPos_eq
  have hraw := Layout.rawStartOf_eq (Tuned.packs g) hr
  have hct := h.eofPos_eq_add
  rw [← h.ciphertextSize, heof] at hct
  rw [Metadata.dataOffset_layout] at hraw
  rw [Processor.maxPackedSize, h.maxPlainSize, h.overhead, heof, hraw, Channel.chunk]
  simp only
  rcases Nat.lt_or_eq_of_le hi with hlt | heq
  · -- the chunk holds the end of what is stored, is full, or begins at that end
    by_cases hwithin : g.layout.Within i d.length
    · have hlast : g.layout.EndsIn i d.length :=
        { reaches := hr, start := hi, within := hwithin
          numbered := Nat.lt_of_le_of_lt (hends.le_of_startOf_le hr hlt) hends.numbered }
      have hleft : d.length - g.layout.startOf i ≠ 0 := by omega
      rw [hlast.chunksFor_eq, if_pos hlt, Nat.mul_succ] at hct ⊢
      rw [Layout.length_part_of_within hwithin, if_neg hleft]
      unfold Layout.Within at hwithin
      -- a chunk that is not bounded takes all that is left; one that is has room for it
      by_cases hcap : g.layout.capacity i = 0
      · rw [if_pos hcap]
        omega
      · rw [if_neg hcap]
        omega
    · obtain ⟨hcap, hbeyond⟩ : 0 < g.layout.capacity i ∧
          g.layout.startOf i + g.layout.capacity i < d.length := by
        unfold Layout.Within at hwithin
        omega
      -- the content goes on behind the chunk, so at least one more nonce is stored
      have hcounted := Nat.mul_le_mul_left Salsa20.nonceSize (hends.le_chunksFor (hr.succ hcap)
        (g.layout.startOf_succ i ▸ Nat.le_of_lt hbeyond))
      rw [Layout.length_part_of_le hcap (Nat.le_of_lt hbeyond), if_neg (Nat.ne_of_gt hcap),
        if_neg (Nat.ne_of_gt hcap)]
      rw [Nat.mul_succ] at hcounted
      omega
  · have hnil : (g.layout.part d i).length = 0 := by
      rw [Layout.length_part, heq]
      split <;> omega
    rw [hends.chunksFor_startOf hr heq, hnil]
    simp only [if_true]
    omega

/-- A chunk lies in the file at its raw start. -/
theorem slice_chunk (h : s.Stocks g ink d) (hr : g.layout.Reaches i)
    (hi : g.layout.startOf i < d.length) :
    g.layout.rawStartOf i + (Salsa20.nonceSize + (g.layout.part d i).length) ≤ s.eofPos ∧
      (s.disk.contents g.file).slice (g.layout.rawStartOf i)
        (Salsa20.nonceSize + (g.layout.part d i).length) = g.layout.streamed ink d i := by
  obtain ⟨e, hends⟩ := h.ends
  -- the nonce and the bytes behind it are a slice of what the file carries
  obtain ⟨told, rest, hcarries⟩ := h.carries
  have hsize : 0 < (g.layout.part d i).length := by
    rw [Layout.length_part]
    split <;> omega
  have hpacked := h.length_packed hr (Nat.le_of_lt hi)
  rw [Channel.chunk] at hpacked
  simp only [if_neg (Nat.ne_of_gt hsize)] at hpacked
  have hplace : g.layout.rawStartOf i + (Salsa20.nonceSize + (g.layout.part d i).length)
      ≤ s.eofPos := by omega
  refine ⟨hplace, ?_⟩
  rw [h.eofPos_eq_add] at hplace
  rw [hcarries.slice_eq (g.layout.dataOffset_le_rawStartOf i) hplace]
  exact hends.slice_ciphertext (Tuned.packs g) hr hi

/-- **What is read of a chunk is its part of what is stored.** -/
theorem loadChunk_does (h : s.Stocks g ink d) (hr : g.layout.Reaches i)
    (hi : g.layout.startOf i ≤ d.length) (offset : Nat) {overwrite : Nat}
    (hread : overwrite = 0 ∨ s.eofSeqnum ≤ i) :
    (loadChunk i offset overwrite).Does full s (fun y s' => y = g.chunk d i ∧ s.PassesBy s')
      s.PassesBy := by
  unfold loadChunk
  refine Op.Does.get_bind (Op.Does.bind (h.rawPosOf_does hr hi) ?_)
  rintro _ - ⟨rfl, x, rfl⟩
  refine Op.Does.get_bind ?_
  rw [processor_beside, ciphertextSize_beside, eofPos_beside, eofSeqnum_beside,
    h.length_packed hr hi, h.maxPlainSize]
  by_cases hnone : (g.layout.part d i).length = 0
  · -- nothing of the chunk is stored
    have hempty : (g.chunk d i).ciphertextSize = 0 := if_pos hnone
    have hchunk : Chunk.new i (g.layout.capacity i) = g.chunk d i := by
      simp [Channel.chunk, Chunk.new, List.length_eq_zero_iff.mp hnone]
    simp only [hempty, if_true, hchunk]
    exact Op.Does.pure ⟨rfl, x, rfl⟩
  have hct : (g.chunk d i).ciphertextSize
      = Salsa20.nonceSize + (g.layout.part d i).length := if_neg hnone
  have hlt : g.layout.startOf i < d.length := by
    rw [Layout.length_part] at hnone
    split at hnone <;> omega
  -- a chunk is read even if all of it will be overwritten, for it is the last one or nothing will
  -- be
  have hnoSkip : ¬(offset = 0 ∧ g.layout.capacity i ≠ 0 ∧ g.layout.capacity i ≤ overwrite ∧
      i < s.eofSeqnum) := by omega
  rw [if_neg (by rw [hct]; exact Nat.ne_of_gt (Nat.add_pos_left (by decide) _)), if_neg hnoSkip]
  obtain ⟨p, hp⟩ := h.handle
  obtain ⟨hplace, hslice⟩ := h.slice_chunk hr hlt
  rw [← hct] at hplace hslice
  refine Op.Does.bind (s.passesBy_beside x ▸ Raw.seek_does (handle_beside hp x) _) ?_
  rintro - - ⟨y, hy, rfl⟩
  rw [beside_beside]
  refine Op.Does.bind (s.passesBy_beside y ▸ Raw.read_does (handle_beside hp y) _) ?_
  rintro data - ⟨hdata, z, -, rfl⟩
  -- the bytes that were read are the nonce and what was encrypted with it
  replace hdata : data = g.layout.streamed ink d i := by
    rw [hdata, ← hslice, ← hy]
    rfl
  have hlength : data.length = (g.chunk d i).ciphertextSize := by
    rw [hdata, Layout.length_streamed, hct]
  rw [beside_beside]
  simp only [hlength, ne_eq, not_true_eq_false, if_false]
  have hopens : StreamEncryptor.openChunk g.key data = .ok (g.layout.part d i) := by
    rw [hdata, ← h.key]
    exact Layout.openChunk_streamed
  refine Op.Does.bind (s.passesBy_beside z ▸ (h.toTuned.beside z).unpackChunk_does hopens) ?_
  rintro _ s' ⟨rfl, hpass⟩
  exact Op.Does.pure ⟨rfl, hpass⟩

theorem loadChunk_refused (h : s.Stocks g ink d) (hr : g.layout.Reaches i)
    (hi : d.length < g.layout.startOf i) (offset overwrite : Nat) (hfull : full) :
    (loadChunk i offset overwrite).Does full s (fun _ _ => False) s.PassesBy := by
  unfold loadChunk
  exact Op.Does.get_bind
    (Op.Does.bind (h.rawPosOf_refused hr hi hfull) fun _ _ => False.elim)

end Stocks

end Session

end Vault
