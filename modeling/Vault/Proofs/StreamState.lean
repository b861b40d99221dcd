import Vault.Proofs.Ciphertext
import Vault.Proofs.Ledger
import Vault.Proofs.Trail

/-!
# `Vault/Proofs/StreamState.lean` — a container that is added to

The invariant of a container with streamed chunks that is open for appending. Its file holds the
chunk data of a content (`Metadata.Carries`), and two contents go through all of it: the one that
was *placed* and the one that is *stored*. **What is stored is the start of what was placed,
always;** where all writing succeeded the two are the same. The chunk being worked on knows how much
of it is stored, and the header may tell of an even earlier content.

Whether the key stream stands where the next byte belongs is no part of the invariant
(`Session.InStep`). After a write that failed it need not.
-/

set_option autoImplicit false

namespace Vault

/-! ## Files

The file is given as a whole: header, descriptor, chunk data and a rest. Three contents can be in
it at once, because the sizes are written late: the one that the header tells of, the one that is
stored, and, in memory only, the one that is placed. -/

namespace Metadata

variable {m : Metadata} {raw : Bytes} {ink : Ink} {told stored rest : Bytes}

theorem packs_of_streaming (h : m.streaming = true) : m.layout.Packs Salsa20.nonceSize := by
  have hp := m.packs_layout
  rwa [show m.overhead = Salsa20.nonceSize by simp [overhead, h]] at hp

/-- A raw file in streamed chunks: a header that tells of a content, the descriptor, the chunk data
of a content, and a rest. -/
structure Carries (m : Metadata) (raw : Bytes) (ink : Ink) (told stored rest : Bytes) : Prop where
  raw_eq : ∃ plaintextSize < offsetLimit,
    raw = m.header plaintextSize (m.layout.ciphertext ink told).length
      ++ (m.descriptor ++ (m.layout.ciphertext ink stored ++ rest))
  told : told <+: stored

namespace Carries

theorem length_eq (h : m.Carries raw ink told stored rest) :
    raw.length = m.dataOffset + (m.layout.ciphertext ink stored).length + rest.length := by
  obtain ⟨n, -, rfl⟩ := h.raw_eq
  simp only [header, List.length_append, Header.length_written, dataOffset]
  omega

/-- Behind header and descriptor lies the chunk data. -/
theorem drop_eq (h : m.Carries raw ink told stored rest) :
    raw.drop m.dataOffset = m.layout.ciphertext ink stored ++ rest := by
  obtain ⟨n, -, rfl⟩ := h.raw_eq
  rw [← List.append_assoc]
  exact List.drop_left' (by simp [header, dataOffset])

/-- What stands behind the chunk data can be cut off. -/
theorem cut (h : m.Carries raw ink told stored rest) :
    m.Carries (raw.take (m.dataOffset + (m.layout.ciphertext ink stored).length)) ink told stored
      [] := by
  obtain ⟨n, hn, rfl⟩ := h.raw_eq
  refine ⟨⟨n, hn, ?_⟩, h.told⟩
  rw [List.append_nil, ← List.append_assoc m.descriptor, ← List.append_assoc]
  exact List.take_left' (by
    simp only [header, List.length_append, Header.length_written, dataOffset, Nat.add_assoc])

/-- A stretch of the chunk data. -/
theorem slice_eq (h : m.Carries raw ink told stored rest) {offset n : Nat}
    (hoffset : m.dataOffset ≤ offset)
    (hn : offset + n ≤ m.dataOffset + (m.layout.ciphertext ink stored).length) :
    raw.slice offset n = (m.layout.ciphertext ink stored).slice (offset - m.dataOffset) n := by
  obtain ⟨k, rfl⟩ := Nat.exists_eq_add_of_le hoffset
  have hdrop := h.drop_eq
  rw [Nat.add_sub_cancel_left, Bytes.slice, ← List.drop_drop, hdrop,
    List.drop_append_of_le_length (by omega), List.take_append_of_le_length (by simp; omega)]
  rfl

end Carries

end Metadata

/-! ## Open containers

`Channel` names what stays as it is while the container is open. `Tuned` and `Stocks` are the
parts of the invariant that hold in a container that is scanned too; `Streams` is the whole of
it. How two states of a session are related is said by `Rests` and `Flows`. -/

/-- Where and as what a container with streamed chunks is open. -/
structure Channel where
  path : String
  /-- The number of the raw file. -/
  file : Nat
  names : List (String × Nat)
  mode : Mode
  /-- The processor, whatever stream it works on. -/
  processor : Processor
  metadata : Metadata
  /-- The key of the stream cipher. -/
  key : Bytes
  /-- What is known of the bytes behind the chunk data. -/
  trail : Trail
  keyed : processor.keys = some metadata.keys
  streamKey : metadata.keys.stream = some key
  firstMax : processor.firstMax = metadata.firstMax
  chunkMax : processor.chunkMax = metadata.chunkMax
  master : processor.master = metadata.master
  kind : processor.config.streaming = true
  streaming : metadata.streaming = true
  found : names.lookup path = some file

/-- The layout of the container. -/
abbrev Channel.layout (g : Channel) : Layout := g.metadata.layout

/-- The chunk being worked on is the last one, and stands at its end. -/
structure Chunk.Heads (x : Chunk) (l : Layout) (placed stored : Bytes) (last cursor : Nat) :
    Prop where
  seqnum : x.seqnum = last
  content : x.content = l.part placed x.seqnum
  offset : x.offset = x.content.length
  maxSize : x.maxSize = l.capacity x.seqnum
  cursor : cursor = placed.length
  /-- It knows how much of it is stored, and how many bytes that takes. -/
  stored : stored.length = l.startOf x.seqnum + x.streamed
  ciphertextSize :
    x.ciphertextSize = if x.streamed = 0 then 0 else Salsa20.nonceSize + x.streamed

namespace Session

/-- The raw file of the session's container is open there, and no chunk is kept in memory but the
current one. -/
structure Tuned (s : Session) (g : Channel) : Prop where
  path : s.path = g.path
  names : s.disk.names = g.names
  file : g.file < s.disk.files.length
  handle : ∃ position, s.handle = some { file := g.file, position, writable := g.mode.isWrite }
  mode : s.mode = g.mode
  useCache : s.useCache = false
  pool : s.pool.entries = []
  layout : s.layout = g.layout
  processor : s.processor = { g.processor with stream := s.processor.stream }

/-- The chunk data in the raw file is that of a content. -/
structure Stocks (s : Session) (g : Channel) (ink : Ink) (stored : Bytes) : Prop
    extends s.Tuned g where
  key : ink.key = g.key
  carries : ∃ told rest, g.metadata.Carries (s.disk.contents g.file) ink told stored rest
  ciphertextSize : s.ciphertextSize = (g.layout.ciphertext ink stored).length
  ends : ∃ last, g.layout.EndsIn last stored.length

/-- **The invariant of a container that is open for appending.** -/
structure Streams (s : Session) (g : Channel) (ink : Ink) (placed stored : Bytes) : Prop
    extends s.Tuned g where
  appending : g.mode.isAppend = true
  key : ink.key = g.key
  carries : ∃ told rest, g.metadata.Carries (s.disk.contents g.file) ink told stored rest ∧
    (s.tailCut = true → rest = []) ∧ (s.sizeDirty = false → told = stored)
  trail : g.trail.Fits (s.disk.contents g.file) s.eofPos s.size stored.length s.tailCut
  ciphertextSize : s.ciphertextSize = (g.layout.ciphertext ink stored).length
  size : s.size = placed.length
  grows : stored <+: placed
  seekCursor : s.seekCursor ≤ placed.length
  ends : g.layout.EndsIn s.eofSeqnum placed.length
  current : ∀ x, s.current = some x → x.Heads g.layout placed stored s.eofSeqnum s.cursor
  /-- Without a current chunk, the chunk that holds the end can be read from the file and the
  stream does not belong to it, or a chunk in front of it was not stored as a whole. -/
  absent : s.current = none → ∀ i, g.layout.seqnumOf? placed.length = some i →
    (stored = placed ∧ (s.processor.stream = none ∨ g.layout.startOf i = placed.length)) ∨
      stored.length < g.layout.startOf i
  /-- The stream of a chunk that is stored uses the nonce that is stored. -/
  stream : ∀ e, s.processor.stream = some e → e.key = g.key ∧
    (e.seqnum < g.layout.chunksFor stored.length → e.nonce = ink.nonce e.seqnum)

/-- The session with another stream. -/
def withStream (s : Session) (e : StreamEncryptor) : Session :=
  { s with processor := { s.processor with stream := some e } }

/-- The key stream of the current chunk stands where the bytes belong that are not stored. -/
def InStep (s : Session) : Prop :=
  ∀ x e, s.current = some x → s.processor.stream = some e → e.seqnum = x.seqnum →
    x.ciphertextSize ≠ 0 → e.position = x.streamed

instance (s : Session) : Decidable s.InStep :=
  decidable_of_iff (∀ x ∈ s.current, ∀ e ∈ s.processor.stream,
      e.seqnum = x.seqnum → x.ciphertextSize ≠ 0 → e.position = x.streamed)
    ⟨fun h x e hx he => h x hx e he, fun h x hx e he => h x e hx he⟩

/-- Everything stored was encrypted and written once, in its order, and the trace says so. -/
structure Logged (s : Session) (g : Channel) (stored : Bytes) : Prop where
  inked : (s.ledger g.metadata.dataOffset).inked.map some
    = (List.range stored.length).map g.layout.locate?
  written : (s.ledger g.metadata.dataOffset).written
    = List.range' g.metadata.dataOffset s.ciphertextSize
  pen : ∀ e, s.processor.stream = some e →
    (s.ledger g.metadata.dataOffset).pen = some (e.seqnum, e.position)

/-- Of what was to be placed the start is placed, and the start of that is stored. -/
def Partway (s : Session) (g : Channel) (before after : Bytes) : Prop :=
  ∃ ink placed stored, s.Streams g ink placed stored ∧ before <+: placed ∧ placed <+: after

/-- On the way nothing was encrypted. -/
structure Rests (s s' : Session) (g : Channel) (stored : Bytes) : Prop where
  inStep : s.InStep → s'.InStep
  logged : s.Logged g stored → s'.Logged g stored

/-- On the way more was placed and all of it stored, in the ink of what was there. -/
structure Flows (s s' : Session) (g : Channel) (ink : Ink) (stored placed : Bytes) : Prop where
  grows : stored <+: placed
  inStep : s'.InStep
  logged : s.Logged g stored → s'.Logged g placed
  streams : ∃ ink', ink.AgreesUpTo ink' (g.layout.chunksFor stored.length) ∧
    s'.Streams g ink' placed placed

variable {s s' s₁ : Session} {g : Channel} {ink : Ink} {c c₁ d : Bytes} {x : Chunk}

theorem Rests.refl (s : Session) (g : Channel) (d : Bytes) : s.Rests s g d := ⟨id, id⟩

theorem Rests.trans (h : s.Rests s₁ g d) (h' : s₁.Rests s' g d) : s.Rests s' g d :=
  ⟨h'.inStep ∘ h.inStep, h'.logged ∘ h.logged⟩

/-- Where all that is placed is stored, nothing has to flow. -/
theorem Flows.of_rests (h : s'.Streams g ink c c) (hrests : s.Rests s' g c) (hstep : s.InStep) :
    s.Flows s' g ink c c where
  grows := List.prefix_refl c
  inStep := hrests.inStep hstep
  logged := hrests.logged
  streams := ⟨ink, Ink.AgreesUpTo.refl _ _, h⟩

theorem Streams.partway (h : s.Streams g ink c d) (hafter : c <+: c₁) : s.Partway g c c₁ :=
  ⟨ink, c, d, h, List.prefix_refl c, hafter⟩

theorem Partway.mono (h : s.Partway g c d) (hafter : d <+: c₁) : s.Partway g c c₁ :=
  let ⟨ink, placed, stored, h', hstart, hend⟩ := h
  ⟨ink, placed, stored, h', hstart, hend.trans hafter⟩

theorem Partway.after {before after : Bytes} (h : s.Partway g c after) (hbefore : before <+: c) :
    s.Partway g before after :=
  let ⟨ink, placed, stored, h', hstart, hend⟩ := h
  ⟨ink, placed, stored, h', hbefore.trans hstart, hend⟩

/-- What flowed is placed and stored in full. -/
theorem Flows.partway {before : Bytes} (h : s.Flows s' g ink d c) (hbefore : before <+: c) :
    s'.Partway g before c :=
  let ⟨ink', _, hdone⟩ := h.streams
  ⟨ink', c, c, hdone, hbefore, List.prefix_refl c⟩

/-- What flows after a rest flows. -/
theorem Flows.after (h : s₁.Flows s' g ink d c) (hlogged : s.Logged g d → s₁.Logged g d) :
    s.Flows s' g ink d c :=
  { h with logged := h.logged ∘ hlogged }

/-- Flowing on, in the ink of what is there by then. -/
theorem Flows.trans {ink₁ : Ink} (h : s.Flows s₁ g ink d c₁)
    (hagrees : ink.AgreesUpTo ink₁ (g.layout.chunksFor d.length)) (h₁ : s₁.Streams g ink₁ c₁ c₁)
    (h' : s₁.Flows s' g ink₁ c₁ c) : s.Flows s' g ink d c := by
  obtain ⟨ink', hagrees', hdone⟩ := h'.streams
  exact
    { grows := h.grows.trans h'.grows
      inStep := h'.inStep
      logged := h'.logged ∘ h.logged
      streams := ⟨ink', hagrees.trans hagrees' (h₁.ends.chunksFor_mono h.grows.length_le), hdone⟩ }

/-! ## Small facts

The parts of the invariant, each under the name that the operations use for it. -/

namespace Tuned

theorem isOpen (h : s.Tuned g) : s.isOpen = true := by
  obtain ⟨p, hp⟩ := h.handle
  simp [Container.isOpen, hp]

theorem read? (h : s.Tuned g) : s.disk.read? g.path = some (s.disk.contents g.file) := by
  rw [Disk.read?, Disk.find?, h.names, g.found]
  rfl

theorem streaming (h : s.Tuned g) : s.processor.config.streaming = true := by
  rw [h.processor]
  exact g.kind

theorem packs (g : Channel) : g.layout.Packs Salsa20.nonceSize :=
  Metadata.packs_of_streaming g.streaming

theorem maxPlainSize (h : s.Tuned g) (i : Nat) :
    s.processor.maxPlainSize i = g.layout.capacity i := by
  rw [h.processor, Metadata.capacity_layout (p := { g.processor with
    stream := s.processor.stream }) g.firstMax g.chunkMax]

theorem overhead (h : s.Tuned g) : s.processor.overhead = Salsa20.nonceSize := by
  simp [Processor.overhead, h.streaming]

theorem streamLead (h : s.Tuned g) : s.processor.streamLead = Salsa20.nonceSize := by
  simp [Processor.streamLead, h.streaming]

theorem streamKey (h : s.Tuned g) : s.processor.streamKey = .ok g.key := by
  rw [h.processor]
  simp [Processor.streamKey, Processor.workingKeys, g.keyed, g.streamKey]

theorem beside (h : s.Tuned g) (y : Surroundings) : (s.beside y).Tuned g := by
  obtain ⟨p, hp⟩ := h.handle
  exact { h with handle := ⟨y.position, by rw [handle_beside hp]⟩ }

theorem withContents (h : s.Tuned g) (data : Bytes) : (s.withContents g.file data).Tuned g :=
  { h with file := by simpa [Session.withContents, Disk.setContents] using h.file }

theorem contents_withContents (h : s.Tuned g) (data : Bytes) :
    (s.withContents g.file data).disk.contents g.file = data := by
  simp [Session.withContents, Disk.setContents, Disk.contents, h.file]

end Tuned

namespace Stocks

theorem beside (h : s.Stocks g ink d) (y : Surroundings) : (s.beside y).Stocks g ink d :=
  { h.toTuned.beside y with
    key := h.key, carries := h.carries, ciphertextSize := h.ciphertextSize, ends := h.ends }

theorem passesBy (h : s.Stocks g ink d) (hp : s.PassesBy s') : s'.Stocks g ink d := by
  obtain ⟨y, rfl⟩ := hp
  exact h.beside y

/-- Behind the chunk data is behind the content and a nonce for each chunk. -/
theorem eofPos_eq (h : s.Stocks g ink d) :
    s.eofPos = g.metadata.dataOffset + d.length
      + Salsa20.nonceSize * g.layout.chunksFor d.length := by
  obtain ⟨i, hends⟩ := h.ends
  rw [Container.eofPos, h.layout, h.ciphertextSize, hends.length_ciphertext_eq (Tuned.packs g),
    ← Nat.add_assoc]
  rfl

theorem eofPos_eq_add (h : s.Stocks g ink d) :
    s.eofPos = g.metadata.dataOffset + (g.metadata.layout.ciphertext ink d).length := by
  rw [Container.eofPos, h.layout, h.ciphertextSize]
  rfl

theorem eofPos_le (h : s.Stocks g ink d) : s.eofPos ≤ (s.disk.contents g.file).length := by
  obtain ⟨told, rest, hcarries⟩ := h.carries
  rw [hcarries.length_eq, h.eofPos_eq_add]
  exact Nat.le_add_right _ _

end Stocks

namespace Streams

theorem beside (h : s.Streams g ink c d) (y : Surroundings) : (s.beside y).Streams g ink c d :=
  { h.toTuned.beside y with
    appending := h.appending, key := h.key, carries := h.carries, trail := h.trail
    ciphertextSize := h.ciphertextSize, size := h.size, grows := h.grows
    seekCursor := h.seekCursor, ends := h.ends, current := h.current, absent := h.absent
    stream := h.stream }

theorem passesBy (h : s.Streams g ink c d) (hp : s.PassesBy s') : s'.Streams g ink c d := by
  obtain ⟨y, rfl⟩ := hp
  exact h.beside y

theorem isWrite (h : s.Streams g ink c d) : g.mode.isWrite = true :=
  Mode.isWrite_of_isAppend h.appending

theorem stocks (h : s.Streams g ink c d) : s.Stocks g ink d where
  toTuned := h.toTuned
  key := h.key
  carries := let ⟨told, rest, hcarries, _⟩ := h.carries; ⟨told, rest, hcarries⟩
  ciphertextSize := h.ciphertextSize
  ends := let ⟨i, _, hends⟩ := h.ends.of_le h.grows.length_le; ⟨i, hends⟩

/-- What is stored ends in the current chunk. -/
theorem stored_in (h : s.Streams g ink c d) (hx : s.current = some x) :
    g.layout.EndsIn x.seqnum d.length := by
  have hheads := h.current x hx
  have hends := h.ends
  rw [← hheads.seqnum] at hends
  exact { hends with
    start := hheads.stored ▸ Nat.le_add_right _ _
    within := hends.within.imp id fun hle => Nat.le_trans h.grows.length_le hle }

/-- Another stream of the current chunk, that uses the nonce that is stored if there is one. -/
theorem withStream (h : s.Streams g ink c d) (hx : s.current = some x) {e : StreamEncryptor}
    (hkey : e.key = g.key)
    (hnonce : e.seqnum < g.layout.chunksFor d.length → e.nonce = ink.nonce e.seqnum) :
    (s.withStream e).Streams g ink c d := by
  have hprocessor : { s.processor with stream := some e }
      = { g.processor with stream := some e } := by rw [h.processor]
  -- the stream is the one part of the processor that is not fixed
  have htuned : (s.withStream e).Tuned g := { h.toTuned with processor := hprocessor }
  exact
    { htuned with
      appending := h.appending, key := h.key, carries := h.carries, trail := h.trail
      ciphertextSize := h.ciphertextSize, size := h.size, grows := h.grows
      seekCursor := h.seekCursor, ends := h.ends, current := h.current
      absent := by simp [Session.withStream, hx]
      stream := by
        rintro _ ⟨⟩
        exact ⟨hkey, hnonce⟩ }

end Streams

/-- Preparing the stream of a chunk puts the pen there and enters nothing else. -/
theorem Logged.repen (h : s.Logged g d) {e : StreamEncryptor}
    (hledger : s'.ledger g.metadata.dataOffset
      = { s.ledger g.metadata.dataOffset with pen := some (e.seqnum, e.position) })
    (hct : s'.ciphertextSize = s.ciphertextSize) (hstream : s'.processor.stream = some e) :
    s'.Logged g d where
  inked := hledger ▸ h.inked
  written := by rw [hledger, hct, h.written]
  pen := by
    intro e' he'
    rw [hledger, Option.some.inj (hstream.symm.trans he')]

/-- The position asked for may be any that is placed. -/
theorem Streams.seek (h : s.Streams g ink c d) {seekCursor : Nat} (hle : seekCursor ≤ c.length) :
    Streams { s with seekCursor } g ink c d :=
  { { h.toTuned with } with
    appending := h.appending, key := h.key, carries := h.carries, trail := h.trail
    ciphertextSize := h.ciphertextSize, size := h.size, grows := h.grows
    seekCursor := hle, ends := h.ends, current := h.current, absent := h.absent
    stream := h.stream }

/-- The ledger is about trace and chunk data alone. -/
theorem Logged.of_eq (h : s.Logged g d)
    (hledger : s'.ledger g.metadata.dataOffset = s.ledger g.metadata.dataOffset)
    (hct : s'.ciphertextSize = s.ciphertextSize)
    (hstream : s'.processor.stream = s.processor.stream ∨ s'.processor.stream = none) :
    s'.Logged g d where
  inked := hledger ▸ h.inked
  written := by rw [hledger, hct, h.written]
  pen := by
    intro e he
    rcases hstream with hsame | hnone
    · exact hledger ▸ h.pen e (hsame ▸ he)
    · simp [hnone] at he

/-- Asking for a position is no encrypting. -/
theorem Rests.of_seek (s : Session) (g : Channel) (d : Bytes) (seekCursor : Nat) :
    s.Rests { s with seekCursor } g d :=
  ⟨id, fun h => h.of_eq rfl rfl (.inl rfl)⟩

end Session

end Vault
