import Vault.Proofs.StreamOpening

/-!
# `Vault/Proofs/Agreement.lean` — processors agree through the descriptor

Two processors with one master key never talk to each other, and may be configured differently.
**What one of them writes in front of a new container makes the other one its equal:** the same
algorithms, capacities and keys. So what either of them packs the other unpacks. A streamed chunk
can even be handed to and fro while it is encrypted (`encryptInTurns`): whoever takes it up needs
nothing but the nonce it begins with and the number of bytes that are there.
-/

set_option autoImplicit false

namespace Vault

/-- Two processors have read the same from a descriptor. -/
structure Processor.Agrees (p q : Processor) : Prop where
  suite : p.suite = q.suite
  kdf : p.kdf = q.kdf
  firstMax : p.firstMax = q.firstMax
  chunkMax : p.chunkMax = q.chunkMax
  keys : p.keys = q.keys

theorem Metadata.install_agrees (m : Metadata) (p q : Processor) :
    (m.install p).Agrees (m.install q) := ⟨rfl, rfl, rfl, rfl, rfl⟩

/-! ## Handing a chunk to and fro

A chunk may be encrypted by both of them, some bytes by the one and some by the other. That works
because the key stream at an offset depends on the key, the nonce and the number of the chunk
only, and not on who encrypted what is in front. -/

/-- The two processors that know of a container. -/
inductive Peer where
  | writer
  | reader
deriving DecidableEq

/-- The processors, one of them replaced. -/
def Peer.replace (peers : Peer → Processor) (i : Peer) (p : Processor) : Peer → Processor :=
  fun j => if j = i then p else peers j

/-- Who encrypts the next piece of a chunk of which `offset` bytes are there: the processor that
encrypted last goes on, or one of the two takes the chunk up at its end. -/
def Peer.takeUp (peers : Peer → Processor) (holder : Peer) (nonce : Bytes) (seqnum offset : Nat) :
    Option Peer → Except Error (Peer × Processor)
  | none => return (holder, peers holder)
  | some i => return (i, ← (peers i).resumeStream nonce seqnum offset)

/-- Encrypts the rest of a chunk piece by piece, each piece with who takes the chunk up for it. -/
def encryptInTurns (peers : Peer → Processor) (holder : Peer) (nonce : Bytes) (seqnum : Nat) :
    (offset : Nat) → List (Option Peer × Bytes) → Except Error (List Bytes)
  | _, [] => return []
  | offset, (taker, piece) :: pieces => do
    let (holder, p) ← Peer.takeUp peers holder nonce seqnum offset taker
    let (data, p) ← p.encryptStream piece
    let rest ← encryptInTurns (Peer.replace peers holder p) holder nonce seqnum
      (offset + piece.length) pieces
    return data :: rest

section
variable {peers : Peer → Processor} {holder i : Peer} {p : Processor} {key nonce : Bytes}
  {seqnum offset : Nat} {pieces : List (Option Peer × Bytes)}

@[simp] theorem Peer.replace_self : Peer.replace peers i p i = p := if_pos rfl

/-- A processor that takes up or goes on with a stream has the key it had. -/
theorem Peer.streamKey_replace (h : ∀ j, (peers j).streamKey = .ok key)
    (hp : p.streamKey = .ok key) (j : Peer) : (Peer.replace peers i p j).streamKey = .ok key := by
  unfold replace
  split
  · exact hp
  · exact h j

/-- Whoever encrypts next has a stream that stands at the end of the chunk. -/
theorem Peer.takeUp_eq (hkey : ∀ j, (peers j).streamKey = .ok key)
    (hnonce : nonce.length = Salsa20.nonceSize)
    (hholder : (peers holder).stream = some ⟨key, nonce, seqnum, offset⟩) (taker : Option Peer) :
    ∃ i p, takeUp peers holder nonce seqnum offset taker = .ok (i, p) ∧
      p.streamKey = .ok key ∧ p.stream = some ⟨key, nonce, seqnum, offset⟩ := by
  cases taker with
  | none => exact ⟨holder, _, rfl, hkey holder, hholder⟩
  | some i =>
    refine ⟨i, { peers i with stream := some ⟨key, nonce, seqnum, offset⟩ }, ?_, hkey i, rfl⟩
    simp only [takeUp, Processor.resumeStream_eq (hkey i) hnonce, bind, Except.bind]
    rfl

/-- **Whoever encrypts, the pieces together are the content under one key stream.** Induction on the
pieces: the stream of the processor that encrypted last stands at the end of what is there. -/
theorem encryptInTurns_eq (hkey : ∀ j, (peers j).streamKey = .ok key)
    (hnonce : nonce.length = Salsa20.nonceSize)
    (holder : Peer) (hholder : (peers holder).stream = some ⟨key, nonce, seqnum, offset⟩)
    (pieces : List (Option Peer × Bytes)) :
    ∃ outs, encryptInTurns peers holder nonce seqnum offset pieces = .ok outs ∧
      outs.flatten = Bytes.xor (pieces.map Prod.snd).flatten
        (Salsa20.keystream key nonce offset (pieces.map Prod.snd).flatten.length) := by
  induction pieces generalizing peers holder offset with
  | nil => exact ⟨[], rfl, rfl⟩
  | cons turn pieces ih =>
    obtain ⟨taker, piece⟩ := turn
    obtain ⟨i, p, htaken, hp, hstream⟩ := Peer.takeUp_eq hkey hnonce hholder taker
    -- whoever took it has a stream that stands behind the piece; the other one keeps the key
    let moved := { p with stream := some ⟨key, nonce, seqnum, offset + piece.length⟩ }
    have hkey' : ∀ j, (Peer.replace peers i moved j).streamKey = .ok key :=
      Peer.streamKey_replace hkey hp
    have hheld : (Peer.replace peers i moved i).stream
        = some ⟨key, nonce, seqnum, offset + piece.length⟩ := by simp [moved]
    obtain ⟨outs, hrest, houts⟩ := ih hkey' i hheld
    simp only [moved] at hrest
    refine ⟨Bytes.xor piece (Salsa20.keystream key nonce offset piece.length) :: outs, ?_, ?_⟩
    · simp only [encryptInTurns, htaken, Processor.encryptStream_eq hstream, bind, Except.bind,
        StreamEncryptor.apply, hrest]
      rfl
    · -- the key streams of the piece and of the rest are one key stream, cut where the piece ends
      rw [List.flatten_cons, houts, List.map_cons, List.flatten_cons, List.length_append,
        ← Salsa20.keystream_append, Bytes.xor_append (by simp)]

/-- A chunk that was started by one processor and encrypted by both opens to its content. -/
theorem unpackChunk_encryptInTurns {writer reader : Processor}
    (hwriter : writer.streamKey = .ok key) (hreader : reader.streamKey = .ok key)
    (hstreaming : reader.config.streaming = true) (random : Random) :
    ∃ nonce started random' outs,
      writer.startStream seqnum random = .ok (nonce, started) random' ∧
      encryptInTurns (fun | .writer => started | .reader => reader) .writer nonce seqnum 0 pieces
        = .ok outs ∧
      reader.unpackChunk (nonce ++ outs.flatten) seqnum = .ok (pieces.map Prod.snd).flatten := by
  obtain ⟨nonce, random', hnonce, hstart⟩ := Processor.startStream_eq hwriter seqnum random
  let peers : Peer → Processor := fun
    | .writer => { writer with stream := some ⟨key, nonce, seqnum, 0⟩ }
    | .reader => reader
  have hkeys (j : Peer) : (peers j).streamKey = .ok key := by
    cases j with
    | writer => exact hwriter
    | reader => exact hreader
  have hheld : (peers .writer).stream = some ⟨key, nonce, seqnum, 0⟩ := rfl
  obtain ⟨outs, hencrypt, houts⟩ := encryptInTurns_eq hkeys hnonce .writer hheld pieces
  refine ⟨nonce, _, random', outs, hstart, hencrypt, ?_⟩
  have hpacked : nonce ++ outs.flatten
      = StreamEncryptor.packed key nonce (pieces.map Prod.snd).flatten := by
    rw [houts, StreamEncryptor.packed]
  simp only [Processor.unpackChunk, hstreaming, if_true, hreader, hpacked,
    StreamEncryptor.openChunk_packed hnonce, mapError_ok]

end

/-! ## Through the descriptor

The keys are derived from the master key and what the descriptor says. So the reader has the keys
of the writer once it has read the descriptor, and its own configuration is overwritten but for
the kind of chunks. -/

namespace Processor

variable {writer reader : Processor}

/-- Sealed chunks are exchanged between processors with the same keys. -/
theorem unpackChunk_packChunk {keys : WorkingKeys} (hwriter : writer.keys = some keys)
    (hreader : reader.keys = some keys) (hblock : writer.config.streaming = false)
    (hblock' : reader.config.streaming = false) (plain : Bytes) (seqnum : Nat) (random : Random) :
    ∃ packed random', writer.packChunk plain seqnum random = .ok packed random' ∧
      reader.unpackChunk packed seqnum = .ok plain := by
  refine ⟨_, _, packChunk_eq hwriter hblock plain seqnum random, ?_⟩
  rw [unpackChunk_eq hreader hblock', ChunkCipher.unpack_pack _ _ _ (Random.length_draw _ _),
    mapError_ok]

end Processor

/-- **Processors agree through the descriptor.** What a processor writes in front of a new container
is read by every processor with the same master key for the same kind of chunks, however it is
configured. The header tells it the size of the content, that there is no chunk data yet, and how
long the descriptor is; from the descriptor it gets what the writer has. Then each chunk that is
sealed by the writer opens at the reader to what went into it, and so does each chunk that is
streamed by the two in turns. A processor for the other kind of chunks refuses the header. -/
theorem processors_agree {writer reader : Processor} (hwriter : writer.config.validate = .ok ())
    (hmaster : reader.master = writer.master) (initialSize : UInt64) (random : Random) :
    ∃ metadata keyed random', writer.packMetadata initialSize random
        = .ok (metadata, keyed) random' ∧
      (reader.config.streaming = writer.config.streaming →
        reader.unpackHeader (metadata.take 22) = .ok
          { plaintextSize := initialSize.toNat, descriptorSize := metadata.length - 22
            ciphertextSize := 0 } ∧
        ∃ opened, reader.unpackDescriptor (metadata.drop 22) = .ok opened ∧
          opened.Agrees keyed ∧ keyed.keys.isSome ∧
          (writer.config.streaming = false → ∀ plain seqnum random, ∃ packed random',
            keyed.packChunk plain seqnum random = .ok packed random' ∧
            opened.unpackChunk packed seqnum = .ok plain) ∧
          (writer.config.streaming = true → ∀ seqnum pieces random, ∃ nonce started random' outs,
            keyed.startStream seqnum random = .ok (nonce, started) random' ∧
            encryptInTurns (fun | .writer => started | .reader => opened) .writer nonce seqnum 0
              pieces = .ok outs ∧
            opened.unpackChunk (nonce ++ outs.flatten) seqnum
              = .ok (pieces.map Prod.snd).flatten)) ∧
      (reader.config.streaming ≠ writer.config.streaming →
        reader.unpackHeader (metadata.take 22) = .error .streamMode) := by
  obtain ⟨m, random', hpack, hm, hkind, -, -⟩ :=
    Processor.packMetadata_sized hwriter initialSize random
  have hsize : initialSize.toNat < offsetLimit := initialSize.toNat_lt
  -- the header is the first 22 bytes, whatever is in the descriptor
  have htake : (m.header initialSize.toNat 0 ++ m.descriptor).take 22
      = m.header initialSize.toNat 0 := List.take_left' (by simp [Metadata.header, Header.size])
  have hdrop : (m.header initialSize.toNat 0 ++ m.descriptor).drop 22 = m.descriptor :=
    List.drop_left' (by simp [Metadata.header, Header.size])
  have hlength : (m.header initialSize.toNat 0 ++ m.descriptor).length - 22
      = m.descriptor.length := by simp [Metadata.header, Header.size]
  refine ⟨_, _, random', hpack, fun hsame => ?same, fun hother => ?other⟩
  case same =>
    rw [htake, hdrop, hlength]
    refine ⟨Metadata.unpackHeader_header (hsame.trans hkind.symm) hsize (by decide),
      m.install reader, m.opens reader (hmaster.trans hm.symm) (hsame.trans hkind.symm),
      m.install_agrees _ _, rfl, fun hblock => ?_, fun hstreaming => ?_⟩
    · exact Processor.unpackChunk_packChunk rfl rfl hblock (hsame.trans hblock)
    · obtain ⟨key, hkey⟩ := m.exists_streamKey (hkind.trans hstreaming)
      have hkeyed (p : Processor) : (m.install p).streamKey = .ok key := by
        simp only [Processor.streamKey, Processor.workingKeys, Metadata.keys_install, hkey]
      intro seqnum pieces random
      exact unpackChunk_encryptInTurns (hkeyed _) (hkeyed reader) (hsame.trans hstreaming) random
  case other =>
    rw [htake]
    exact Metadata.unpackHeader_refused (fun h => hother (h.trans hkind)) hsize (by decide)

/-- Two processors with different suites, stretchings and capacities. -/
theorem processors_agree_differing :
    ∃ (writer reader : Processor) (metadata : Bytes) (keyed opened : Processor) (random : Random),
      writer.packMetadata 5 (Random.seeded 1) = .ok (metadata, keyed) random ∧
      reader.unpackDescriptor (metadata.drop 22) = .ok opened ∧ opened.Agrees keyed ∧
      reader.suite ≠ writer.suite ∧ reader.chunkMax ≠ writer.chunkMax := by
  let writer : Processor := Processor.ofConfig ⟨[7]⟩ { suite := .aesGcm, chunkMax := 9 }
  let reader : Processor := Processor.ofConfig ⟨[7]⟩ {}
  have hvalid : writer.config.validate = .ok () := rfl
  have hmaster : reader.master = writer.master := rfl
  obtain ⟨metadata, keyed, random, hpack, hsame, -⟩ :=
    processors_agree hvalid hmaster 5 (Random.seeded 1)
  obtain ⟨-, opened, hopened, hagrees, -⟩ := hsame rfl
  exact ⟨_, _, metadata, keyed, opened, random, hpack, hopened, hagrees, by decide, by decide⟩

end Vault
