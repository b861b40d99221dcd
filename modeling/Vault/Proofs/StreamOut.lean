import Vault.Proofs.StreamChunks

/-!
# `Vault/Proofs/StreamOut.lean` — what is written goes behind what is stored

**Streaming out stores all that was placed.** The part of the current chunk that is not yet stored
is encrypted with the chunk's key stream from where it belongs, and written behind the chunk data;
with a chunk that is new, its nonce goes first. That holds when the key stream is in step with the
chunk. When one of the calls fails, nothing is stored, and what was placed stays placed.
-/

set_option autoImplicit false

namespace Vault

/-! ## Streams of a processor

What the three calls of the processor do to its stream, if it has a stream key. Of what they
return only the stream is looked at later. -/

namespace Processor

variable {p : Processor} {key nonce plain : Bytes} {seqnum offset : Nat}

theorem startStream_eq (hkey : p.streamKey = .ok key) (seqnum : Nat) (random : Random) :
    ∃ (nonce : Bytes) (random' : Random), nonce.length = Salsa20.nonceSize ∧
      p.startStream seqnum random
        = .ok (nonce, { p with stream := some ⟨key, nonce, seqnum, 0⟩ }) random' := by
  refine ⟨(random.draw Salsa20.nonceSize).1, (random.draw Salsa20.nonceSize).2,
    random.length_draw _, ?_⟩
  have hdraw : Draw.bytes Salsa20.nonceSize random
      = .ok (random.draw Salsa20.nonceSize).1 (random.draw Salsa20.nonceSize).2 := rfl
  simp only [startStream, bind, EStateM.bind, hdraw, hkey, Draw.ofExcept, pure, EStateM.pure,
    StreamEncryptor.start, Random.length_draw, if_true, mapError_ok]

theorem resumeStream_eq (hkey : p.streamKey = .ok key) (hnonce : nonce.length = Salsa20.nonceSize) :
    p.resumeStream nonce seqnum offset
      = .ok { p with stream := some ⟨key, nonce, seqnum, offset⟩ } := by
  simp only [resumeStream, bind, Except.bind, hkey, StreamEncryptor.start, if_pos hnonce,
    mapError_ok, StreamEncryptor.seek]
  rfl

theorem encryptStream_eq {e : StreamEncryptor} (he : p.stream = some e) :
    p.encryptStream plain
      = .ok ((e.apply plain).1, { p with stream := some (e.apply plain).2 }) := by
  simp only [encryptStream, he]

end Processor

/-- The stream is that of a chunk and stands behind what is stored of it, with the nonce that is
stored if there is one. -/
structure StreamEncryptor.Resumes (e : StreamEncryptor) (g : Channel) (ink : Ink) (x : Chunk) :
    Prop where
  key : e.key = g.key
  seqnum : e.seqnum = x.seqnum
  position : e.position = x.streamed
  length_nonce : e.nonce.length = Salsa20.nonceSize
  nonce : x.streamed ≠ 0 → e.nonce = ink.nonce x.seqnum

/-- The session after data was written behind the chunk data and all of the current chunk counted
as stored. -/
def Session.appended (s : Session) (file : Nat) (x : Chunk) (data : Bytes) : Session :=
  { s.withContents file (s.disk.contents file ++ data) with
    ciphertextSize := s.ciphertextSize + data.length
    sizeDirty := true
    current := some { x with
      ciphertextSize := x.ciphertextSize + data.length
      streamed := x.content.length } }

namespace Session.Streams

open Container

variable {s s' : Session} {g : Channel} {ink : Ink} {c d data : Bytes} {x : Chunk} {i : Nat}
  {full : Prop}

/-! ## The current chunk in the file

How much of the current chunk is stored is known in two ways: the chunk says so, and the layout
counts it. Both are needed, one for the calls and one for the file. -/

/-- Something of the chunk is stored if and only if it takes room. -/
theorem streamed_eq_zero_iff (h : s.Streams g ink c d) (hx : s.current = some x) :
    x.ciphertextSize = 0 ↔ x.streamed = 0 := by
  rw [(h.current x hx).ciphertextSize]
  split
  · simp [*]
  · simp [Salsa20.nonceSize, *]

/-- The current chunk is stored in part if and only if it is counted. -/
theorem lt_chunksFor_iff (h : s.Streams g ink c d) (hx : s.current = some x) :
    x.seqnum < g.layout.chunksFor d.length ↔ x.streamed ≠ 0 := by
  have hstored := (h.current x hx).stored
  rw [(h.stored_in hx).chunksFor_eq]
  split <;> omega

/-- The nonce of a chunk that is stored in part lies at its start. -/
theorem slice_nonce (h : s.Streams g ink c d) (hx : s.current = some x) (hold : x.streamed ≠ 0) :
    (s.disk.contents g.file).slice (g.layout.rawStartOf x.seqnum) Salsa20.nonceSize
        = ink.nonce x.seqnum ∧ g.layout.rawStartOf x.seqnum + Salsa20.nonceSize ≤ s.eofPos := by
  have hstored := (h.current x hx).stored
  obtain ⟨hplace, hchunk⟩ :=
    h.stocks.slice_chunk (h.stored_in hx).reaches (i := x.seqnum) (by omega)
  refine ⟨?_, by omega⟩
  rw [← Nat.min_eq_left (Nat.le_add_right Salsa20.nonceSize (g.layout.part d x.seqnum).length),
    ← Bytes.take_slice, hchunk, Layout.take_streamed]

/-! ## The stream of the current chunk

There are three ways to make the stream ready: it is that of the chunk already, it is made anew
for a new chunk, or it is resumed under the nonce that the file has. Each gives a stream that
stands behind what is stored. -/

/-- The stream was made ready to go on with a chunk. What has to be written in front is the nonce of
a chunk that is new. -/
def Readies (s : Session) (g : Channel) (ink : Ink) (d : Bytes) (x : Chunk) (lead : Bytes)
    (s' : Session) : Prop :=
  ∃ e y, s' = (s.withStream e).beside y ∧ e.Resumes g ink x ∧
    lead = (if x.streamed = 0 then e.nonce else []) ∧ (s.Logged g d → s'.Logged g d)

/-- The stream may be that of the chunk already. -/
theorem readies_self (h : s.Streams g ink c d) (hx : s.current = some x) (hstep : s.InStep)
    (hold : x.streamed ≠ 0) (hsame : s.processor.streamSeqnum = some x.seqnum) :
    Readies s g ink d x [] s := by
  obtain ⟨p, hp⟩ := h.handle
  -- the stream is that of the chunk; being in step says where it stands
  obtain ⟨e, he, hnum⟩ := Option.map_eq_some_iff.mp hsame
  obtain ⟨hkey, hnonce⟩ := h.stream e he
  replace hnonce := hnonce (hnum ▸ (h.lt_chunksFor_iff hx).mpr hold)
  rw [hnum] at hnonce
  refine ⟨e, ⟨s.faults, s.trace, s.random, p⟩, ?_, ⟨hkey, hnum, ?_, ?_, fun _ => hnonce⟩,
    (if_neg hold).symm, id⟩
  · have hprocessor : { s.processor with stream := some e } = s.processor := by rw [← he]
    simp only [Session.withStream, hprocessor]
    exact beside_of_handle hp s.faults s.trace s.random
  · exact hstep x e hx he hnum fun h0 => hold ((h.streamed_eq_zero_iff hx).mp h0)
  · rw [hnonce, ink.length_nonce]

/-- A chunk of which nothing is stored gets a nonce of its own. -/
theorem startStream_does (h : s.Streams g ink c d) (hnew : x.streamed = 0) :
    Op.Does (do
        Raw.note (.streamStarted x.seqnum)
        let (lead, processor) ← Op.ofDraw (s.processor.startStream x.seqnum)
        modify fun s => { s with processor }
        return lead) full s (Readies s g ink d x) s.PassesBy := by
  obtain ⟨p, hp⟩ := h.handle
  obtain ⟨nonce, random, hnonce, hstart⟩ :=
    Processor.startStream_eq h.streamKey x.seqnum s.random
  -- the draw is the nonce, and with it the stream starts at its beginning
  unfold Raw.note
  refine Op.Does.modify_bind rfl ?_
  refine Op.Does.bind (P := fun made t =>
    made = (nonce, { s.processor with stream := some ⟨g.key, nonce, x.seqnum, 0⟩ }) ∧
      t = { s with random, trace := .streamStarted x.seqnum :: s.trace })
    (Op.Does.ofDraw hstart ⟨rfl, rfl⟩) ?_
  rintro _ _ ⟨rfl, rfl⟩
  refine Op.Does.modify_bind rfl (Op.Does.pure ⟨⟨g.key, nonce, x.seqnum, 0⟩,
    ⟨s.faults, .streamStarted x.seqnum :: s.trace, random, p⟩, ?_, ?_, (if_pos hnew).symm, ?_⟩)
  · exact beside_of_handle (s := s.withStream ⟨g.key, nonce, x.seqnum, 0⟩) hp _ _ _
  · exact ⟨rfl, rfl, hnew.symm, hnonce, absurd hnew⟩
  · exact fun hlogged => hlogged.repen rfl rfl rfl

/-- A chunk that is stored in part is gone on with under the nonce that is read from its start. -/
theorem resumeStream_does (h : s.Streams g ink c d) (hx : s.current = some x)
    (hold : x.streamed ≠ 0) :
    Op.Does (do
        Raw.seek (g.layout.rawStartOf x.seqnum)
        let lead ← readExactly s.processor.streamLead fun _ => .readFailed
        Raw.note (.streamResumed x.seqnum x.streamed)
        let processor ←
          Op.ofExcept (s.processor.resumeStream lead x.seqnum x.streamed)
        modify fun s => { s with processor }
        return []) full s (Readies s g ink d x) s.PassesBy := by
  obtain ⟨p, hp⟩ := h.handle
  -- the nonce in front of what is stored is the one that the ink has for this chunk
  obtain ⟨hnonce, hplace⟩ := h.slice_nonce hx hold
  have hF := ledger_frame (Nat.le_add_right Header.size g.metadata.descriptor.length)
    (s.ledger g.metadata.dataOffset)
  refine Op.Does.bind (((Raw.seek_does hp _).keeping (Raw.seek_keeps hF.toAmbient _)
    ⟨rfl, h.streaming⟩).mono (fun _ _ => id) fun _ h' => h'.1) ?_
  rintro - - ⟨⟨y, hy, rfl⟩, hbooks⟩
  refine Op.Does.bind (((readExactly_does (handle_beside hp y) ?room _).keeping
    (readExactly_keeps hF.toAmbient _ _) hbooks).mono (fun _ _ => id) fun _ h' =>
      s.passesBy_beside y ▸ h'.1) ?_
  case room =>
    show y.position + s.processor.streamLead ≤ (s.disk.contents g.file).length
    rw [hy, h.streamLead]
    exact Nat.le_trans hplace h.stocks.eofPos_le
  rintro lead - ⟨⟨hlead, z, -, rfl⟩, hledger, -⟩
  -- the bytes that were read are that nonce
  replace hlead : lead = ink.nonce x.seqnum := by
    rw [hlead, ← hnonce, ← hy, ← h.streamLead]
    rfl
  subst hlead
  rw [beside_beside] at hledger ⊢
  unfold Raw.note
  refine Op.Does.modify_bind rfl (Op.Does.bind
    (P := fun p t => p = { s.processor with
        stream := some ⟨g.key, ink.nonce x.seqnum, x.seqnum, x.streamed⟩ } ∧
      t = { s.beside z with trace := .streamResumed x.seqnum x.streamed :: z.trace })
    (Op.Does.ofExcept (Processor.resumeStream_eq h.streamKey (ink.length_nonce x.seqnum))
      ⟨rfl, rfl⟩) ?_)
  rintro _ _ ⟨rfl, rfl⟩
  refine Op.Does.modify_bind rfl (Op.Does.pure
    ⟨⟨g.key, ink.nonce x.seqnum, x.seqnum, x.streamed⟩,
      { z with trace := .streamResumed x.seqnum x.streamed :: z.trace }, rfl, ?_,
      (if_neg hold).symm, ?_⟩)
  · exact ⟨rfl, rfl, rfl, ink.length_nonce _, fun _ => rfl⟩
  · -- no line that was added since is an entry
    refine fun hlogged => hlogged.repen ?_ rfl rfl
    rw [← hledger]
    rfl

/-- **Before anything is encrypted the stream stands where it belongs,** if it was in step. -/
theorem prepareStream_does (h : s.Streams g ink c d) (hx : s.current = some x)
    (hstep : s.InStep) :
    (prepareStream x (g.layout.rawStartOf x.seqnum)).Does full s (Readies s g ink d x)
      s.PassesBy := by
  unfold prepareStream
  refine Op.Does.get_bind ?_
  by_cases hnew : x.streamed = 0
  · rw [if_pos ((h.streamed_eq_zero_iff hx).mpr hnew)]
    exact h.startStream_does hnew
  · rw [if_neg fun h0 => hnew ((h.streamed_eq_zero_iff hx).mp h0)]
    by_cases hsame : s.processor.streamSeqnum = some x.seqnum
    · simp only [ne_eq, hsame, not_true_eq_false, if_false]
      exact Op.Does.pure (h.readies_self hx hstep hnew hsame)
    · simp only [ne_eq, hsame, not_false_eq_true, if_true]
      exact h.resumeStream_does hx hnew

/-! ## Behind the chunk data

New chunk data goes right behind what the container counts as chunk data. Whatever the file has
there is cut off first, once in each session: it may be the rest of a write that failed, or a
stamp, and no byte that is counted is lost. -/

/-- The chunk data is all there is if nothing stands behind it. -/
theorem eofPos_eq_length_iff (h : s.Streams g ink c d) {told rest : Bytes}
    (hcarries : g.metadata.Carries (s.disk.contents g.file) ink told d rest) :
    (s.disk.contents g.file).length = s.eofPos ↔ rest = [] := by
  have hlength := hcarries.length_eq
  have heof := h.stocks.eofPos_eq_add
  rw [← List.length_eq_zero_iff]
  omega

/-- What stands behind the chunk data can be cut off. -/
theorem cut (h : s.Streams g ink c d) (hlt : d.length < c.length) :
    Streams { s.withContents g.file ((s.disk.contents g.file).resize s.eofPos) with
      tailCut := true } g ink c d := by
  obtain ⟨told, rest, hcarries, -, hsized⟩ := h.carries
  have hcontents := h.contents_withContents ((s.disk.contents g.file).resize s.eofPos)
  have hcut : (s.disk.contents g.file).resize s.eofPos
      = (s.disk.contents g.file).take s.eofPos := Bytes.resize_of_le h.stocks.eofPos_le
  have heof := h.stocks.eofPos_eq_add
  exact
    { { h.toTuned.withContents _ with } with
      appending := h.appending, key := h.key
      carries := by
        refine ⟨told, [], ?_, fun _ => rfl, hsized⟩
        show g.metadata.Carries ((s.withContents _ _).disk.contents g.file) ink told d []
        rw [hcontents, hcut, heof]
        exact hcarries.cut
      trail := by
        show g.trail.Fits ((s.withContents _ _).disk.contents g.file) s.eofPos s.size d.length true
        rw [hcontents, hcut]
        exact Trail.fits_of_nil (List.drop_take_self ..) (h.trail.grown fun _ => h.size ▸ hlt)
      ciphertextSize := h.ciphertextSize, size := h.size, grows := h.grows
      seekCursor := h.seekCursor, ends := h.ends, current := h.current, absent := h.absent
      stream := h.stream }

/-- **Before chunk data grows there is nothing behind it.** -/
theorem cutTail_does (h : s.Streams g ink c d) (hgrows : d.length < c.length) {rawEnd : Nat}
    (hend : s.eofPos < rawEnd) :
    (cutTail rawEnd).Does full s
      (fun _ s' => s'.Streams g ink c d ∧ (s'.disk.contents g.file).length = s'.eofPos ∧
        s'.tailCut = true ∧ s'.current = s.current ∧ s'.processor = s.processor)
      s.PassesBy := by
  obtain ⟨p, hp⟩ := h.handle
  obtain ⟨told, rest, hcarries, hcut, hsized⟩ := h.carries
  have hall := h.eofPos_eq_length_iff hcarries
  unfold cutTail
  refine Op.Does.get_bind (Op.Does.when (fun _ => ?_) fun hskip => ?_)
  · refine Op.Does.bind (Raw.size_does hp) ?_
    rintro n s' ⟨rfl, y, rfl⟩
    have hy := handle_beside hp y
    by_cases hlt : s.eofPos < (s.disk.contents g.file).length
    · simp only [if_pos hlt]
      refine Op.Does.bind (s.passesBy_beside y ▸ Raw.truncate_does hy h.isWrite _ _) ?_
      rintro - - ⟨z, rfl⟩
      refine Op.Does.modify rfl ⟨((h.beside y).cut hgrows).beside z, ?_, rfl, rfl, rfl⟩
      exact (congrArg List.length (h.contents_withContents _)).trans (Bytes.length_resize _ _)
    · simp only [if_neg hlt]
      have hnothing := Nat.le_antisymm (Nat.le_of_not_lt hlt) h.stocks.eofPos_le
      refine Op.Does.modify rfl ⟨?_, hnothing, rfl, rfl, rfl⟩
      exact
        { h.beside y with
          carries := ⟨told, rest, hcarries, fun _ => hall.mp hnothing, hsized⟩
          trail := Trail.fits_of_nil (List.drop_eq_nil_of_le (Nat.le_of_eq hnothing))
            (h.trail.grown fun _ => h.size ▸ hgrows) }
  · have hdone : s.tailCut = true := by simpa [hend] using hskip
    exact ⟨h, hall.mpr (hcut hdone), hdone, rfl, rfl⟩

/-! ## Streaming out

The stream encrypts the rest of the current chunk. Behind what is stored, that makes the chunk
data of everything placed, whether the nonce is new or old. -/

/-- What is stored of the current chunk ends where the chunk data ends. -/
theorem rawStartOf_add (h : s.Streams g ink c d) (hx : s.current = some x) :
    g.layout.rawStartOf x.seqnum + x.ciphertextSize = s.eofPos := by
  have hheads := h.current x hx
  have hstored := hheads.stored
  have hlength := (h.stored_in hx).length_ciphertext ink (Tuned.packs g)
  rw [Container.eofPos, h.layout, h.ciphertextSize, hlength, hheads.ciphertextSize]
  split <;> split <;> omega

/-- What is placed and not stored is the rest of the current chunk. -/
theorem append_rest (h : s.Streams g ink c d) (hx : s.current = some x) :
    d ++ x.content.drop x.streamed = c := by
  have hheads := h.current x hx
  have hends := h.ends
  rw [← hheads.seqnum] at hends
  rw [hheads.content, Layout.part_eq_drop hends.within, List.drop_drop, ← hheads.stored]
  exact (List.prefix_iff_eq_append.mp h.grows)

/-- **Encrypted with a stream that stands where it belongs, the rest of the current chunk makes the
chunk data of what is stored into that of what is placed.** -/
theorem ciphertext_append (h : s.Streams g ink c d) (hx : s.current = some x)
    (hlt : d.length < c.length) {e : StreamEncryptor} (he : e.Resumes g ink x) :
    ∃ ink' : Ink, ink.AgreesUpTo ink' (g.layout.chunksFor d.length) ∧
      ink'.nonce x.seqnum = e.nonce ∧
      g.layout.ciphertext ink' c = g.layout.ciphertext ink d
        ++ ((if x.streamed = 0 then e.nonce else [])
          ++ (e.apply (x.content.drop x.streamed)).1) := by
  have hheads := h.current x hx
  have hends := h.stored_in hx
  have hstored := hheads.stored
  obtain ⟨ink', hagrees, hnonce⟩ : ∃ ink' : Ink,
      ink.AgreesUpTo ink' (g.layout.chunksFor d.length) ∧ ink'.nonce x.seqnum = e.nonce := by
    by_cases hnew : x.streamed = 0
    · refine ⟨ink.renew x.seqnum e.nonce he.length_nonce, ?_, Ink.nonce_renew⟩
      rw [hends.chunksFor_eq, if_neg (by omega)]
      exact Ink.agreesUpTo_renew
    · -- the nonce is in the file already, and the ink stays as it is
      exact ⟨ink, Ink.AgreesUpTo.refl _ _, (he.nonce hnew).symm⟩
  refine ⟨ink', hagrees, hnonce, ?_⟩
  -- without a rest nothing would be missing, and nothing would be written
  have hplain : x.content.drop x.streamed ≠ [] := by
    intro hnil
    rw [← h.append_rest hx, hnil, List.append_nil] at hlt
    exact Nat.lt_irrefl _ hlt
  have hplaced : g.layout.EndsIn x.seqnum (d ++ x.content.drop x.streamed).length := by
    rw [h.append_rest hx, hheads.seqnum]
    exact h.ends
  have hgrown := hplaced.ciphertext_append ink' hends.start hplain
  rw [h.append_rest hx, Layout.ciphertext_congr hagrees, hnonce, hagrees.key.trans h.key, ← he.key,
    show d.length - g.layout.startOf x.seqnum = x.streamed by omega] at hgrown
  rw [hgrown, StreamEncryptor.apply, he.position]
  -- the nonce is written with the first bytes of the chunk and not again
  by_cases hnew : x.streamed = 0
  · rw [if_neg (by omega), if_pos hnew]
  · rw [if_pos (by omega), if_neg hnew]

/-- **After the rest of the current chunk was written, all that was placed is stored.** -/
theorem store (h : s.Streams g ink c d) (hx : s.current = some x) (hlt : d.length < c.length)
    (hall : (s.disk.contents g.file).length = s.eofPos) {e : StreamEncryptor}
    (he : e.Resumes g ink x) {position : Nat}
    (hstream : s.processor.stream = some { e with position }) {data : Bytes}
    (hdata : data = (if x.streamed = 0 then e.nonce else [])
      ++ (e.apply (x.content.drop x.streamed)).1) :
    ∃ ink', ink.AgreesUpTo ink' (g.layout.chunksFor d.length) ∧
      (s.appended g.file x data).Streams g ink' c c := by
  have hheads := h.current x hx
  have hends := h.ends
  rw [← hheads.seqnum] at hends
  obtain ⟨ink', hagrees, hnonce, hct⟩ := h.ciphertext_append hx hlt he
  rw [← hdata] at hct
  obtain ⟨told, rest, hcarries, -, -⟩ := h.carries
  -- the file ends with the chunk data, so there is no trail
  obtain rfl := (h.eofPos_eq_length_iff hcarries).mp hall
  have hcontents := h.contents_withContents (s.disk.contents g.file ++ data)
  obtain ⟨i, hstored⟩ := h.stocks.ends
  have hlen := congrArg List.length (h.append_rest hx)
  rw [List.length_append, List.length_drop] at hlen
  have hplaced : c.length = g.layout.startOf x.seqnum + x.content.length := by
    have hstored := hheads.stored
    omega
  refine ⟨ink', hagrees, { { h.toTuned.withContents (s.disk.contents g.file ++ data) with } with
    appending := h.appending, key := hagrees.key.trans h.key, carries := ?carries
    trail := ?trail, ciphertextSize := ?ct, size := h.size, grows := List.prefix_refl c
    seekCursor := h.seekCursor, ends := h.ends, current := ?current, absent := by simp [appended]
    stream := ?stream }⟩
  case carries =>
    refine ⟨told, [], ?_, fun _ => rfl, by simp [appended]⟩
    show g.metadata.Carries ((s.withContents _ _).disk.contents g.file) ink' told c []
    rw [hcontents]
    obtain ⟨n, hn, hraw⟩ := hcarries.raw_eq
    -- what the header tells was written before, in ink that stays
    have htold : g.metadata.layout.ciphertext ink' told = g.metadata.layout.ciphertext ink told :=
      Layout.ciphertext_congr ⟨hagrees.key, fun j hj => hagrees.nonce j
        (Nat.lt_of_lt_of_le hj (hstored.chunksFor_mono hcarries.told.length_le))⟩
    refine ⟨⟨n, hn, ?_⟩, hcarries.told.trans h.grows⟩
    rw [hraw, htold, show g.metadata.layout.ciphertext ink' c = _ from hct]
    simp only [List.append_nil, List.append_assoc]
  case trail =>
    refine Trail.fits_of_nil ?_ (h.trail.grown fun _ => h.size ▸ hlt)
    show ((s.withContents _ _).disk.contents g.file).drop _ = []
    rw [hcontents]
    refine List.drop_eq_nil_of_le (Nat.le_of_eq ?_)
    rw [List.length_append, hall]
    exact Nat.add_assoc _ _ _
  case ct =>
    show s.ciphertextSize + data.length = _
    rw [hct, List.length_append, h.ciphertextSize]
  case current =>
    rintro _ ⟨⟩
    refine { hheads with stored := hplaced, ciphertextSize := ?_ }
    show x.ciphertextSize + data.length
      = if x.content.length = 0 then 0 else Salsa20.nonceSize + x.content.length
    have hnonce := he.length_nonce
    have hstored := hheads.stored
    rw [hheads.ciphertextSize, hdata, List.length_append, StreamEncryptor.length_apply,
      List.length_drop]
    by_cases hnew : x.streamed = 0
    · rw [if_pos hnew, if_pos hnew]
      split <;> omega
    · rw [if_neg hnew, if_neg hnew, List.length_nil]
      split <;> omega
  case stream =>
    intro e' he'
    obtain rfl := Option.some.inj (hstream.symm.trans he')
    exact ⟨he.key, fun _ => by rw [← hnonce, ← he.seqnum]⟩

/-- Everything placed is in the ledger once. -/
theorem logged (h : s.Streams g ink c d) (hx : s.current = some x) {e : StreamEncryptor}
    (hlogged : s.Logged g d) (he : e.Resumes g ink x) (hstream : s.processor.stream = some e)
    {s' : Session} {m : Nat}
    (hledger : s'.ledger g.metadata.dataOffset
      = ((s.ledger g.metadata.dataOffset).enter g.metadata.dataOffset
          (.streamed (x.content.drop x.streamed).length)).enter g.metadata.dataOffset
          (.wrote s.eofPos m))
    (hct : s'.ciphertextSize = s.ciphertextSize + m)
    (hstream' : s'.processor.stream
      = some { e with position := e.position + (x.content.drop x.streamed).length }) :
    s'.Logged g c := by
  have hheads := h.current x hx
  have hstored := hheads.stored
  have hends := h.ends
  rw [← hheads.seqnum] at hends
  have hpen := hlogged.pen e hstream
  have heof : s.eofPos = g.metadata.dataOffset + s.ciphertextSize := by
    rw [Container.eofPos, h.layout]
    rfl
  rw [Ledger.enter_wrote (heof ▸ Nat.le_add_right _ _), Ledger.enter_streamed hpen] at hledger
  have hlen := congrArg List.length (h.append_rest hx)
  rw [List.length_append] at hlen
  generalize (x.content.drop x.streamed).length = n at *
  refine ⟨?_, ?_, ?_⟩
  · rw [hledger]
    show ((s.ledger _).inked ++ _).map some = _
    -- the new entries are the places behind the stored content, one after the other
    rw [List.map_append, hlogged.inked, ← hlen, List.range_add, List.map_append, List.map_map,
      List.map_map]
    refine congrArg _ (List.map_congr_left fun k hk => ?_)
    have hk := List.mem_range.mp hk
    have hwithin := hends.within
    unfold Layout.Within at hwithin
    have hplace : g.layout.locate? (d.length + k) = some (x.seqnum, x.streamed + k) :=
      Layout.locate?_eq_some_iff.mpr ⟨Layout.seqnumOf?_eq_some_iff.mpr
        ⟨hends.reaches, by omega, by omega, hends.numbered⟩, by omega⟩
    simp only [Function.comp, hplace, he.seqnum, he.position]
  · rw [hledger, hct, hlogged.written, heof]
    exact List.range'_append_1
  · intro e' he'
    rw [hledger, ← Option.some.inj (hstream'.symm.trans he')]

/-- The rest of the current chunk was encrypted and written as `data` behind the chunk data, and the
stream moved on with it. -/
def Writes (s : Session) (g : Channel) (ink : Ink) (c d : Bytes) (x : Chunk) (e : StreamEncryptor)
    (data : Bytes) (y : Chunk) (s' : Session) : Prop :=
  ∃ (t : Session) (w : Surroundings), t.Streams g ink c d ∧
    (t.disk.contents g.file).length = t.eofPos ∧ t.current = some x ∧
    t.processor.stream
      = some { e with position := e.position + (x.content.drop x.streamed).length } ∧
    { s' with current := some y } = (t.appended g.file x data).beside w ∧
    s'.ledger g.metadata.dataOffset
      = ((s.ledger g.metadata.dataOffset).enter g.metadata.dataOffset
          (.streamed (x.content.drop x.streamed).length)).enter g.metadata.dataOffset
          (.wrote s.eofPos data.length)

/-- **The rest of the current chunk is encrypted with the stream as it stands and written behind the
chunk data.** The stream moves on first; where writing fails, it has moved on all the same. -/
theorem writeOut_does (h : s.Streams g ink c d) (hx : s.current = some x)
    (hlt : d.length < c.length) {e : StreamEncryptor} (he : s.processor.stream = some e)
    (lead : Bytes) :
    Op.Does (do
        let plain := x.content.drop x.streamed
        Raw.note (.streamed plain.length)
        let (ciphertext, processor) ← Op.ofExcept ((← get).processor.encryptStream plain)
        modify fun s => { s with processor }
        let data := lead ++ ciphertext
        cutTail (g.layout.rawStartOf x.seqnum + x.ciphertextSize + data.length)
        writeAt (g.layout.rawStartOf x.seqnum + x.ciphertextSize) data
        modify fun s => { s with
          ciphertextSize := s.ciphertextSize + data.length
          sizeDirty := true }
        return { x with
          ciphertextSize := x.ciphertextSize + data.length
          streamed := x.content.length }) full s
      (Writes s g ink c d x e (lead ++ (e.apply (x.content.drop x.streamed)).1))
      (fun s' => s'.Streams g ink c d ∧ s'.current = some x ∧ s'.processor.stream
        = some { e with position := e.position + (x.content.drop x.streamed).length }) := by
  obtain ⟨p, hp⟩ := h.handle
  obtain ⟨hkey, hnonce⟩ := h.stream e he
  have hlen := congrArg List.length (h.append_rest hx)
  rw [List.length_append] at hlen
  generalize hplain : x.content.drop x.streamed = plain at *
  let e' : StreamEncryptor := { e with position := e.position + plain.length }
  let z : Surroundings := ⟨s.faults, .streamed plain.length :: s.trace, s.random, p⟩
  -- the encryptor runs ahead of the file until the bytes are written
  have h₁ : ((s.withStream e').beside z).Streams g ink c d :=
    (h.withStream (e := e') hx hkey hnonce).beside z
  have hpassed {t s' : Session} (ht : t.Streams g ink c d) (hx : t.current = some x)
      (hstream : t.processor.stream = some e') (hpass : t.PassesBy s') :
      s'.Streams g ink c d ∧ s'.current = some x ∧ s'.processor.stream = some e' := by
    obtain ⟨y, rfl⟩ := hpass
    exact ⟨ht.beside y, hx, hstream⟩
  have hmoved : { s with
      trace := .streamed plain.length :: s.trace
      processor := { s.processor with stream := some e' } } = (s.withStream e').beside z :=
    beside_of_handle (s := s.withStream e') hp _ _ _
  unfold Raw.note
  refine Op.Does.modify_bind rfl (Op.Does.get_bind (Op.Does.bind
    (P := fun made t => made = ((e.apply plain).1, { s.processor with stream := some e' }) ∧
      t = { s with trace := .streamed plain.length :: s.trace })
    (Op.Does.ofExcept (Processor.encryptStream_eq he) ⟨rfl, rfl⟩) ?_))
  rintro _ _ ⟨rfl, rfl⟩
  refine Op.Does.modify_bind rfl ?_
  simp only [hmoved]
  have hx₁ : ((s.withStream e').beside z).current = some x := hx
  have heof : ((s.withStream e').beside z).eofPos = s.eofPos := rfl
  have hstream : ((s.withStream e').beside z).processor.stream = some e' := rfl
  have hledger : ((s.withStream e').beside z).ledger g.metadata.dataOffset
      = (s.ledger g.metadata.dataOffset).enter g.metadata.dataOffset (.streamed plain.length) := rfl
  generalize (s.withStream e').beside z = t at *
  generalize hdata : lead ++ (e.apply plain).1 = data
  have hne : 0 < data.length := by
    rw [← hdata, List.length_append, StreamEncryptor.length_apply]
    omega
  rw [h₁.rawStartOf_add hx₁, heof]
  refine Op.Does.bind (((h₁.cutTail_does hlt (heof ▸ Nat.lt_add_of_pos_right hne)).keeping
    (cutTail_keeps (I := Books g.metadata.dataOffset (t.ledger g.metadata.dataOffset))
      (fun _ h => h) (ledger_ambient _ _) id id _) ⟨rfl, h₁.streaming⟩).mono
        (fun _ _ => id) fun _ h' => hpassed h₁ hx₁ hstream h'.1) ?_
  rintro - u ⟨⟨hu, hall, -, hcurrent, hprocessor⟩, hledger', -⟩
  have hxᵤ := hcurrent.trans hx₁
  have hstreamᵤ := hprocessor ▸ hstream
  obtain ⟨q, hq⟩ := hu.handle
  refine Op.Does.bind (((writeAtHandle_does hq h.isWrite _ (List.length_pos_iff.mp hne)).and
    (writeAt_enters g.metadata.dataOffset hq h.isWrite hu.streaming data)).mono
      (fun _ _ => id) fun _ h' => hpassed hu hxᵤ hstreamᵤ h'.1) ?_
  rintro - - ⟨⟨w, rfl⟩, hwrote⟩
  have hend : s.eofPos = u.eofPos := by rw [h.stocks.eofPos_eq, hu.stocks.eofPos_eq]
  rw [hledger', hledger] at hwrote
  refine Op.Does.modify_bind rfl (Op.Does.pure ?_)
  subst hplain
  refine ⟨u, w, hu, hall, hxᵤ, hstreamᵤ, ?_, hwrote⟩
  rw [hend, ← hall, Bytes.overlay_length]
  rfl

/-- Streaming out failed: what was stored stays stored, and the stream is as it was or has moved to
the end of the chunk. -/
structure Falters (s : Session) (g : Channel) (ink : Ink) (c d : Bytes) (x : Chunk) (s' : Session) :
    Prop where
  streams : s'.Streams g ink c d
  current : s'.current = some x
  stream : s'.processor.stream = s.processor.stream ∨ ∃ e : StreamEncryptor,
    s'.processor.stream = some e ∧ e.seqnum = x.seqnum ∧ e.position = x.content.length

theorem falters_of_passesBy (h : s.Streams g ink c d) (hx : s.current = some x)
    (hpass : s.PassesBy s') : Falters s g ink c d x s' := by
  obtain ⟨y, rfl⟩ := hpass
  exact ⟨h.beside y, hx, .inl rfl⟩

/-- What is stored of the current chunk and what is left of it is all of it. -/
theorem streamed_add (h : s.Streams g ink c d) (hx : s.current = some x) :
    x.streamed + (x.content.drop x.streamed).length = x.content.length := by
  have hheads := h.current x hx
  have hstored := hheads.stored
  have hlen := congrArg List.length (h.append_rest hx)
  have hplaced := congrArg List.length hheads.content
  rw [Layout.length_part_of_within (hheads.seqnum ▸ h.ends.within)] at hplaced
  rw [List.length_append] at hlen
  omega

/-- **Streaming out stores all that was placed,** if the stream was in step; where it fails, what
was stored stays stored. -/
theorem streamOut_does (h : s.Streams g ink c d) (hx : s.current = some x) (hstep : s.InStep)
    (hlt : d.length < c.length) :
    (streamOut x).Does full s
      (fun y s' => s.Flows { s' with current := some y } g ink d c)
      (Falters s g ink c d x) := by
  have hF := ledger_frame (Nat.le_add_right Header.size g.metadata.descriptor.length)
    (s.ledger g.metadata.dataOffset)
  unfold streamOut
  refine Op.Does.bind (((h.stocks.rawPosOf_does (h.stored_in hx).reaches
    (h.stored_in hx).start).keeping (rawPosOf_keeps hF.toAmbient _) ⟨rfl, h.streaming⟩).mono
      (fun _ _ => id) fun _ h' => h.falters_of_passesBy hx h'.1) ?_
  rintro raw - ⟨⟨rfl, y, rfl⟩, hledger₁, -⟩
  -- where the chunk lies is known; from here on the stream is made ready
  have h₁ := h.beside y
  refine Op.Does.bind ((h₁.prepareStream_does hx hstep).mono (fun _ _ => id) fun _ h' =>
    h.falters_of_passesBy hx (s.passesBy_beside y ▸ h')) ?_
  rintro lead - ⟨e, z, rfl, he, rfl, hlogged⟩
  have hnonce : e.seqnum < g.layout.chunksFor d.length → e.nonce = ink.nonce e.seqnum := by
    rw [he.seqnum, h.lt_chunksFor_iff hx]
    exact he.nonce
  have h₂ := (h₁.withStream hx he.key hnonce).beside z
  have hend : e.position + (x.content.drop x.streamed).length = x.content.length :=
    he.position ▸ h.streamed_add hx
  -- the stream has moved on to the end of the chunk, whether writing comes through or not
  refine (h₂.writeOut_does hx hlt (e := e) rfl _).mono ?_ fun s' ⟨h', hx', hstream⟩ =>
    ⟨h', hx', .inr ⟨_, hstream, he.seqnum, hend⟩⟩
  rintro y' s' ⟨t, w, ht, hall, hx', hstream, hsame, hledger⟩
  obtain ⟨ink', hagrees, hstored⟩ := ht.store hx' hlt hall he hstream rfl
  rw [hsame]
  refine ⟨h.grows, ?inStep, ?logged, ink', hagrees, hstored.beside w⟩
  case inStep =>
    rintro _ e' ⟨⟩ he' - -
    obtain rfl := Option.some.inj (hstream.symm.trans he')
    exact hend
  case logged =>
    intro hs
    have hlogged₂ := hlogged (hs.of_eq hledger₁ rfl (.inl rfl))
    rw [← hsame]
    refine h₂.logged hx hlogged₂ he rfl hledger ?_ ?_
    · show s'.ciphertextSize = s.ciphertextSize + _
      have hct := congrArg (fun u : Session => u.ciphertextSize) hsame
      exact hct.trans (congrArg (· + _) (ht.ciphertextSize.trans h.ciphertextSize.symm))
    · exact (congrArg (fun u : Session => u.processor.stream) hsame).trans hstream

end Session.Streams

end Vault
