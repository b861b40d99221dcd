import Vault.Proofs.StreamReading

/-!
# `Vault/Proofs/StreamFailures.lean` — adding to a file when calls fail

Users go on after a call failed: they seek to the end of what was placed and write the next bytes.
**What is stored decrypts to the start of what was placed, whatever failed before, as long as every
call that places bytes begins with the key stream in step** (`Session.Appends`).

A call that fails after its bytes were encrypted and before they were written leaves the key stream
ahead, and nothing brings it back while the same chunk is worked on. **Then the next bytes are
stored with the wrong part of the key stream,** and decrypt to what was placed only where the two
parts happen to agree (`Session.Streams.streamOut_strays`).
-/

set_option autoImplicit false

namespace Vault

namespace Session

open Container

variable {s s' : Session} {g : Channel} {m : Metadata} {ink : Ink} {c d : Bytes} {x : Chunk}
  {file : Nat}

/-- Sessions that add to a container with streamed chunks, and the bytes that were placed in them.
Any calls may fail, and what a failed call placed is told by the size; but each call that places
bytes begins with the key stream in step. -/
inductive Appends : Session → Bytes → Prop
  | created {s s' : Session} (fresh : s.Fresh) (tame : Fault.Tame s.faults)
      (run : Container.openIn .append s = .ok () s') : Appends s' []
  | opened {s s' : Session} {m : Metadata} {file : Nat} {ink : Ink} {told : Bytes} {mode : Mode}
      (shelved : s.Shelved m file ink told) (adds : mode.isAppend = true)
      (small : told.length < 2 ^ 62) (tame : Fault.Tame s.faults)
      (run : Container.openIn mode s = .ok () s') : Appends s' told
  | called {s : Session} {placed : Bytes} (before : Appends s placed) (call : Call)
      (step : call.places = true → s.InStep) :
      Appends (call.run.after s) ((call.placedAfter placed).take (call.run.after s).size)
  | armed {s : Session} {placed : Bytes} (before : Appends s placed) (faults : List Fault)
      (tame : Fault.Tame faults) : Appends { s with faults } placed

/-- The faults are no part of the invariant. -/
theorem Streams.rearm (h : s.Streams g ink c d) (faults : List Fault) :
    Streams { s with faults } g ink c d :=
  { { h.toTuned with } with
    appending := h.appending, key := h.key, carries := h.carries, trail := h.trail
    ciphertextSize := h.ciphertextSize, size := h.size, grows := h.grows
    seekCursor := h.seekCursor, ends := h.ends, current := h.current, absent := h.absent
    stream := h.stream }

/-- **The invariant holds at every moment of such a session.** -/
theorem Appends.streams (h : s.Appends c) :
    Fault.Tame s.faults ∧ ∃ g ink d, s.Streams g ink c d := by
  -- by induction on how the session came about; what a call leaves is `Call.run_partway`
  induction h with
  | created fresh tame run =>
    have hdoes : (Container.openIn .append).Does True _ _ _ := Container.openFresh_does fresh
    obtain ⟨hspares, g, ink, -, h'⟩ := hdoes.of_ok tame run
    exact ⟨hspares.worn.tame tame, g, ink, [], h'.streams⟩
  | opened shelved adds small tame run =>
    obtain ⟨hspares, h'⟩ := (Container.openStream_does shelved adds small).of_ok tame run
    exact ⟨hspares.worn.tame tame, _, _, _, h'.streams⟩
  | called before call step ih =>
    obtain ⟨tame, g, ink, d, h⟩ := ih
    obtain ⟨hworn, ink', placed, stored, h', -, hplaced⟩ :=
      (call.run_partway h step).after tame
    refine ⟨hworn.tame tame, g, ink', stored, ?_⟩
    -- how much was placed is the size, and it is a prefix of what the call wanted to place
    rwa [h'.size, ← List.prefix_iff_eq_take.mp hplaced]
  | armed before faults tame ih =>
    obtain ⟨-, g, ink, d, h⟩ := ih
    exact ⟨tame, g, ink, d, h.rearm faults⟩

/-! ## What is on the disk

A scan tells what the header told at the last flush. That may lag behind what is stored, so a
user is told the start of what was placed, and never any other byte. -/

/-- Whoever comes to a file and has the master key is told the start of a content. -/
def TellsStart (disk : Disk) (m : Metadata) (path : String) (content : Bytes) : Prop :=
  ∃ told, told <+: content ∧ ∀ r : Session, r.Visits m.master path disk →
    (m.layout.seqnumOf? told.length ≠ none → ∃ r', openIn .scan r = .ok () r') ∧
      ∀ r', openIn .scan r = .ok () r' → r'.Tells told

theorem Shelved.tellsStart (h : s.Shelved m file ink d) (hstart : d <+: c)
    (hsmall : c.length < 2 ^ 62) : TellsStart s.disk m s.path c := by
  have hd : d.length < 2 ^ 62 := Nat.lt_of_le_of_lt hstart.length_le hsmall
  refine ⟨d, hstart, fun r hr => ⟨fun hend => ?_, fun r' hrun => ?_⟩⟩
  · obtain ⟨r', hrun, -⟩ := (h.visit hr).scanned hr.faults hd hend
    exact ⟨r', hrun⟩
  · have htame : Fault.Tame r.faults := Fault.tame_of_nil hr.faults
    obtain ⟨hspares, h'⟩ := ((h.visit hr).scan_does hd).of_ok htame hrun
    exact h'.tells (Fault.Spares.nil (hr.faults ▸ hspares))

/-- What is stored is the start of what was placed, chunk by chunk, and no other byte is ever told.
-/
structure Upholds (s : Session) (m : Metadata) (path : String) (key : Bytes)
    (stored placed : Bytes) : Prop where
  grows : stored <+: placed
  size : ∃ s', contentSize s = .ok placed.length s'
  /-- Each chunk that is stored decrypts under the nonce in front of it. -/
  opens : ∃ raw, s.disk.read? path = some raw ∧ ∀ i < m.layout.chunksFor stored.length,
    StreamEncryptor.openChunk key (raw.slice (m.layout.rawStartOf i)
        (Salsa20.nonceSize + (m.layout.part stored i).length)) = .ok (m.layout.part stored i) ∧
      m.layout.part stored i <+: m.layout.part placed i
  tells : TellsStart s.disk m path placed
  /-- Also when the container is closed, or fails to be. -/
  tellsClosed : TellsStart (close.after s).disk m path placed

theorem Streams.upholds (h : s.Streams g ink c d) (htame : Fault.Tame s.faults)
    (hsmall : c.length < 2 ^ 62) :
    s.Upholds g.metadata g.path g.key d c where
  grows := h.grows
  size := ⟨s, h.contentSize_eq⟩
  opens := by
    obtain ⟨last, hends⟩ := h.stocks.ends
    refine ⟨_, h.read?, fun i hi => ?_⟩
    obtain ⟨hreaches, hstart⟩ := hends.of_lt_chunksFor hi
    have hslice : (s.disk.contents g.file).slice (g.metadata.layout.rawStartOf i)
        (Salsa20.nonceSize + (g.metadata.layout.part d i).length)
        = g.metadata.layout.streamed ink d i :=
      (h.stocks.slice_chunk hreaches hstart).2
    -- what lies at the chunk's place is what was encrypted for it
    rw [hslice, ← h.key, Layout.openChunk_streamed]
    refine ⟨rfl, ?_⟩
    rw [List.prefix_iff_eq_take.mp h.grows, Layout.part_take]
    exact List.take_prefix _ _
  tells := by
    -- the file as it is now, looked at by somebody else while this container is still open
    let t : Session := { s with handle := none }
    have hmaster : t.processor.master = g.metadata.master := by
      show s.processor.master = _
      rw [h.processor]
      exact g.master
    obtain ⟨told, htold, -, ht⟩ : ∃ told, told <+: d ∧ (s.sizeDirty = false → told = d) ∧
        t.Shelved g.metadata g.file ink told :=
      h.shelved rfl rfl h.path hmaster h.streaming
    exact h.path ▸ ht.tellsStart (htold.trans h.grows) hsmall
  tellsClosed := by
    have hclosed : close.Does True s (fun _ s' => s'.path = g.path ∧
          ∃ told, told <+: d ∧ s'.Shelved g.metadata g.file ink told)
        (fun s' => s'.path = g.path ∧
          ∃ told, told <+: d ∧ s'.Shelved g.metadata g.file ink told) :=
      (closeStream_does h).mono (fun _ _ h' => ⟨h'.1, d, List.prefix_refl d, h'.2.1⟩) fun _ => id
    obtain ⟨-, hpath, told, htold, ht⟩ := hclosed.after htame
    exact hpath ▸ ht.tellsStart (htold.trans h.grows) hsmall

/-! ## Out of step

After a failure the key stream stands behind the bytes that were encrypted or where it stood
before. If bytes of the chunk are stored, only the second is in step; if none are, the next write
makes a new nonce and it does not matter. -/

/-- **A failed write leaves the key stream in step exactly when nothing of the chunk is stored or
nothing was encrypted.** -/
theorem Streams.streamOut_fails_iff {e : Error} (h : s.Streams g ink c d) (hx : s.current = some x)
    (hstep : s.InStep) (hlt : d.length < c.length) (htame : Fault.Tame s.faults)
    (hrun : streamOut x s = .error e s') :
    s'.InStep ↔ x.streamed = 0 ∨ s'.processor.stream = s.processor.stream := by
  have hdoes : (streamOut x).Does True s _ _ := h.streamOut_does hx hstep hlt
  obtain ⟨-, h'⟩ := hdoes.of_error htame hrun
  have hzero := h.streamed_eq_zero_iff hx
  have hadd := h.streamed_add hx
  have hrest := congrArg List.length (h.append_rest hx)
  rw [List.length_append] at hrest
  constructor
  · -- had it moved on, it would stand behind the end of what is stored
    intro hstep'
    by_cases hnew : x.streamed = 0
    · exact .inl hnew
    · refine .inr (h'.stream.resolve_right ?_)
      rintro ⟨e, he, hnum, hend⟩
      have hposition := hstep' x e h'.current he hnum fun h0 => hnew (hzero.mp h0)
      omega
  · -- nothing is stored of the chunk, or nothing was encrypted for it
    rintro (hnew | hsame) y e hy he hnum hsome
    · obtain rfl := Option.some.inj (h'.current.symm.trans hy)
      exact absurd (hzero.mpr hnew) hsome
    · obtain rfl := Option.some.inj (h'.current.symm.trans hy)
      exact hstep x e hx (hsame ▸ he) hnum hsome

/-- What is stored of the current chunk. -/
theorem Streams.part_stored (h : s.Streams g ink c d) (hx : s.current = some x) :
    g.layout.part d x.seqnum = x.content.take x.streamed := by
  have hstored := (h.current x hx).stored
  rw [List.prefix_iff_eq_take.mp h.grows, Layout.part_take, ← (h.current x hx).content]
  exact congrArg (List.take · _) (by omega)

/-- Data behind the chunk data is data behind the current chunk. -/
theorem Streams.slice_behind (h : s.Streams g ink c d) (hx : s.current = some x)
    (hold : x.streamed ≠ 0) (hall : (s.disk.contents g.file).length = s.eofPos) (data : Bytes) :
    (s.disk.contents g.file ++ data).slice (g.layout.rawStartOf x.seqnum)
        (Salsa20.nonceSize + x.streamed + data.length)
      = g.layout.streamed ink d x.seqnum ++ data := by
  have hstored := (h.current x hx).stored
  have hadd := h.streamed_add hx
  have hlen : (g.layout.part d x.seqnum).length = x.streamed := by
    rw [h.part_stored hx, List.length_take]
    omega
  obtain ⟨-, hslice⟩ := h.stocks.slice_chunk (h.stored_in hx).reaches (i := x.seqnum) (by omega)
  have hend := h.rawStartOf_add hx
  rw [(h.current x hx).ciphertextSize, if_neg hold, ← hall] at hend
  rw [Bytes.slice_append hend, ← hlen, hslice]

/-- **What is written with a key stream that is not in step** decrypts to what was placed only where
the key stream is the same in both places. -/
theorem Streams.streamOut_strays (h : s.Streams g ink c d) (hx : s.current = some x)
    (hlt : d.length < c.length) {e : StreamEncryptor} (he : s.processor.stream = some e)
    (hnum : e.seqnum = x.seqnum) (hold : x.streamed ≠ 0) (hfaults : s.faults = []) :
    ∃ y s' raw, streamOut x s = .ok y s' ∧ s'.disk.read? s.path = some raw ∧
      StreamEncryptor.openChunk g.key (raw.slice (g.layout.rawStartOf x.seqnum)
          (Salsa20.nonceSize + x.content.length))
        = .ok (x.content.take x.streamed
          ++ Bytes.xor (e.apply (x.content.drop x.streamed)).1
            (Salsa20.keystream g.key e.nonce x.streamed (x.content.length - x.streamed))) := by
  -- the run goes on with the stream that it has, wherever that stands
  have hdoes : (streamOut x).Does False s
      (fun y s' => ∃ u, Streams.Writes u g ink c d x e (e.apply (x.content.drop x.streamed)).1 y s')
      (fun _ => True) := by
    unfold streamOut
    refine Op.Does.bind ((h.stocks.rawPosOf_does (h.stored_in hx).reaches
      (h.stored_in hx).start).mono (fun _ _ => id) fun _ _ => trivial) ?_
    rintro raw - ⟨rfl, y, rfl⟩
    have hsame : (s.beside y).processor.streamSeqnum = some x.seqnum := by
      show s.processor.stream.map _ = _
      rw [he, ← hnum]
      rfl
    -- the stream is for this chunk and bytes are stored, so it is taken as it is
    refine Op.Does.bind (P := fun lead t => lead = [] ∧ t = s.beside y) ?_ ?_
    · unfold prepareStream
      refine Op.Does.get_bind ?_
      rw [if_neg fun h0 => hold ((h.streamed_eq_zero_iff hx).mp h0), if_neg (not_not_intro hsame)]
      exact Op.Does.pure ⟨rfl, rfl⟩
    rintro _ _ ⟨rfl, rfl⟩
    exact ((h.beside y).writeOut_does hx hlt (e := e) he []).mono (fun _ _ h' => ⟨_, h'⟩)
      fun _ _ => trivial
  obtain ⟨y, s', hrun, -, u, t, w, ht, hall, hx', -, hsame, -⟩ := hdoes.answers hfaults not_false
  have hlen := (e.length_apply (x.content.drop x.streamed)).trans List.length_drop
  -- what was written is taken as it is; only its length counts from here on
  generalize (e.apply (x.content.drop x.streamed)).1 = data at *
  have hraw : (t.withContents g.file (t.disk.contents g.file ++ data)).disk = s'.disk :=
    (congrArg (fun u : Session => u.disk) hsame).symm
  have hread := (ht.toTuned.withContents (t.disk.contents g.file ++ data)).read?
  rw [ht.contents_withContents, hraw] at hread
  refine ⟨y, s', _, hrun, h.path ▸ hread, ?_⟩
  have hadd := h.streamed_add hx
  -- the nonce is the one in front of the stored bytes, whatever the position
  have hnonce : e.nonce = ink.nonce x.seqnum :=
    hnum ▸ (h.stream e he).2 (hnum ▸ (h.lt_chunksFor_iff hx).mpr hold)
  have hstart : (g.layout.part d x.seqnum).length = x.streamed := by
    rw [h.part_stored hx, List.length_take]
    omega
  rw [show Salsa20.nonceSize + x.content.length = Salsa20.nonceSize + x.streamed + data.length by
    omega, ht.slice_behind hx' hold hall, Layout.streamed, ← h.key,
    StreamEncryptor.openChunk_packed_append (ink.length_nonce _), hlen, hstart, h.part_stored hx,
    hnonce]

end Session

open Session

/-- **What is stored is the start of what was placed, whatever failed before.** At any moment of a
session that adds to a container, and in which every call that places bytes begins with the key
stream in step, each chunk that is stored decrypts to the leading part of what was placed there, and
whoever scans the file is told the start of what was placed. -/
theorem placed_upheld {s : Session} {placed : Bytes} (h : s.Appends placed)
    (hsmall : placed.length < 2 ^ 62) :
    ∃ (m : Metadata) (key stored : Bytes), m.master = s.processor.master ∧
      m.keys.stream = some key ∧ s.Upholds m s.path key stored placed := by
  obtain ⟨htame, g, ink, d, hs⟩ := h.streams
  refine ⟨g.metadata, g.key, d, ?_, g.streamKey, hs.path.symm ▸ hs.upholds htame hsmall⟩
  rw [hs.processor]
  exact g.master.symm

/-- A container that wrote its first chunk and failed to write the start of the second one. -/
def Session.stalled : Session :=
  (Call.write [3]).run.after
    { (Call.write [1, 2]).run.after ((Container.openIn .append).after (pristine "vault"
        (Processor.ofConfig ⟨[7]⟩ { chunkMax := 2, streaming := true }) {} (Random.seeded 0))) with
      faults := [⟨.write, 0, .fail⟩] }

/-- It went on from the end. -/
def Session.recovered : Session := (Call.write [4]).run.after ((Call.seek 3).run.after stalled)

theorem Session.appends_recovered : recovered.Appends [1, 2, 3, 4] := by
  have hgoes {s : Session} {placed after : Bytes} (h : s.Appends placed) (call : Call)
      (hstep : s.InStep) (hafter : (call.placedAfter placed).take (call.run.after s).size = after) :
      (call.run.after s).Appends after :=
    hafter ▸ h.called call fun _ => hstep
  have hfresh : Fresh (pristine "vault"
      (Processor.ofConfig ⟨[7]⟩ { chunkMax := 2, streaming := true }) {} (Random.seeded 0)) :=
    fresh_pristine (by decide) rfl rfl
  obtain ⟨_, s, hopen, -⟩ :=
    (Container.openFresh_does hfresh).answers rfl not_false
  have hopened := Appends.created hfresh (Fault.tame_of_nil rfl) hopen
  rw [← Op.after_of_ok hopen] at hopened
  have hwritten : Appends _ [1, 2] :=
    hgoes hopened (.write [1, 2]) (by decide +kernel) (by decide +kernel)
  have harmed := hwritten.armed [⟨.write, 0, .fail⟩] (by simp [Fault.Tame, Fault.kind])
  have hstalled : stalled.Appends [1, 2, 3] :=
    hgoes harmed (.write [3]) (by decide +kernel) (by decide +kernel)
  have hsought : ((Call.seek 3).run.after stalled).Appends [1, 2, 3] :=
    hgoes hstalled (.seek 3) (by decide +kernel) (by decide +kernel)
  exact hgoes hsought (.write [4]) (by decide +kernel) (by decide +kernel)

/-- What the failed write placed is there when the next one succeeded. -/
theorem placed_upheld_recovered :
    stalled.faults = [] ∧ stalled.size = 3 ∧ stalled.ciphertextSize = 10 ∧
      ∃ (m : Metadata) (key stored : Bytes),
        recovered.Upholds m "vault" key stored [1, 2, 3, 4] := by
  obtain ⟨m, key, stored, -, -, hupholds⟩ := placed_upheld appends_recovered (by decide)
  have hpath : recovered.path = "vault" := by decide +kernel
  exact ⟨by decide +kernel, by decide +kernel, by decide +kernel, m, key, stored,
    hpath ▸ hupholds⟩

end Vault
