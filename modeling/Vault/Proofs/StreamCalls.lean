import Vault.Proofs.Calls
import Vault.Proofs.StreamWriting

/-!
# `Vault/Proofs/StreamCalls.lean` — everything that can be asked of a container that is added to

Flushing tells in the header what is stored; asking for sizes and telling the container what to keep
in memory does not even do that. **Only writing and truncating place bytes,** and without faults all
calls are answered as by a plain string of bytes that grows at its end (`Adds.step`).
-/

set_option autoImplicit false

namespace Vault

namespace Metadata.Carries

variable {m : Metadata} {raw : Bytes} {ink : Ink} {told stored rest : Bytes}

/-- The first size in the header may be any. -/
theorem retell_plaintext (h : m.Carries raw ink told stored rest) (n : Nat) :
    m.Carries (raw.overlay Header.plaintextAt (Bytes.ofNatLE 8 n)) ink told stored rest := by
  obtain ⟨k, -, rfl⟩ := h.raw_eq
  have hover := Bytes.overlay_middle (a := m.head)
    (c := Bytes.ofNatLE 8 (m.layout.ciphertext ink told).length
      ++ (m.descriptor ++ (m.layout.ciphertext ink stored ++ rest)))
    ((Bytes.length_ofNatLE 8 n).trans (Bytes.length_ofNatLE 8 k).symm)
  rw [m.length_head, show 6 = Header.plaintextAt from rfl] at hover
  -- the number that is written counts modulo what eight bytes can hold
  refine ⟨⟨n % Bytes.limit 8, Nat.mod_lt _ (by decide), ?_⟩, h.told⟩
  simpa only [header, head, Header.written, Bytes.ofNatLE_mod, List.append_assoc] using hover

/-- With the other size the header tells what is stored. -/
theorem retell (h : m.Carries raw ink told stored rest) :
    m.Carries (raw.overlay Header.ciphertextAt
      (Bytes.ofNatLE 8 (m.layout.ciphertext ink stored).length)) ink stored stored rest := by
  obtain ⟨k, hk, rfl⟩ := h.raw_eq
  have hover := Bytes.overlay_middle (a := m.head ++ Bytes.ofNatLE 8 k)
    (c := m.descriptor ++ (m.layout.ciphertext ink stored ++ rest))
    ((Bytes.length_ofNatLE 8 (m.layout.ciphertext ink stored).length).trans
      (Bytes.length_ofNatLE 8 (m.layout.ciphertext ink told).length).symm)
  rw [List.length_append, m.length_head, Bytes.length_ofNatLE,
    show 6 + 8 = Header.ciphertextAt from rfl] at hover
  -- what was told before is the start of what is stored, and now it is all of it
  refine ⟨⟨k, hk, ?_⟩, List.prefix_refl stored⟩
  simpa only [header, head, Header.written, List.append_assoc] using hover

end Metadata.Carries

namespace Session

open Container

variable {s s' s₁ : Session} {g : Channel} {ink : Ink} {c d data : Bytes} {x : Chunk} {full : Prop}

/-- On the way the stream, the chunk that it is for and the position asked for stayed as they were,
and nothing was encrypted. -/
structure Idles (s s' : Session) (g : Channel) (ink : Ink) (placed stored : Bytes) : Prop where
  streams : s'.Streams g ink placed stored
  rests : s.Rests s' g stored
  seekCursor : s'.seekCursor = s.seekCursor

namespace Streams

/-- The header may tell of something else. -/
theorem retold (h : s.Streams g ink c d) (sizeDirty : Bool) {offset : Nat} {data : Bytes}
    (hraw : ∃ told rest,
      g.metadata.Carries ((s.disk.contents g.file).overlay offset data) ink told d rest ∧
        (s.tailCut = true → rest = []) ∧ (sizeDirty = false → told = d))
    (hin : offset + data.length ≤ Header.size) :
    Streams { s.withContents g.file ((s.disk.contents g.file).overlay offset data) with sizeDirty }
      g ink c d :=
  -- the header lies in front of the chunk data, so only the carried part of the invariant changes
  have hcontents := h.toTuned.contents_withContents ((s.disk.contents g.file).overlay offset data)
  have hbehind : Header.size ≤ s.eofPos := by
    rw [h.stocks.eofPos_eq_add, Metadata.dataOffset]
    omega
  { { h.toTuned.withContents _ with } with
    appending := h.appending, key := h.key, carries := by rw [hcontents]; exact hraw
    trail := by
      rw [hcontents]
      exact h.trail.overlay_front (Nat.le_trans hin hbehind)
    ciphertextSize := h.ciphertextSize, size := h.size, grows := h.grows
    seekCursor := h.seekCursor, ends := h.ends, current := h.current, absent := h.absent
    stream := h.stream }

/-- What is kept in memory is no part of the invariant, as long as it is nothing. -/
theorem retool (h : s.Streams g ink c d) (config : ContainerConfig) {pool : Pool}
    (hpool : pool.entries = []) : Streams { s with config, pool, useCache := false } g ink c d :=
  have htuned : Tuned { s with config, pool, useCache := false } g :=
    { path := h.path, names := h.names, file := h.file, handle := h.handle, mode := h.mode
      useCache := rfl, pool := hpool, layout := h.layout, processor := h.processor }
  { htuned with
    appending := h.appending, key := h.key, carries := h.carries, trail := h.trail
    ciphertextSize := h.ciphertextSize, size := h.size, grows := h.grows
    seekCursor := h.seekCursor, ends := h.ends, current := h.current, absent := h.absent
    stream := h.stream }

theorem idles (h : s'.Streams g ink c d) (hs : s.Streams g ink c d)
    (hledger : s'.ledger g.metadata.dataOffset = s.ledger g.metadata.dataOffset)
    (hstep : s.InStep → s'.InStep) (hprocessor : s'.processor = s.processor)
    (hseek : s'.seekCursor = s.seekCursor) : s.Idles s' g ink c d where
  streams := h
  rests := ⟨hstep, fun hlogged => hlogged.of_eq hledger
    (h.ciphertextSize.trans hs.ciphertextSize.symm) (.inl (congrArg _ hprocessor))⟩
  seekCursor := hseek

/-! ## Flushing

The chunk data was written when the bytes came, so flushing the current chunk writes nothing.
Left are the two sizes in the header and the raw file. -/

theorem writeSizeAt_does (h : s.Streams g ink c d) (offset n : Nat) :
    (writeAt offset (Bytes.ofNatLE 8 n)).Does full s
      (fun _ s' => (s.withContents g.file
        ((s.disk.contents g.file).overlay offset (Bytes.ofNatLE 8 n))).PassesBy s')
      s.PassesBy := by
  obtain ⟨p, hp⟩ := h.handle
  refine writeAtHandle_does hp h.isWrite offset ?_
  rw [ne_eq, ← List.length_eq_zero_iff, Bytes.length_ofNatLE]
  decide

/-- Afterwards the header tells what is stored. -/
theorem writeSize_does (h : s.Streams g ink c d) :
    writeSize.Does full s
      (fun _ s' => s'.Streams g ink c d ∧ s'.sizeDirty = false ∧ (s.InStep → s'.InStep) ∧
        s'.processor = s.processor ∧ s'.seekCursor = s.seekCursor)
      (fun s' => s'.Streams g ink c d) := by
  obtain ⟨told, rest, hcarries, hcut, htold⟩ := h.carries
  unfold writeSize
  refine Op.Does.get_bind (Op.Does.when (fun hdirty => ?_) fun hclean => ?_)
  · refine Op.Does.bind ((h.writeSizeAt_does Header.plaintextAt s.size).mono (fun _ _ => id)
      fun _ => h.passesBy) ?_
    -- the first size is written, the second is still the old one
    rintro - - ⟨y, rfl⟩
    have h₁ := (h.retold s.sizeDirty
      ⟨told, rest, hcarries.retell_plaintext s.size, hcut, htold⟩
      (by rw [Bytes.length_ofNatLE]; decide)).beside y
    refine Op.Does.bind ((h₁.writeSizeAt_does Header.ciphertextAt s.ciphertextSize).mono
      (fun _ _ => id) fun _ => h₁.passesBy) ?_
    rintro - - ⟨z, rfl⟩
    have hcontents := h.toTuned.contents_withContents
      ((s.disk.contents g.file).overlay Header.plaintextAt (Bytes.ofNatLE 8 s.size))
    have hretold := (hcarries.retell_plaintext s.size).retell
    refine Op.Does.modify rfl ⟨?_, rfl, id, rfl, rfl⟩
    -- now the header tells what is stored
    rw [h.ciphertextSize]
    exact (h₁.retold false
      ⟨d, rest, (congrArg (fun raw => g.metadata.Carries (Bytes.overlay raw _ _) ink d d rest)
        hcontents).mpr hretold, hcut, fun _ => rfl⟩
      (by rw [Bytes.length_ofNatLE]; decide)).beside z
  · exact ⟨h, by simpa using hclean, id, rfl, rfl⟩

/-- The sizes are written, and the raw file is flushed. -/
theorem settle_does (h : s.Streams g ink c d) (raw : Option Bool) :
    Op.Does (do
        writeSize
        match raw with
        | some deep => Raw.flush deep
        | none => pure ()) full s
      (fun _ s' => s'.Streams g ink c d ∧ s'.sizeDirty = false ∧ (s.InStep → s'.InStep) ∧
        s'.processor = s.processor ∧ s'.seekCursor = s.seekCursor)
      (fun s' => s'.Streams g ink c d) := by
  refine Op.Does.bind h.writeSize_does ?_
  rintro - u ⟨hu, hsized, hrest⟩
  cases raw with
  | none => exact Op.Does.pure ⟨hu, hsized, hrest⟩
  | some deep =>
    obtain ⟨p, hp⟩ := hu.handle
    refine (Raw.flush_does hp deep).mono ?_ fun _ => hu.passesBy
    rintro - - ⟨y, rfl⟩
    exact ⟨hu.beside y, hsized, hrest⟩

/-- **Flushing tells in the header what is stored.** -/
theorem flushAll_does (h : s.Streams g ink c d) (raw : Option Bool) :
    (flushAll raw).Does full s (fun _ s' => s.Idles s' g ink c d ∧ s'.sizeDirty = false)
      (fun s' => s'.Streams g ink c d) := by
  have hmain : (flushAll raw).Does full s
      (fun _ s' => s'.Streams g ink c d ∧ s'.sizeDirty = false ∧ (s.InStep → s'.InStep) ∧
        -- three ways to come to `settle_does`: no chunk, a clean one, and one that was only marked
        -- dirty
        s'.processor = s.processor ∧ s'.seekCursor = s.seekCursor)
      (fun s' => s'.Streams g ink c d) := by
    unfold flushAll
    refine Op.Does.get_bind ?_
    rw [if_pos (by simp [h.isOpen, h.mode, h.isWrite]), h.pool]
    refine Op.Does.bind (P := fun _ t => t = s) (Op.Does.pure rfl) ?_
    rintro - s rfl
    refine Op.Does.get_bind ?_
    cases hx : s.current with
    | none =>
      simp only [Option.any_none, Bool.false_eq_true, if_false]
      exact h.settle_does raw
    | some x =>
      cases hdirty : x.dirty with
      | false =>
        simp only [Option.any_some, hdirty, Bool.false_eq_true, if_false]
        exact h.settle_does raw
      | true =>
        simp only [Option.any_some, hdirty, if_true]
        refine Op.Does.bind (h.flushActive_does hx) ?_
        rintro - - ⟨y, rfl⟩
        refine (((h.mark hx false).beside y).settle_does raw).mono ?_ fun _ => id
        rintro - s' ⟨h', hsized, hstep, hrest⟩
        -- marking the chunk clean does not move the key stream
        refine ⟨h', hsized, fun hin => hstep ?_, hrest⟩
        rintro _ e ⟨⟩ he hnum
        exact hin x e hx he hnum
  have hF := ledger_frame (Nat.le_add_right Header.size g.metadata.descriptor.length)
    (s.ledger g.metadata.dataOffset)
  refine (hmain.keeping (flushAll_keeps hF raw) ⟨rfl, h.streaming⟩).mono ?_ fun _ h' => h'.1
  rintro - s' ⟨⟨h', hsized, hstep, hprocessor, hseek⟩, hledger, -⟩
  exact ⟨h'.idles h hledger hstep hprocessor hseek, hsized⟩

/-- Flushing, and then a call that asks for nothing but to be made lasting. -/
theorem settled_does (h : s.Streams g ink c d) {x : Op Unit}
    (hx : ∀ {s : Session} {handle : Handle}, s.handle = some handle →
      x.Does full s (fun _ s' => s.PassesBy s') s.PassesBy)
    (hkeeps : ∀ {I : Session → Prop} {s : Session}, Ambient I → x.Keeps I (fun _ => True) s) :
    Op.Does (do ensureOpen; flushAll none; x) full s (fun _ s' => s.Idles s' g ink c d)
      (fun s' => s'.Streams g ink c d) := by
  refine Op.Does.bind h.ensureOpen_does ?_
  rintro - s rfl
  refine Op.Does.bind (h.flushAll_does none) ?_
  rintro - t ⟨⟨ht, hrests, hseek⟩, -⟩
  obtain ⟨p, hp⟩ := ht.handle
  have hI := ledger_ambient g.metadata.dataOffset (t.ledger g.metadata.dataOffset)
  refine ((hx hp).keeping (hkeeps hI) ⟨rfl, ht.streaming⟩).mono ?_ fun _ h' => ht.passesBy h'.1
  rintro - - ⟨⟨y, rfl⟩, hledger, -⟩
  have hidles := (ht.beside y).idles ht hledger id rfl rfl
  exact ⟨hidles.streams, hrests.trans hidles.rests, hseek⟩

theorem sync_does (h : s.Streams g ink c d) :
    sync.Does full s (fun _ s' => s.Idles s' g ink c d) (fun s' => s'.Streams g ink c d) :=
  h.settled_does Raw.sync_does Raw.sync_keeps

theorem fsync_does (h : s.Streams g ink c d) :
    fsync.Does full s (fun _ s' => s.Idles s' g ink c d) (fun s' => s'.Streams g ink c d) :=
  h.settled_does Raw.fsync_does Raw.fsync_keeps

/-! ## Sizes

What is used is computed from the layout, after the last chunk was flushed. No size is read from
the file. -/

theorem contentSize_eq (h : s.Streams g ink c d) : contentSize s = .ok c.length s := by
  simp [contentSize, bind, EStateM.bind, h.isOpen, h.size]

/-- **Of the file, header and descriptor are used, what is stored, and a nonce for each chunk.** -/
theorem usedSize_does (h : s.Streams g ink c d) :
    usedSize.Does full s
      (fun n s' => n = g.metadata.dataOffset + d.length
          + Salsa20.nonceSize * g.layout.chunksFor d.length ∧ s.Idles s' g ink c d)
      (fun s' => s'.Streams g ink c d) := by
  have hF := ledger_frame (Nat.le_add_right Header.size g.metadata.descriptor.length)
    (s.ledger g.metadata.dataOffset)
  unfold usedSize
  refine Op.Does.get_bind ?_
  rw [if_pos h.isOpen]
  refine Op.Does.bind ((h.flushLast_does.keeping (flushLast_keeps hF) ⟨rfl, h.streaming⟩).mono
    (fun _ _ => id) fun _ h' => h'.1) ?_
  rintro - - ⟨⟨current, ⟨y, rfl⟩, hcurrent⟩, hledger, -⟩
  have hidles : s.Idles (Session.beside { s with current } y) g ink c d := by
    -- whether there was a current chunk or not, only its mark can have changed
    rcases hcurrent with ⟨hx, rfl⟩ | ⟨x, dirty, hx, rfl⟩
    · have hsame : ({ s with current := none } : Session) = s := by rw [← hx]
      rw [hsame] at hledger ⊢
      exact (h.beside y).idles h hledger id rfl rfl
    · refine ((h.mark hx dirty).beside y).idles h hledger ?_ rfl rfl
      rintro hstep _ e ⟨⟩ he hnum
      exact hstep x e hx he hnum
  exact Op.Does.get_bind (Op.Does.pure ⟨hidles.streams.stocks.eofPos_eq, hidles⟩)

/-! ## Chunks in memory

A container with streamed chunks keeps the current chunk and no other. Clearing or resizing what
is kept therefore changes a setting and nothing else. -/

theorem idles_retool (h : s.Streams g ink c d) (config : ContainerConfig) {pool : Pool}
    (hpool : pool.entries = []) :
    s.Idles { s with config, pool, useCache := false } g ink c d :=
  (h.retool config hpool).idles h rfl id rfl rfl

/-- The current chunk is not forgotten, because it may not be in the file as it is in memory. -/
theorem invalidate_does (h : s.Streams g ink c d) :
    invalidate.Does full s (fun _ s' => s.Idles s' g ink c d) (fun s' => s'.Streams g ink c d) := by
  unfold invalidate
  refine Op.Does.bind h.ensureOpen_does ?_
  rintro - s rfl
  refine Op.Does.get_bind ?_
  rw [h.mode, h.isWrite, h.appending]
  -- the container may be written to and appends, so it is flushed rather than emptied
  refine Op.Does.bind (h.flushAll_does none) ?_
  rintro - t ⟨⟨ht, hrests, hseek⟩, -⟩
  have hcleared : t.Idles { t with config := t.config, pool := t.pool.clear, useCache := false }
      g ink c d :=
    ht.idles_retool t.config rfl
  rw [← ht.useCache] at hcleared
  exact Op.Does.modify_bind rfl (Op.Does.pure
    ⟨hcleared.streams, hrests.trans hcleared.rests, hseek⟩)

theorem setMaxCached_does (h : s.Streams g ink c d) (count : Nat) {err : Session → Prop} :
    (setMaxCached count).Does full s (fun _ s' => s.Idles s' g ink c d) err := by
  have hentries := s.pool.entries_setCapacity (max count 1)
  rw [h.pool] at hentries
  unfold setMaxCached
  refine Op.Does.get_bind ?_
  generalize s.pool.setCapacity (max count 1) = shrunk at hentries ⊢
  obtain ⟨evicted, pool⟩ := shrunk
  -- there was nothing to evict
  obtain ⟨rfl, hpool⟩ := List.append_eq_nil_iff.mp hentries
  have hset := h.idles_retool { s.config with maxCachedChunks := max count 1 } hpool
  rw [← h.useCache] at hset
  exact Op.Does.set_bind rfl (Op.Does.pure hset)

theorem setCacheEnabled_does (h : s.Streams g ink c d) (enabled : Bool) {err : Session → Prop} :
    (setCacheEnabled enabled).Does full s (fun _ s' => s.Idles s' g ink c d) err := by
  let config : ContainerConfig := { s.config with cacheEnabled := enabled }
  have hconfigured := h.idles_retool config h.pool
  rw [← h.useCache] at hconfigured
  unfold setCacheEnabled
  refine Op.Does.bind (P := fun _ t => t = { s with config }) (Op.Does.modify rfl rfl) ?_
  rintro - t ht
  rw [← ht] at hconfigured
  obtain ⟨ht, hrests, hseek⟩ := hconfigured
  -- chunks that are streamed are never kept, whatever the setting
  have hpolicy : t.cachePolicy = false := by simp [cachePolicy, ht.streaming]
  refine Op.Does.get_bind (Op.Does.when (fun _ => ?_) fun hclosed => absurd ht.isOpen hclosed)
  simp only [hpolicy, Bool.false_eq_true, if_false, Pool.drain, ht.pool]
  have hdrained : t.Idles { t with config := t.config, pool.entries := [], useCache := false }
      g ink c d :=
    ht.idles_retool t.config rfl
  exact Op.Does.set_bind rfl (Op.Does.pure
    ⟨hdrained.streams, hrests.trans hdrained.rests, hseek⟩)

theorem idles_setBlock (h : s.Streams g ink c d) (size : Nat) :
    s.Idles { s with toContainer := s.toContainer.setBlock size } g ink c d := by
  have hset := h.idles_retool { s.config with maxProcessingSize := max size 1 } h.pool
  rwa [← h.useCache] at hset

end Streams

end Session

/-! ## Any call

The calls that place bytes need the key stream to be in step; the others keep whatever there is.
`Partway` is the same conclusion for all of them: what is stored is the start of what is placed. -/

namespace Call

open Session

variable {s : Session} {g : Channel} {ink : Ink} {c d : Bytes}

/-- Does the call place bytes, if it can? -/
def places : Call → Bool
  | write _ | truncate _ _ => true
  | _ => false

/-- All that is placed if the call can place what it wants to. -/
def placedAfter (content : Bytes) : Call → Bytes
  | write data => content ++ data
  | truncate newSize _ => content.resize (max newSize content.length)
  | _ => content

/-- **After every call, answered or not, what is stored is the start of what is placed,** and what
is placed is what was placed before and a part of what the call was to place — if the key stream was
in step before the call. -/
theorem run_partway (h : s.Streams g ink c d) (call : Call)
    (hstep : call.places = true → s.InStep) :
    call.run.Does True s (fun _ s' => s'.Partway g c (call.placedAfter c))
      (fun s' => s'.Partway g c (call.placedAfter c)) := by
  have hstill : s.Partway g c c := h.partway (List.prefix_refl c)
  have hsame {s' : Session} (h' : s'.Streams g ink c d) : s'.Partway g c c :=
    h'.partway (List.prefix_refl c)
  have hquiet {α : Type} {x : Op α} {f : α → Answer}
      (hx : x.Does True s (fun _ s' => s.Idles s' g ink c d) (fun s' => s'.Streams g ink c d)) :
      Op.Does (do return f (← x)) True s (fun _ s' => s'.Partway g c c)
        (fun s' => s'.Partway g c c) :=
    hx.told True (fun _ _ h' => hsame h'.streams) fun _ => hsame
  -- only writing and growing move the content, and both add to its end
  cases call with
  | seek pos =>
    by_cases hpos : pos = c.length
    · subst hpos
      exact h.seek_does.told _ (fun _ _ h' => hsame h'.1) fun _ => hsame
    · exact .told_of_error (h.seek_refused hpos) hstill
  | read n =>
    by_cases hn : n = 0
    · exact .told_of_pure (if_pos hn) hstill
    · exact .told_of_error (h.read_refused hn) hstill
  | write data =>
    have hprefix : c <+: c ++ data := List.prefix_append c data
    -- without bytes nothing is written, and nothing is encrypted
    by_cases hdata : data = []
    · exact .told_of_pure (if_pos hdata) (h.partway hprefix)
    · exact (h.write_does (hstep rfl) hdata).told _
        (fun _ _ ⟨_, hflows, _⟩ => hflows.partway hprefix) fun _ => id
  | truncate newSize backup =>
    have hprefix : c <+: c.resize (max newSize c.length) :=
      Bytes.prefix_resize (Nat.le_max_right _ _)
    -- cutting is refused in an appending mode; growing writes zeros
    by_cases hle : c.length ≤ newSize
    · rw [placedAfter, Nat.max_eq_left hle] at *
      refine (h.truncate_does (hstep rfl) hle backup).told _ ?_ fun _ => id
      rintro _ s' (⟨-, rfl⟩ | ⟨hflows, -⟩)
      · exact h.partway hprefix
      · exact hflows.partway hprefix
    · exact .told_of_error (h.truncate_refused (Nat.lt_of_not_le hle) backup) (h.partway hprefix)
  | contentSize =>
    have hsize : Container.contentSize.Does True s (fun _ s' => s' = s)
        (fun s' => s'.Streams g ink c d) :=
      Op.Does.of_eq h.contentSize_eq rfl
    exact hsize.told True (fun _ _ hs => hs ▸ hstill) fun _ => hsame
  | position => exact Op.Does.get_bind (Op.Does.pure hstill)
  | flush deep =>
    exact (h.flushAll_does (some deep)).told True (fun _ _ h' => hsame h'.1.streams) fun _ => hsame
  | sync => exact hquiet h.sync_does
  | fsync => exact hquiet h.fsync_does
  | usedSize =>
    have hused : Op.Does (discard Container.usedSize) True s (fun _ s' => s.Idles s' g ink c d)
        (fun s' => s'.Streams g ink c d) :=
      (h.usedSize_does.mono (fun _ _ h' => h'.2) fun _ => id).discard
    exact hquiet hused
  | invalidate => exact hquiet h.invalidate_does
  | setMaxCached count => exact hquiet (h.setMaxCached_does count)
  | setCacheEnabled enabled => exact hquiet (h.setCacheEnabled_does enabled)
  | setBlock size =>
    exact Op.Does.modify_bind rfl (Op.Does.pure (hsame (h.idles_setBlock size).streams))

end Call

end Vault
