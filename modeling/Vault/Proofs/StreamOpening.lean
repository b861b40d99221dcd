import Mathlib.Algebra.Group.Nat.Defs
import Vault.Proofs.Launching
import Vault.Proofs.StreamCalls

/-!
# `Vault/Proofs/StreamOpening.lean` — coming back to streamed chunks

A container with streamed chunks does not trust the size of the content in the header. **Opening one
computes that size from the size of the chunk data,** and the chunk data that the header does not
tell of counts as something that stands behind it. A container that was just opened for appending
stands at its end, and its key stream is that of no chunk.
-/

set_option autoImplicit false

namespace Vault

/-! ## Files

A descriptor for streamed chunks always comes with a stream key, because a suite without one is
refused when it is read. -/

/-- A suite with a stream cipher has a key for it. -/
theorem WorkingKeys.exists_stream {master : MasterKey} {kdf : Kdf} {suite : Suite} {salt : Bytes}
    {rounds : Nat} {keys : WorkingKeys}
    (h : (derive master kdf suite salt rounds).mapError Error.crypto = .ok keys)
    (hstreams : suite.streams = true) : ∃ key, keys.stream = some key := by
  unfold derive at h
  split at h
  · exact absurd h nofun
  · obtain rfl := Except.ok.inj h
    exact ⟨_, if_pos hstreams⟩

/-- A descriptor for streamed chunks is refused if its suite has no stream cipher. -/
theorem Processor.exists_stream {p p' : Processor} {data : Bytes}
    (h : p.unpackDescriptor data = .ok p') (hstreaming : p.config.streaming = true) :
    ∃ keys key, p'.keys = some keys ∧ keys.stream = some key := by
  unfold unpackDescriptor at h
  simp only [bind, Except.bind, pure, Except.pure, hstreaming, Bool.true_and] at h
  repeat' split at h
  all_goals first
    | contradiction
    | exact absurd ‹throw _ = Except.ok _› nofun
    | rename_i hstreams _ keys hkeys
      obtain ⟨key, hkey⟩ := WorkingKeys.exists_stream hkeys (by simpa using hstreams)
      obtain rfl := Except.ok.inj h
      exact ⟨keys, key, rfl, hkey⟩

namespace Metadata

variable {m : Metadata} {raw : Bytes} {ink : Ink} {told stored rest : Bytes} {last : Nat}

/-- With a descriptor for streamed chunks comes a key for the stream. -/
theorem exists_streamKey (h : m.streaming = true) : ∃ key, m.keys.stream = some key := by
  obtain ⟨keys, key, hkeys, hkey⟩ := Processor.exists_stream
    (m.opens (Processor.ofConfig m.master { streaming := true }) rfl h.symm) rfl
  obtain rfl := Option.some.inj hkeys
  exact ⟨key, hkey⟩

namespace Carries

/-- What the header does not tell of is a part of the rest. -/
theorem untold (h : m.Carries raw ink told stored rest)
    (hends : m.layout.EndsIn last stored.length) : ∃ rest', m.Carries raw ink told told rest' := by
  obtain ⟨tail, htail⟩ : m.layout.ciphertext ink told <+: m.layout.ciphertext ink stored :=
    hends.ciphertext_mono h.told
  obtain ⟨n, hn, rfl⟩ := h.raw_eq
  refine ⟨tail ++ rest, ⟨n, hn, ?_⟩, List.prefix_refl told⟩
  rw [← htail, List.append_assoc]

theorem slice_header (h : m.Carries raw ink told stored rest) :
    ∃ n < offsetLimit,
      raw.slice 0 Header.size = m.header n (m.layout.ciphertext ink told).length := by
  obtain ⟨n, hn, rfl⟩ := h.raw_eq
  refine ⟨n, hn, ?_⟩
  rw [Bytes.slice, List.drop_zero]
  exact List.take_left' (by simp [header])

theorem slice_descriptor (h : m.Carries raw ink told stored rest) :
    raw.slice Header.size m.descriptor.length = m.descriptor := by
  obtain ⟨n, hn, rfl⟩ := h.raw_eq
  rw [Bytes.slice, List.drop_left' (by simp [header]), List.take_left]

end Carries

/-- Header and descriptor of a new file carry nothing. -/
theorem carries_new (m : Metadata) (ink : Ink) :
    m.Carries (m.header 0 0 ++ m.descriptor) ink [] [] [] where
  raw_eq := ⟨0, by decide, by simp [Layout.ciphertext, Layout.chunksFor]⟩
  told := List.prefix_refl []

/-- Chunk data of a content that is far from the limit lies far from the limit. -/
theorem end_lt_of_small (ink : Ink) (hstreaming : m.streaming = true)
    (hends : m.layout.EndsIn last stored.length) (hsmall : stored.length < 2 ^ 62) :
    m.dataOffset + (m.layout.ciphertext ink stored).length < offsetLimit := by
  have hcounted : m.layout.chunksFor stored.length ≤ last + 1 := by
    rw [hends.chunksFor_eq]
    split <;> omega
  have hnumbered := hends.numbered
  have hdescriptor := m.small
  rw [hends.length_ciphertext_eq (packs_of_streaming hstreaming), dataOffset]
  simp only [Header.size, Salsa20.nonceSize, seqnumLimit, offsetLimit] at hnumbered ⊢
  omega

end Metadata

/-! ## Closed containers

What can be known of a container from its file and from the processor that will open it. The rest
behind the told chunk data may hold chunk data that no header tells of. -/

/-- Where a new container is open. -/
structure Channel.Begins (g : Channel) (s : Session) (mode : Mode) : Prop where
  path : g.path = s.path
  mode : g.mode = mode
  master : g.metadata.master = s.processor.master
  firstMax : g.metadata.firstMax = s.processor.config.firstMax
  chunkMax : g.metadata.chunkMax = s.processor.config.chunkMax

namespace Session

variable {s s' : Session} {m : Metadata} {file : Nat} {g : Channel} {ink : Ink} {c d told : Bytes}
  {mode : Mode}

/-- A closed container with streamed chunks in its file, and the content that the header tells of.
-/
structure Shelved (s : Session) (m : Metadata) (file : Nat) (ink : Ink) (told : Bytes) : Prop where
  closed : s.handle = none
  found : s.disk.find? s.path = some file
  there : file < s.disk.files.length
  master : s.processor.master = m.master
  kind : s.processor.config.streaming = true
  streaming : m.streaming = true
  key : m.keys.stream = some ink.key
  carries : ∃ rest, m.Carries (s.disk.contents file) ink told told rest
  ends : ∃ last, m.layout.EndsIn last told.length

/-- Where and as what the container will be open. -/
def Shelved.channel (h : s.Shelved m file ink told) (mode : Mode) : Channel where
  path := s.path
  file := file
  names := s.disk.names
  mode := mode
  processor := m.install s.processor
  metadata := m
  key := ink.key
  trail := .kept told.length (m.dataOffset + (m.layout.ciphertext ink told).length)
    ((s.disk.contents file).drop (m.dataOffset + (m.layout.ciphertext ink told).length))
  keyed := m.keys_install s.processor
  streamKey := h.key
  firstMax := m.firstMax_install s.processor
  chunkMax := m.chunkMax_install s.processor
  master := h.master
  kind := h.kind
  streaming := h.streaming
  found := h.found

theorem Shelved.read? (h : s.Shelved m file ink told) :
    s.disk.read? s.path = some (s.disk.contents file) := by
  rw [Disk.read?, h.found]
  rfl

/-- A closed container for streamed chunks that has no file yet. -/
structure Fresh (s : Session) : Prop where
  closed : s.handle = none
  absent : s.disk.find? s.path = none
  place : Disk.hasPlace s.path = true
  valid : s.processor.config.validate = .ok ()
  kind : s.processor.config.streaming = true

theorem fresh_pristine {path : String} {processor : Processor} {config : ContainerConfig}
    {random : Random} (hplace : Disk.hasPlace path = true)
    (hvalid : processor.config.validate = .ok ()) (hkind : processor.config.streaming = true) :
    (pristine path processor config random).Fresh where
  closed := rfl
  absent := by simp [pristine, Disk.find?]
  place := hplace
  valid := hvalid
  kind := hkind

/-- Whoever finds the file of a container that is added to and has the master key can open it, and
the header tells of a start of what is stored. -/
theorem Streams.shelved (h : s.Streams g ink c d) (hclosed : s'.handle = none)
    (hdisk : s'.disk = s.disk) (hpath : s'.path = g.path)
    (hmaster : s'.processor.master = g.metadata.master)
    (hkind : s'.processor.config.streaming = true) :
    ∃ told, told <+: d ∧ (s.sizeDirty = false → told = d) ∧
      s'.Shelved g.metadata g.file ink told := by
  -- the header was last written when `told` was all that was stored
  obtain ⟨told, rest, hcarries, -, htold⟩ := h.carries
  obtain ⟨i, -, hends⟩ := h.ends.of_le h.grows.length_le
  obtain ⟨j, -, hends'⟩ := hends.of_le hcarries.told.length_le
  refine ⟨told, hcarries.told, htold, ?_⟩
  exact
    { closed := hclosed
      found := by
        show s'.disk.names.lookup s'.path = _
        rw [hdisk, h.names, hpath, g.found]
      there := hdisk ▸ h.file
      master := hmaster, kind := hkind, streaming := g.streaming
      key := g.streamKey.trans (congrArg some h.key.symm)
      carries := hdisk ▸ hcarries.untold hends
      ends := ⟨j, hends'⟩ }

/-! ## Containers that were just opened

Opening comes to the sizes first and to a chunk afterwards. In between, what the header tells of
counts as everything there is, so that content and stored content are the same. -/

/-- The sizes are known, and no chunk is current yet. -/
structure Loaded (s : Session) (g : Channel) (ink : Ink) (content : Bytes) : Prop
    extends s.Tuned g where
  key : ink.key = g.key
  carries : ∃ rest, g.metadata.Carries (s.disk.contents g.file) ink content content rest
  trail : g.trail.Fits (s.disk.contents g.file) s.eofPos s.size content.length s.tailCut
  ciphertextSize : s.ciphertextSize = (g.layout.ciphertext ink content).length
  size : s.size = content.length
  last : g.layout.seqnumOf? content.length = some s.eofSeqnum
  current : s.current = none
  stream : s.processor.stream = none
  tailCut : s.tailCut = false
  seekCursor : s.seekCursor = 0

namespace Loaded

theorem beside (h : s.Loaded g ink c) (y : Surroundings) : (s.beside y).Loaded g ink c :=
  { h.toTuned.beside y with
    key := h.key, carries := h.carries, trail := h.trail, ciphertextSize := h.ciphertextSize
    size := h.size, last := h.last, current := h.current, stream := h.stream, tailCut := h.tailCut
    seekCursor := h.seekCursor }

theorem stocks (h : s.Loaded g ink c) : s.Stocks g ink c where
  toTuned := h.toTuned
  key := h.key
  carries := let ⟨rest, hcarries⟩ := h.carries; ⟨c, rest, hcarries⟩
  ciphertextSize := h.ciphertextSize
  ends := ⟨_, Layout.EndsIn.of_seqnumOf? h.last⟩

/-- Where only appending is allowed, all of the content counts as placed. -/
theorem streams (h : s.Loaded g ink c) (happ : g.mode.isAppend = true) : s.Streams g ink c c :=
  { h.toTuned with
    appending := happ, key := h.key
    carries := by
      obtain ⟨rest, hcarries⟩ := h.carries
      exact ⟨c, rest, hcarries, by simp [h.tailCut], fun _ => rfl⟩
    trail := h.trail
    ciphertextSize := h.ciphertextSize, size := h.size, grows := List.prefix_refl c
    seekCursor := h.seekCursor ▸ Nat.zero_le _
    ends := Layout.EndsIn.of_seqnumOf? h.last
    current := by simp [h.current]
    absent := fun _ _ _ => .inl ⟨rfl, .inl h.stream⟩
    stream := by simp [h.stream] }

theorem inStep (h : s.Loaded g ink c) : s.InStep := by
  intro x e hx
  simp [h.current] at hx

end Loaded

/-- A container that was just opened for appending stands at its end, and its stream is that of no
chunk. -/
structure Poised (s : Session) (g : Channel) (ink : Ink) (content : Bytes) : Prop where
  streams : s.Streams g ink content content
  inStep : s.InStep
  stream : s.processor.stream = none
  seekCursor : s.seekCursor = content.length
  current : ∃ x, s.current = some x

/-- The last chunk is made current. -/
theorem Poised.of_moveTo (h : s.Streams g ink c c) (hstep : s.InStep)
    (hstream : s.processor.stream = none) :
    Op.Does (do
        Container.moveTo c.length 0
        modify fun s => { s with seekCursor := c.length })
      (g.layout.seqnumOf? c.length = none) s (fun _ s' => s'.Poised g ink c)
      (fun s' => s'.isOpen = true) := by
  refine Op.Does.bind (((h.moveTo_does c.length 0).mono (fun _ _ => id)
    fun _ h' => h'.isOpen).relax ?_) ?_
  · rintro (hne | hne | hnone)
    · exact absurd rfl hne
    · exact absurd rfl hne
    · exact hnone
  -- moving leaves the stream of the processor as it was, and that was none
  rintro - t ⟨-, ht, hrests, hprocessor, -, x, hx, -⟩
  exact Op.Does.modify rfl ⟨ht.seek (Nat.le_refl _), hrests.inStep hstep,
    (congrArg _ hprocessor).trans hstream, rfl, x, hx⟩

end Session

namespace Container

open Session

variable {s : Session} {m : Metadata} {file : Nat} {g : Channel} {ink : Ink} {c d : Bytes}
  {mode : Mode} {full : Prop}

/-- Streamed chunks are not kept. -/
theorem cachePolicy_of_streaming {c : Container} (h : c.processor.config.streaming = true) :
    c.cachePolicy = false := by
  simp [cachePolicy, h]

/-- **Opening a file with streamed chunks** comes to sizes that go together, and then the first or
the last chunk is made current. -/
theorem launchStream_does (h : s.Shelved m file ink c) (hmode : mode.createsFile true = false)
    (hsmall : c.length < 2 ^ 62) {metadataOnly : Bool} {ok : Unit → Session → Prop}
    (hdone : metadataOnly = true → ∀ u : Session, u.Loaded (h.channel mode) ink c → ok () u)
    (hmove : metadataOnly = false → ∀ u : Session, u.Loaded (h.channel mode) ink c →
      Op.Does (do
          let start := if mode.isAppend then c.length else 0
          moveTo start 0
          modify fun s => { s with seekCursor := start })
        (m.layout.seqnumOf? c.length = none) u ok fun s' => s'.isOpen = true) :
    (launch mode metadataOnly).Does (m.layout.seqnumOf? c.length = none) s ok
      (fun s' => s'.handle = none) := by
  have hthere : s.disk.contains s.path = true := by simp [Disk.contains, h.found]
  obtain ⟨last, hends⟩ := h.ends
  obtain ⟨rest, hcarries⟩ := h.carries
  obtain ⟨n, hn, hheader⟩ := hcarries.slice_header
  have hpacks := Metadata.packs_of_streaming h.streaming
  have hlength := hcarries.length_eq
  have hend := Metadata.end_lt_of_small ink h.streaming hends hsmall
  unfold launch
  refine Op.Does.get_bind (Op.Does.get_bind ?_)
  simp only [hthere, hmode, Bool.false_eq_true, if_false]
  refine Op.Does.modify_bind rfl (Op.Does.bind (openThere_does h.closed h.found hmode) ?_)
  -- the raw file is there; header and descriptor are read as the metadata say
  rintro - - ⟨faults, trace, rfl⟩
  refine launched_does (loadLayout_reads rfl hn ?small hheader hcarries.slice_descriptor ?present
    ?master ?kind fun z => ?rest)
  case small => omega
  case present =>
    show m.dataOffset ≤ (s.disk.contents file).length
    omega
  case master => exact h.master
  case kind => exact h.kind.trans h.streaming.symm
  case rest =>
    -- the size of the content is computed from the size of the chunk data, and it comes out right
    refine Op.Does.bind (loadSizes_reads (n := c.length) rfl ?layout ?size ?fits hend ?place) ?_
    case layout => exact Metadata.layout_eq rfl rfl (h.kind.trans h.streaming.symm)
    case size =>
      have hlead : (m.install s.processor).streamLead = Salsa20.nonceSize := if_pos h.kind
      refine (if_pos h.kind).trans ?_
      show m.layout.streamedSize _ (m.install s.processor).streamLead = _
      rw [hlead]
      exact hends.streamedSize_ciphertext hpacks
    case fits =>
      show m.dataOffset + _ ≤ (s.disk.contents file).length
      dsimp only
      omega
    -- the chunk that holds the end begins in front of the end of the chunk data
    case place =>
      intro i hi
      have hplace := (Layout.EndsIn.of_seqnumOf? hi).length_ciphertext ink hpacks
      rw [Metadata.dataOffset_layout] at hplace
      exact hplace ▸ Nat.le_add_right _ _
    rintro - u ⟨i, w, hi, hu⟩
    have hloaded : u.Loaded (h.channel mode) ink c := by
      rw [hu]
      refine Loaded.beside
        (Loaded.mk ?tuned rfl ⟨rest, hcarries⟩ ?kept rfl rfl hi rfl rfl rfl rfl) w
      case kept => exact Trail.fits_kept
      exact
        { path := rfl, names := rfl, file := h.there, handle := ⟨_, rfl⟩, mode := rfl
          useCache := cachePolicy_of_streaming h.kind
          pool := rfl, layout := rfl, processor := rfl }
    -- reading the sizes only stops here; otherwise the container moves to where it starts
    cases metadataOnly with
    | true => exact Op.Does.pure (hdone rfl u hloaded)
    | false =>
      refine Op.Does.get_bind ?_
      rw [hloaded.mode, hloaded.size]
      exact hmove rfl u hloaded

/-- **A container that is opened for appending stands at its end.** -/
theorem openStream_does (h : s.Shelved m file ink c) (happ : mode.isAppend = true)
    (hsmall : c.length < 2 ^ 62) :
    (openIn mode).Does (m.layout.seqnumOf? c.length = none) s
      (fun _ s' => s'.Poised (h.channel mode) ink c) (fun s' => s'.handle = none) := by
  have hmode : mode.allowsStreaming = true ∧ mode.createsFile true = false := by
    cases mode <;> simp [Mode.isAppend] at happ <;> exact ⟨rfl, rfl⟩
  unfold openIn
  refine Op.Does.get_bind ?_
  rw [if_neg (by simp [Container.isOpen, h.closed]), if_neg (by simp [hmode.1])]
  refine launchStream_does h hmode.2 hsmall (fun hbad => absurd hbad (by simp)) fun _ u hu => ?_
  simp only [happ, if_true]
  exact Poised.of_moveTo (hu.streams happ) hu.inStep hu.stream

/-! ## New containers

A new container has its metadata written, and then an empty chunk 0. The nonces of its chunks are
not known yet; any ink does for a content without bytes. -/

/-- **A new container is empty.** -/
theorem createStream_does (mode : Mode) (file : Nat)
    (hopening : s.toOpening = { mode, useCache := s.useCache }) (huse : s.useCache = false)
    (hpool : s.pool.entries = []) (hhandle : s.handle = some { file, writable := true })
    (hfile : file < s.disk.files.length)
    (hfound : s.disk.names.lookup s.path = some file) (hempty : s.disk.contents file = [])
    (hvalid : s.processor.config.validate = .ok ())
    (hkind : s.processor.config.streaming = true) (happ : mode.isAppend = true) :
    createLayout.Does full s
      (fun _ s' => ∃ g ink, g.Begins s mode ∧ s'.Poised g ink [])
      (fun s' => s'.isOpen = true) := by
  refine createLayout_writes hhandle hempty hvalid
    fun m random x hmaster hstreaming hfirst hchunk => ?_
  obtain ⟨key, hkey⟩ := Metadata.exists_streamKey (hstreaming.trans hkind)
  let g : Channel :=
    { path := s.path, file, names := s.disk.names, mode
      processor := m.install s.processor.reset, metadata := m, key, trail := .cut
      keyed := m.keys_install _, streamKey := hkey, firstMax := m.firstMax_install _
      chunkMax := m.chunkMax_install _, master := hmaster.symm, kind := hkind
      streaming := hstreaming.trans hkind, found := hfound }
  -- no chunk is stored, so the nonces that are named here are never looked at
  let ink : Ink :=
    { key, nonce := fun _ => Bytes.zeros Salsa20.nonceSize
      length_nonce := fun _ => Bytes.length_zeros _ }
  have hwrite : mode.isWrite = true := Mode.isWrite_of_isAppend happ
  obtain ⟨hcurrent, hcut, hmode⟩ : s.current = none ∧ s.tailCut = false ∧ s.mode = mode := by
    rw [hopening]
    exact ⟨rfl, rfl, rfl⟩
  obtain ⟨hseek, hct, hsize, heof⟩ : s.seekCursor = 0 ∧ s.ciphertextSize = 0 ∧ s.size = 0 ∧
      s.eofSeqnum = 0 := by
    rw [hopening]
    exact ⟨rfl, rfl, rfl, rfl⟩
  have hnil : g.layout.ciphertext ink [] = [] := by simp [Layout.ciphertext, Layout.chunksFor]
  refine Op.Does.bind (P := fun _ u => u.Loaded g ink []) (Op.Does.modify rfl ?_) ?_
  · have htuned : Tuned { s with
        random, processor := m.install s.processor.reset, layout := m.layout } g :=
      { path := rfl, names := rfl, file := hfile
        handle := ⟨0, hhandle.trans (by rw [hwrite])⟩, mode := hmode
        useCache := huse, pool := hpool, layout := rfl, processor := rfl }
    have hraw := htuned.contents_withContents (m.header 0 0 ++ m.descriptor)
    -- nothing is carried, and nothing stands behind it
    refine Loaded.beside (c := []) (Loaded.mk (htuned.withContents _) rfl ⟨[], ?_⟩ ?_
      (hnil ▸ hct) hsize ?_ hcurrent rfl hcut hseek) x
    · rw [hraw]
      exact Metadata.carries_new m ink
    · rw [hraw]
      refine List.drop_eq_nil_of_le ?_
      show _ ≤ m.dataOffset + s.ciphertextSize
      simp only [Metadata.header, List.length_append, Header.length_written, Metadata.dataOffset]
      omega
    · show g.layout.seqnumOf? 0 = some s.eofSeqnum
      rw [heof]
      exact Layout.seqnumOf?_zero _
  rintro - u hu
  have hroom : ¬g.layout.seqnumOf? ([] : Bytes).length = none := by
    rw [List.length_nil, Layout.seqnumOf?_zero]
    simp
  refine Op.Does.bind ((((hu.streams happ).moveTo_does 0 0).mono (fun _ _ => id)
    fun _ h' => h'.isOpen).relax ?_) ?_
  · rintro (hne | hne | hnone)
    · exact absurd rfl hne
    · exact absurd rfl hne
    · exact absurd hnone hroom
  -- the first chunk is come to, and nothing of it is in the file
  rintro - t ⟨-, ht, hrests, hprocessor, hseek', y, hy, -⟩
  refine Op.Does.bind (ht.flushActive_does hy) ?_
  rintro - - ⟨z, rfl⟩
  have hmarked := (ht.mark hy false).beside z
  have hstays {v : Session} :
      writeSize.Keeps (fun t => ∃ x, t.current = some x) (fun _ => True) v :=
    writeSize_keeps (fun _ _ _ h => h) (fun _ h => h) (fun _ h => h) id
      { faults := fun _ h => h, handle := fun _ h => h, noted := fun _ h => h }
  -- writing the sizes leaves the current chunk current
  refine (hmarked.writeSize_does.keeping hstays ⟨_, rfl⟩).mono ?_ fun _ h' => h'.1.isOpen
  rintro - s' ⟨⟨h', -, hstep, hprocessor', hseek''⟩, hcurrent'⟩
  refine ⟨g, ink, ⟨rfl, rfl, hmaster, hfirst, hchunk⟩, h', hstep ?_,
    (congrArg _ (hprocessor'.trans hprocessor)).trans hu.stream,
    (hseek''.trans hseek').trans hu.seekCursor, hcurrent'⟩
  rintro _ e ⟨⟩ he hnum
  exact hrests.inStep hu.inStep y e hy he hnum

/-- **A new container that is opened for appending is empty.** -/
theorem openFresh_does (h : s.Fresh) :
    (openIn .append).Does full s (fun _ s' => ∃ g ink, g.Begins s .append ∧ s'.Poised g ink [])
      (fun s' => s'.handle = none) := by
  have hthere : s.disk.contains s.path = false := by simp [Disk.contains, h.absent]
  unfold openIn
  refine Op.Does.get_bind ?_
  rw [if_neg (by simp [Container.isOpen, h.closed]), if_neg (by simp [Mode.allowsStreaming])]
  unfold launch
  refine Op.Does.get_bind (Op.Does.get_bind ?_)
  simp only [hthere]
  refine Op.Does.modify_bind rfl (Op.Does.bind
    (openEmpty_does ?closed ?there rfl (fun hbad => absurd hbad (by simp)) (fun _ => h.place)
      ?listed) ?_)
  case closed => exact h.closed
  case there => exact hthere
  case listed =>
    intro file hfile
    exact absurd (hfile.symm.trans h.absent) (by simp)
  rintro - - ⟨file, disk, faults, trace, rfl, hlt, hfound, hempty⟩
  refine launched_does ((createStream_does .append file ?opening ?cache ?pool ?handle hlt ?found
    hempty ?valid ?kind rfl).mono ?_ fun _ => id)
  case opening => exact rfl
  case cache => exact cachePolicy_of_streaming h.kind
  case pool => exact rfl
  case handle => exact rfl
  case found => exact hfound
  case valid => exact h.valid
  case kind => exact h.kind
  rintro _ s' ⟨g, ink, hg, h'⟩
  exact ⟨g, ink, { hg with }, h'⟩

/-! ## Closing

A close that succeeds has written the sizes, so the header tells everything that is stored. A
close that fails may leave what the header told before. -/

/-- **Closing leaves a file that tells what is stored,** or, when it fails, a start of that. -/
theorem closeStream_does (h : s.Streams g ink c d) :
    close.Does full s
      (fun _ s' => s'.path = g.path ∧ s'.Shelved g.metadata g.file ink d ∧
        g.trail.Fits (s'.disk.contents g.file)
          (g.metadata.dataOffset + (g.layout.ciphertext ink d).length) c.length d.length false)
      (fun s' => s'.path = g.path ∧
        ∃ told, told <+: d ∧ s'.Shelved g.metadata g.file ink told) := by
  -- the container forgets, and the file is that of the moment before
  have hshelved {t s' : Session} (ht : t.Streams g ink c d) (hforgotten : t.Forgotten s') :
      s'.path = g.path ∧ ∃ told, told <+: d ∧ (t.sizeDirty = false → told = d) ∧
        s'.Shelved g.metadata g.file ink told := by
    obtain ⟨y, rfl⟩ := hforgotten
    refine ⟨ht.path, ht.shelved rfl rfl ht.path ?_ ht.streaming⟩
    show t.processor.master = _
    rw [ht.processor]
    exact g.master
  unfold close
  refine Op.Does.get_bind ?_
  rw [if_pos h.isOpen]
  refine (shutFlushed_does h.isOpen ((h.flushAll_does (some false)).mono
    (fun _ t ht => (⟨ht.1.streams, ht.2⟩ : t.Streams g ink c d ∧ t.sizeDirty = false))
    fun _ => id) (fun _ ht => ht.1.isOpen) (fun _ ht => ht.isOpen) fun _ ht => ht.1).mono ?_ ?_
  · -- the sizes were written
    rintro - s' ⟨t, ⟨ht, hsized⟩, hforgotten⟩
    obtain ⟨hpath, told, -, htold, h'⟩ := hshelved ht hforgotten
    have htrail := ht.trail.reopen
    rw [ht.stocks.eofPos_eq_add, ht.size] at htrail
    obtain ⟨y, rfl⟩ := hforgotten
    exact ⟨hpath, htold hsized ▸ h', htrail⟩
  · rintro s' ⟨t, ht, hforgotten⟩
    obtain ⟨hpath, told, hprefix, -, h'⟩ := hshelved ht hforgotten
    exact ⟨hpath, told, hprefix, h'⟩

end Container

end Vault
