import Vault.Proofs.Opening

/-!
# `Vault/Proofs/Launching.lean` — from a closed container to an open one

A closed container *waits* for a content when its file keeps that content and its processor can
read it (`Session.Waits`). **Opening it shows that content, and opening a new file shows nothing.**
Without faults nothing else can happen, as long as the end of the content has a chunk number; and
where opening fails, the container is closed.

Opening has two ways, through a file that is there and through a new one, and each is followed from
the raw file to the state in which users find the container. Between the two stands the raw file
itself: which modes take it as it is, and which make it empty.
-/

set_option autoImplicit false

namespace Vault

/-! ## Files -/

namespace Disk

theorem contents_create (d : Disk) (name : String) (data : Bytes) :
    (d.create name data).2.contents d.files.length = data := by
  simp [create, contents]

theorem find?_create (d : Disk) (name : String) (data : Bytes) :
    (d.create name data).2.find? name = some d.files.length := by
  simp [create, find?]

theorem lt_length_create (d : Disk) (name : String) (data : Bytes) :
    d.files.length < (d.create name data).2.files.length := by
  simp [create]

end Disk

namespace Metadata

/-- Header and descriptor with nothing behind them keep the empty content. -/
theorem keeps_new {m : Metadata} (h : m.streaming = false) :
    m.Keeps (m.header 0 0 ++ m.descriptor) 0 0 [] where
  sealed := h
  head := by simp [header, Header.written, head]
  descriptor := by simp [header, Bytes.slice]
  reaches := Layout.reaches_zero _
  numbered := by decide
  start := Nat.le_refl 0
  within := .inr (Nat.zero_le _)
  extent := .inl ⟨rfl, rfl⟩
  present := by simp [header, dataOffset]
  opens := by
    intro i hi hpos
    obtain rfl : i = 0 := Nat.le_zero.mp hi
    simp [storedSize_last] at hpos
  plaintext := by simp [header, Header.written, Header.plaintextAt, Bytes.slice]
  ciphertext := by
    simp [header, Header.written, Header.ciphertextAt, Bytes.slice, List.drop_append,
      List.take_append]

end Metadata

/-! ## Containers that can be opened

A container can be opened again by whoever has the master key and its path. So what is needed of
a closed session is little, and `Waits` does not ask how it came to be closed. -/

/-- Where a new container is open. -/
structure Site.Begins (g : Site) (s : Session) (mode : Mode) : Prop where
  path : g.path = s.path
  mode : g.mode = mode
  /-- Chunks are kept only in the modes where that pays. -/
  useCache : g.useCache = true → g.mode.allowsCache = true
  config : g.config = s.config
  seekCursor : g.seekCursor = 0
  trail : g.trail = .cut
  master : g.metadata.master = s.processor.master
  firstMax : g.metadata.firstMax = s.processor.config.firstMax
  chunkMax : g.metadata.chunkMax = s.processor.config.chunkMax

namespace Session

variable {s s' : Session} {g : Site} {c d : Bytes} {m : Metadata} {file ct e : Nat} {mode : Mode}

/-- A closed container with a file that keeps a content. -/
structure Waits (s : Session) (m : Metadata) (file ciphertextSize last : Nat) (content : Bytes) :
    Prop where
  closed : s.handle = none
  found : s.disk.find? s.path = some file
  there : file < s.disk.files.length
  keeps : m.Keeps (s.disk.contents file) ciphertextSize last content
  master : s.processor.master = m.master
  kind : s.processor.config.streaming = m.streaming

/-- A closed container whose raw file is made when it is opened in this mode. -/
structure Vacant (s : Session) (mode : Mode) : Prop where
  closed : s.handle = none
  creates : mode.createsFile (s.disk.contains s.path) = true
  new : mode = .writeNew → s.disk.contains s.path = false
  place : s.disk.contains s.path = false → Disk.hasPlace s.path = true
  listed : ∀ file, s.disk.find? s.path = some file → file < s.disk.files.length
  valid : s.processor.config.validate = .ok ()
  sealed : s.processor.config.streaming = false

/-- Where a container will be open that waits for a content. -/
def Waits.site (h : s.Waits m file ct e c) (mode : Mode) (trail : Trail) : Site where
  path := s.path
  file := file
  names := s.disk.names
  writable := mode.isWrite
  mode := mode
  useCache := s.config.cacheEnabled && mode.allowsCache && !s.processor.config.streaming
  seekCursor := if mode.isAppend then c.length else 0
  config := s.config
  processor := m.install s.processor
  metadata := m
  trail := trail
  keyed := rfl
  firstMax := rfl
  chunkMax := rfl
  master := h.master
  kind := h.kind
  sealed := h.keeps.sealed
  found := h.found
  mayWrite := id

/-- After everything was written, whoever finds the raw file and has the master key can open it.
-/
theorem Flushed.waits (h : s.Flushed g c) (hclosed : s'.handle = none) (hdisk : s'.disk = s.disk)
    (hpath : s'.path = g.path) (hmaster : s'.processor.master = g.metadata.master)
    (hblock : s'.processor.config.streaming = false) :
    s'.Waits g.metadata g.file s.ciphertextSize s.eofSeqnum c where
  closed := hclosed
  found := by
    rw [hdisk, hpath]
    exact h.found
  there := hdisk ▸ h.file
  keeps := hdisk ▸ h.keeps
  master := hmaster
  kind := hblock.trans g.sealed.symm

/-- The container itself can open its file again. -/
theorem Flushed.waits_forgotten (h : s.Flushed g c) (hforgotten : s.Forgotten s') :
    s'.Waits g.metadata g.file s.ciphertextSize s.eofSeqnum c := by
  obtain ⟨x, rfl⟩ := hforgotten
  refine h.waits rfl rfl h.path ?_ ?_
  · show s.processor.master = _
    rw [h.processor, g.master]
  · exact h.blockwise

/-- The only thing known of a content is that it is empty. -/
theorem Shows.eofSeqnum_eq_zero (h : s.Shows g [] d) : s.eofSeqnum = 0 := by
  refine Classical.byContradiction fun hne => ?_
  have hpos : 0 < s.eofSeqnum := Nat.pos_of_ne_zero hne
  have hcap := h.recalls.reaches 0 hpos
  have hle := g.metadata.layout.startOf_add_capacity_le hpos
  have hstart := h.recalls.startOf_le_seen (Nat.le_refl s.eofSeqnum)
  simp at hstart
  omega

end Session

namespace Container

open Session

variable {s : Session} {g : Site} {c d : Bytes} {m : Metadata} {file ct e : Nat} {mode : Mode}
  {full : Prop}

/-! ## Making a new container

Header and descriptor go to the file first, and only then does the container have a layout and a
first chunk. That chunk is flushed empty, packed to its overhead, and the sizes in the header are
written once more. -/

/-- The metadata of a new container are made and written before anything else. -/
theorem createLayout_writes {file : Nat} {ok : Unit → Session → Prop}
    (hhandle : s.handle = some { file, writable := true }) (hempty : s.disk.contents file = [])
    (hvalid : s.processor.config.validate = .ok ())
    (hrest : ∀ (m : Metadata) (random : Random) (y : Surroundings),
      m.master = s.processor.master → m.streaming = s.processor.config.streaming →
      m.firstMax = s.processor.config.firstMax → m.chunkMax = s.processor.config.chunkMax →
      Op.Does (do
          modify fun s => { s with layout := m.layout }
          moveTo 0 0
          flushActive
          writeSize) full
        ((Session.withContents { s with random, processor := m.install s.processor.reset } file
          (m.header 0 0 ++ m.descriptor)).beside y) ok fun s' => s'.isOpen = true) :
    createLayout.Does full s ok (fun s' => s'.isOpen = true) := by
  obtain ⟨m, random, hpack, hmaster, hstreaming, hfirst, hchunk⟩ :=
    Processor.packMetadata_eq hvalid s.random
  have hlayout : (m.install s.processor.reset).layout (m.header 0 0 ++ m.descriptor).length
      = m.layout := by
    rw [show (m.header 0 0 ++ m.descriptor).length = m.dataOffset by
      simp [Metadata.header, Metadata.dataOffset]]
    exact Metadata.layout_eq rfl rfl hstreaming.symm
  have hne : m.header 0 0 ++ m.descriptor ≠ [] := by
    rw [ne_eq, ← List.length_eq_zero_iff]
    simp [Metadata.header, Header.size]
  have hcontents : Bytes.overlay (s.disk.contents file) 0 (m.header 0 0 ++ m.descriptor)
      = m.header 0 0 ++ m.descriptor :=
    -- what is written fills the empty file from its start
    Bytes.overlay_zero (hempty ▸ Nat.zero_le _)
  unfold createLayout
  refine Op.Does.get_bind (Op.Does.bind
    (P := fun made t => made = (m.header 0 0 ++ m.descriptor, m.install s.processor.reset) ∧
      t = { s with random }) (Op.Does.ofDraw hpack ⟨rfl, rfl⟩) ?_)
  rintro _ _ ⟨rfl, rfl⟩
  refine Op.Does.modify_bind rfl (Op.Does.bind ((writeAtHandle_does (s := { s with
    random, processor := m.install s.processor.reset }) hhandle rfl 0 hne).mono
      (fun _ _ => id) ?_) ?_)
  · rintro - ⟨x, rfl⟩
    rw [isOpen_beside]
    exact Option.isSome_iff_exists.mpr ⟨_, hhandle⟩
  rintro - - ⟨x, rfl⟩
  have hdone := hrest m random x hmaster hstreaming hfirst hchunk
  rw [← hcontents, ← hlayout] at hdone
  exact hdone

/-- **A new container shows the empty content,** and so does its file. -/
theorem createLayout_does (mode : Mode) (file : Nat)
    (hopening : s.toOpening = { mode, useCache := s.useCache }) (hpool : s.pool.entries = [])
    (hhandle : s.handle = some { file, writable := true })
    (hfile : file < s.disk.files.length) (hfound : s.disk.names.lookup s.path = some file)
    (hempty : s.disk.contents file = []) (hvalid : s.processor.config.validate = .ok ())
    (hblock : s.processor.config.streaming = false) (hwrite : mode.isWrite = true)
    (hcache : s.useCache = true → mode.allowsCache = true) :
    createLayout.Does full s
      (fun _ s' => ∃ g : Site, g.Begins s mode ∧ s'.Flushed g [] ∧ s'.Placed ∧ s'.Seated)
      (fun s' => s'.isOpen = true) := by
  refine createLayout_writes hhandle hempty hvalid
    fun m random x hmaster hstreaming hfirst hchunk => ?_
  have hsealed : m.streaming = false := hstreaming.trans hblock
  let g : Site :=
    { path := s.path, file, names := s.disk.names, writable := true, mode
      useCache := s.useCache, seekCursor := 0, config := s.config
      processor := m.install s.processor.reset, metadata := m
      trail := .cut, keyed := rfl, firstMax := rfl, chunkMax := rfl, master := hmaster.symm
      kind := hstreaming.symm, sealed := hsealed, found := hfound, mayWrite := fun _ => rfl }
  have hg : g.Begins s mode := ⟨rfl, rfl, hcache, rfl, rfl, rfl, hmaster, hfirst, hchunk⟩
  obtain ⟨hcurrent, hcursor, hdirty, hcut, hmode⟩ : s.current = none ∧ s.cursor = 0 ∧
      s.sizeDirty = false ∧ s.tailCut = false ∧ s.mode = mode := by
    rw [hopening]
    exact ⟨rfl, rfl, rfl, rfl, rfl⟩
  obtain ⟨hseek, hct, hsize, heof⟩ : s.seekCursor = 0 ∧ s.ciphertextSize = 0 ∧ s.size = 0 ∧
      s.eofSeqnum = 0 := by
    rw [hopening]
    exact ⟨rfl, rfl, rfl, rfl⟩
  have hlocated : Located { s with random, processor := m.install s.processor.reset } g :=
    { path := rfl, names := rfl, file := hfile, handle := ⟨0, hhandle⟩, mode := hmode
      useCache := rfl, config := rfl }
  refine Op.Does.bind (P := fun _ t => t.Shows g [] [] ∧ t.Idle) (Op.Does.modify rfl ?_) ?_
  · have hraw := hlocated.contents_withContents (m.header 0 0 ++ m.descriptor)
    have hentered : Entered { (Session.withContents { s with
        random, processor := m.install s.processor.reset } g.file
          (m.header 0 0 ++ m.descriptor)).beside x with layout := m.layout } g :=
      { { (hlocated.withContents _).beside x with } with
        current := hcurrent, cursor := hcursor, sizeDirty := hdirty, tailCut := hcut
        pool := hpool }
    refine ⟨hentered.shows 0 0 ?_ ?_ ?_ rfl rfl hseek hct hsize, hentered.idle⟩
    · exact (congrArg (fun raw => m.Keeps raw 0 0 []) hraw).mpr (Metadata.keeps_new hsealed)
    · show g.metadata.layout.seqnumOf? 0 = some s.eofSeqnum
      rw [heof]
      exact Layout.seqnumOf?_zero _
    · refine (congrArg (List.drop _) hraw).trans ?_
      exact List.drop_eq_nil_of_le
        (Nat.le_of_eq (by simp [Metadata.header, Metadata.dataOffset, g]))
  -- the first chunk is made current; it is not in the file, and none of it can be loaded
  rintro - t ⟨ht, hidle⟩
  have hroom : ¬g.metadata.layout.seqnumOf? ([] : Bytes).length = none := by
    rw [List.length_nil, Layout.seqnumOf?_zero]
    simp
  refine Op.Does.bind (((moveTo_shows ht (Nat.le_refl 0) fun _ => rfl).mono
    (fun _ _ => id) ?_).relax fun hbad => absurd hbad hroom) ?_
  · rintro s' ⟨-, c', d', h', -⟩
    exact h'.isOpen
  rintro - u ⟨-, honward, x, d₁, hx, hnum, hu⟩
  have hquiet := honward.idle hidle
  -- nothing stands behind the chunk data of a new file, so its chunk may be flushed empty
  refine Op.Does.bind ((flushActive_does hu hx hwrite (.inr ⟨hu.eofSeqnum_eq_zero, rfl⟩)).mono
    (fun _ _ => id) ?_) ?_
  · rintro s' ⟨-, h'⟩
    exact h'.isOpen
  rintro - v ⟨hcurrent', -, -, -, hpool', d₂, hv⟩
  have hplaced : v.Placed := hv.placed hcurrent'
  refine (writeSize_does hv.toOnDisk hwrite).mono ?_ ?_
  · rintro - s' ⟨hmem, hdisk, hct', hsized, -⟩
    refine ⟨g, hg, (hv.of_onDisk hmem hdisk hct').flushed ⟨fun y hy => ?_, hsized⟩,
      hmem.placed hplaced, _, hmem.current.trans hcurrent', ?_⟩
    · rw [hmem.memory, memory, hcurrent', hpool'] at hy
      rcases List.mem_cons.mp hy with rfl | hy
      · rfl
      · exact hquiet.clean y (List.mem_append_right _ hy)
    · rw [hdisk.layout, hdisk.seekCursor]
      exact hnum
  · rintro s' ⟨-, hdisk, -⟩
    exact hdisk.isOpen

/-! ## The raw file

A fault can strike before the file is looked at, and then nothing is open. Afterwards the outcome
is determined by the mode and by whether the file is there. -/

/-- A fault may strike before the raw file is looked at. -/
theorem openMet_does (hclosed : s.handle = none) {x : Op Unit} {ok : Unit → Session → Prop}
    (hx : ∀ faults trace, x.Does full { s with faults, trace } ok fun s' => s'.handle = none)
    (event : Event) :
    Op.Does (do Raw.note event; discard (Raw.meetFault .openFile); x) full s ok
      (fun s' => s'.handle = none) := by
  unfold Raw.note
  refine Op.Does.modify_bind rfl (Op.Does.bind
    (P := fun _ t => ∃ faults trace, t = { s with faults, trace })
    (Op.Does.discard ((Raw.meetFault_wears _ .openFile).mono ?_ ?_)) ?_)
  · rintro _ - ⟨-, faults, rfl⟩
    exact ⟨faults, _, rfl⟩
  · rintro - ⟨faults, rfl⟩
    exact hclosed
  · rintro - - ⟨faults, trace, rfl⟩
    exact hx faults trace

/-- A raw file that is there is opened as it is. -/
theorem openThere_does (hclosed : s.handle = none) (hfound : s.disk.find? s.path = some file)
    (hmode : mode.createsFile true = false) :
    (Raw.openAs (mode.raw true)).Does full s
      (fun _ s' => ∃ faults trace, s' = { s with
        handle := some { file, writable := mode.isWrite }, faults, trace })
      (fun s' => s'.handle = none) := by
  unfold Raw.openAs
  refine openMet_does hclosed (fun faults trace => ?_) _
  have hexisting (writable : Bool) (hwritable : writable = mode.isWrite) :
      (Raw.openExisting writable).Does full { s with faults, trace }
        (fun _ s' => ∃ faults trace, s' = { s with
          handle := some { file, writable := mode.isWrite }, faults, trace })
        (fun s' => s'.handle = none) := by
    unfold Raw.openExisting
    refine Op.Does.get_bind ?_
    simp only [hfound, hwritable]
    exact Op.Does.set rfl ⟨faults, trace, rfl⟩
  have hfree : ¬s.handle.isSome = true := by simp [hclosed]
  refine Op.Does.get_bind ?_
  simp only [if_neg hfree]
  cases mode with
  | scan => exact hexisting false rfl
  | read => exact hexisting false rfl
  | write => simp [Mode.createsFile] at hmode
  | writeNew => simp [Mode.createsFile] at hmode
  | writeExisting => exact hexisting true rfl
  | append => exact hexisting true rfl
  | appendExisting => exact hexisting true rfl

/-- A raw file for a new container is empty, whether it was there or not. -/
theorem openEmpty_does (hclosed : s.handle = none) {there : Bool}
    (hthere : s.disk.contains s.path = there) (hmode : mode.createsFile there = true)
    (hnew : mode = .writeNew → there = false) (hplace : there = false → Disk.hasPlace s.path = true)
    (hlisted : ∀ file, s.disk.find? s.path = some file → file < s.disk.files.length) :
    (Raw.openAs (mode.raw there)).Does full s
      (fun _ s' => ∃ file disk faults trace, s' = { s with
        disk, handle := some { file, writable := true }, faults, trace } ∧
          file < disk.files.length ∧ disk.find? s.path = some file ∧ disk.contents file = [])
      (fun s' => s'.handle = none) := by
  unfold Raw.openAs
  refine openMet_does hclosed (fun faults trace => ?_) _
  have hcreated (hthere : there = false) :
      Raw.openCreated.Does full { s with faults, trace }
        (fun _ s' => ∃ file disk faults trace, s' = { s with
          disk, handle := some { file, writable := true }, faults, trace } ∧
            file < disk.files.length ∧ disk.find? s.path = some file ∧ disk.contents file = [])
        (fun s' => s'.handle = none) := by
    unfold Raw.openCreated
    refine Op.Does.get_bind ?_
    simp only [hplace hthere, if_true]
    exact Op.Does.set rfl ⟨_, _, faults, trace, rfl, s.disk.lt_length_create s.path [],
      s.disk.find?_create s.path [], s.disk.contents_create s.path []⟩
  have hfree : ¬s.handle.isSome = true := by simp [hclosed]
  refine Op.Does.get_bind ?_
  simp only [if_neg hfree]
  cases mode with
  | scan => simp [Mode.createsFile] at hmode
  | read => simp [Mode.createsFile] at hmode
  | write =>
    simp only [Mode.raw]
    cases hfile : s.disk.find? s.path with
    | none => exact hcreated (by simp [← hthere, Disk.contains, hfile])
    | some file =>
      have hlt := hlisted file hfile
      refine Op.Does.set rfl ⟨file, _, faults, trace, rfl, ?_, hfile,
        Disk.contents_setContents hlt []⟩
      simpa [Disk.setContents] using hlt
  | writeNew =>
    simp only [Mode.raw]
    rw [if_neg (by simp [hthere, hnew rfl])]
    exact hcreated (hnew rfl)
  | writeExisting => simp [Mode.createsFile] at hmode
  | append =>
    obtain rfl : there = false := by simpa [Mode.createsFile] using hmode
    have hnone : s.disk.find? s.path = none := by simpa [Disk.contains] using hthere
    simp only [Mode.raw, Bool.false_eq_true, if_false, hnone]
    exact hcreated rfl
  | appendExisting => simp [Mode.createsFile] at hmode

/-! ## Opening

What fails after the raw file was opened is followed by closing it. Whether that succeeds makes
no difference: the handle is gone, and the error is the one from before. -/

/-- When the content cannot be read in, the raw file is closed again. -/
theorem launched_does {x : Op Unit} {ok : Unit → Session → Prop}
    (hx : x.Does full s ok fun s' => s'.isOpen = true) :
    Op.Does (do
        let opened ← Op.attempt x
        match opened with
        | .ok () => pure ()
        | .error e =>
          discard (Op.attempt (shut false))
          throw e) full s ok (fun s' => s'.handle = none) := by
  refine Op.Does.attempt_bind hx ?_ ?_
  · exact fun _ s' h' => Op.Does.pure h'
  · intro e s' h'
    obtain ⟨handle, hh⟩ := Option.isSome_iff_exists.mp h'
    have hbind : (do discard (Op.attempt (shut false)); throw e : Op Unit)
        = (do let _ ← Op.attempt (shut false); throw e) := by
      funext t
      simp only [Functor.discard, Functor.mapConst, Function.comp, bind, EStateM.bind, EStateM.map]
      cases Op.attempt (shut false) t <;> rfl
    simp only [hbind]
    refine Op.Raises.attempt_bind (shutOnly_does hh) ?_ ?_
    · rintro _ _ ⟨x, rfl⟩
      exact Op.Raises.throw rfl
    · rintro _ _ ⟨x, rfl⟩
      -- closing may fail as well, and its error is dropped
      exact .inl (Op.Raises.throw rfl)

/-- **Opening a container that waits for a content shows that content,** and leaves the disk as it
is. -/
theorem launch_does (h : s.Waits m file ct e c) (hfits : m.Fits c.length)
    (hmode : mode.createsFile true = false) (trail : Trail)
    (htrail : trail.Fits (s.disk.contents file) (m.dataOffset + ct) c.length c.length false) :
    (launch mode false).Does (m.layout.seqnumOf? c.length = none) s
      (fun _ s' => s'.Flushed (h.site mode trail) c ∧ s'.Placed ∧ s'.disk = s.disk ∧
        m.layout.seqnumOf? c.length ≠ none ∧ s'.Seated)
      (fun s' => s'.handle = none) := by
  have hthere : s.disk.contains s.path = true := by simp [Disk.contains, h.found]
  unfold launch
  refine Op.Does.get_bind (Op.Does.get_bind ?_)
  simp only [hthere, hmode, Bool.false_eq_true, if_false]
  refine Op.Does.modify_bind rfl (Op.Does.bind (openThere_does h.closed h.found hmode) ?_)
  rintro - - ⟨faults, trace, rfl⟩
  refine launched_does
    (loadLayout_does ?entered ct e ?keeps ?fits ?master ?kind ?processor ?seek ?trail)
  case entered => exact
    { path := rfl, names := rfl, file := h.there, handle := ⟨0, rfl⟩, mode := rfl, useCache := rfl
      config := rfl, current := rfl, cursor := rfl, sizeDirty := rfl, tailCut := rfl, pool := rfl }
  case keeps => exact h.keeps
  case fits => exact hfits
  case master => exact h.master
  case kind => exact h.kind
  case processor => exact rfl
  case seek => exact rfl
  case trail => exact htrail

/-- **Opening a new container shows nothing.** -/
theorem launchNew_does (h : s.Vacant mode) :
    (launch mode false).Does full s
      (fun _ s' => ∃ g : Site, g.Begins s mode ∧ s'.Flushed g [] ∧ s'.Placed ∧ s'.Seated)
      (fun s' => s'.handle = none) := by
  have hwrite : mode.isWrite = true := by
    have hcreates := h.creates
    cases mode <;> first | rfl | simp [Mode.createsFile] at hcreates
  unfold launch
  refine Op.Does.get_bind (Op.Does.get_bind ?_)
  simp only [h.creates, if_true]
  refine Op.Does.modify_bind rfl (Op.Does.bind
    (openEmpty_does ?closed ?there h.creates h.new ?place ?listed) ?_)
  case closed => exact h.closed
  case there => exact rfl
  case place => exact h.place
  case listed => exact h.listed
  rintro - - ⟨file, disk, faults, trace, rfl, hlt, hfound, hempty⟩
  refine launched_does ((createLayout_does mode file ?opening ?pool ?handle ?file ?found ?empty
    ?valid ?block hwrite ?cache).mono ?_ fun _ => id)
  case opening => exact rfl
  case pool => exact rfl
  case handle => exact rfl
  case file => exact hlt
  case found => exact hfound
  case empty => exact hempty
  case valid => exact h.valid
  case block => exact h.sealed
  case cache =>
    intro huse
    simp only [Container.cachePolicy, Bool.and_eq_true] at huse
    exact huse.1.2
  rintro _ s' ⟨g, hg, h'⟩
  exact ⟨g, { hg with }, h'⟩

/-- Users open a container that waits for a content. -/
theorem openIn_does (h : s.Waits m file ct e c) (hfits : m.Fits c.length)
    (hmode : mode.createsFile true = false) (trail : Trail)
    (htrail : trail.Fits (s.disk.contents file) (m.dataOffset + ct) c.length c.length false) :
    (openIn mode).Does (m.layout.seqnumOf? c.length = none) s
      (fun _ s' => s'.Flushed (h.site mode trail) c ∧ s'.Placed ∧ s'.disk = s.disk ∧
        m.layout.seqnumOf? c.length ≠ none ∧ s'.Seated)
      (fun s' => s'.handle = none) := by
  unfold openIn
  refine Op.Does.get_bind ?_
  rw [if_neg (by simp [Container.isOpen, h.closed]), if_neg (by simp [h.kind, h.keeps.sealed])]
  exact launch_does h hfits hmode trail htrail

/-- Users open a new container. -/
theorem openNew_does (h : s.Vacant mode) :
    (openIn mode).Does full s
      (fun _ s' => ∃ g : Site, g.Begins s mode ∧ s'.Flushed g [] ∧ s'.Placed ∧ s'.Seated)
      (fun s' => s'.handle = none) := by
  unfold openIn
  refine Op.Does.get_bind ?_
  rw [if_neg (by simp [Container.isOpen, h.closed]), if_neg (by simp [h.sealed])]
  exact launchNew_does h

/-- Users close a container. -/
theorem close_does (h : s.Shows g c d) :
    close.Does full s (fun _ s' => ∃ t : Session, t.Flushed g c ∧ t.Forgotten s')
      (fun s' => ∃ (t : Session) (d' : Bytes), t.Shows g c d' ∧ t.Forgotten s') := by
  unfold close
  refine Op.Does.get_bind ?_
  rw [if_pos h.isOpen]
  exact shut_does h

end Container

end Vault
