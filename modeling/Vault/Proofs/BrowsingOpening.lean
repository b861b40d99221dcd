import Vault.Proofs.BrowsingCalls

/-!
# `Vault/Proofs/BrowsingOpening.lean` — opening and closing a raw file that may hold anything

Opening a raw file to be read comes to what its bytes say (`Place.survey`): **the container browses
the source that is found there, or it is closed and the error is the one that the bytes call for** —
or that of a fault, or of the first chunk. Closing always closes. So does asking a closed container
for its sizes, which opens it for that long.

A file is opened in steps, and every step is stated with what holds after it: the handle is there
(`Session.Enters`), the numbers are taken over, the first chunk is loaded (`Session.Browses`).
Whatever fails on the way leaves the container open with nothing known of the content
(`Session.Ajar`), and from there it is closed.
-/

set_option autoImplicit false

namespace Vault

namespace Place

/-- Why a raw file cannot be opened: a fault, or what its bytes say, or its first chunk. -/
def Refuses (w : Place) (mode : Mode) (p : Processor) (e : Error) : Prop :=
  w.calm = false ∨ w.survey mode p = .error e ∨
    ∃ v, w.survey mode p = .ok v ∧ v.chunk 0 = .error e

end Place

namespace Session

/-- Nothing is open, and nothing is in memory. -/
structure Closed (s : Session) (w : Place) : Prop where
  disk : s.disk = w.disk
  path : s.path = w.path
  handle : s.handle = none
  calm : w.calm = true → s.faults = []
  pool : s.pool.entries = []
  room : 0 < s.pool.capacity
  capacity : s.pool.capacity < offsetLimit

/-- The raw file is open to be read. -/
structure Ajar (s : Session) (w : Place) : Prop where
  disk : s.disk = w.disk
  path : s.path = w.path
  mode : s.mode.isWrite = false
  handle : ∃ h, s.handle = some h
  calm : w.calm = true → s.faults = []
  room : 0 < s.pool.capacity
  capacity : s.pool.capacity < offsetLimit

/-- The raw file was just opened, and nothing is known about the content yet. -/
structure Enters (s : Session) (w : Place) (mode : Mode) (file : Nat) : Prop where
  disk : s.disk = w.disk
  path : s.path = w.path
  mode : s.mode = mode
  handle : ∃ position, s.handle = some { file, position, writable := false }
  calm : w.calm = true → s.faults = []
  current : s.current = none
  cursor : s.cursor = 0
  seekCursor : s.seekCursor = 0
  pool : s.pool.entries = []
  room : 0 < s.pool.capacity
  capacity : s.pool.capacity < offsetLimit

variable {s s' : Session} {w : Place} {v : Source} {mode : Mode} {file : Nat}

theorem Closed.isOpen (h : s.Closed w) : s.isOpen = false := by
  simp [Container.isOpen, h.handle]

theorem Ajar.isOpen (h : s.Ajar w) : s.isOpen = true := by
  obtain ⟨handle, hh⟩ := h.handle
  simp [Container.isOpen, hh]

theorem Browses.ajar (h : s.Browses v) (hmode : v.mode.isWrite = false) : s.Ajar v.toPlace := by
  obtain ⟨position, hh⟩ := h.handle
  exact
    { disk := h.disk, path := h.path, mode := h.mode ▸ hmode, handle := ⟨_, hh⟩, calm := h.calm
      room := Nat.lt_of_le_of_lt (Nat.zero_le _) h.room, capacity := h.capacity }

theorem Enters.ajar (h : s.Enters w mode file) (hmode : mode.isWrite = false) : s.Ajar w := by
  obtain ⟨position, hh⟩ := h.handle
  exact
    { disk := h.disk, path := h.path, mode := h.mode ▸ hmode, handle := ⟨_, hh⟩, calm := h.calm
      room := h.room, capacity := h.capacity }

theorem Enters.passesOn (h : s.Enters w mode file) (hpass : s.PassesOn s') :
    s'.Enters w mode file := by
  obtain ⟨y, hcalm, rfl⟩ := hpass
  obtain ⟨position, hh⟩ := h.handle
  exact
    { disk := h.disk, path := h.path, mode := h.mode, handle := ⟨y.position, handle_beside hh y⟩
      calm := fun hc => hcalm (h.calm hc), current := h.current, cursor := h.cursor
      seekCursor := h.seekCursor, pool := h.pool, room := h.room, capacity := h.capacity }

theorem Enters.not_calm (h : s.Enters w mode file) (hfaults : s.faults ≠ []) : w.calm = false :=
  Bool.eq_false_iff.mpr fun hcalm => hfaults (h.calm hcalm)

/-- The session has taken over these numbers. -/
def sized (s : Session) (layout : Layout) (size ciphertextSize last : Nat) : Session :=
  { s with layout, size, ciphertextSize, eofSeqnum := last }

theorem Enters.sized (h : s.Enters w mode file) (layout : Layout) (size ciphertextSize last : Nat) :
    (s.sized layout size ciphertextSize last).Enters w mode file := { h with }

/-- The numbers of a source are taken over. -/
theorem Enters.browses (h : s.Enters v.toPlace v.mode v.file)
    (hprocessor : s.processor = v.processor) (hlayout : s.layout = v.layout)
    (hsize : s.size = v.size) (hct : s.ciphertextSize = v.ciphertextSize)
    (hlast : s.eofSeqnum = v.last) : s.Browses v where
  disk := h.disk
  path := h.path
  mode := h.mode
  processor := hprocessor
  layout := hlayout
  size := hsize
  ciphertextSize := hct
  last := hlast
  handle := h.handle
  calm := h.calm
  recalls := by simp [memory, h.current, h.pool]
  cursor := h.cursor ▸ Nat.zero_le _
  stands := by simp [h.current]
  room := by
    rw [h.pool]
    exact h.room
  capacity := h.capacity

end Session

namespace Container

open Session CheckedOp

variable {s : Session} {w : Place} {v : Source} {mode : Mode} {file : Nat}

/-! ## Closing

What a container that is only read has in memory is not written when it is closed, so closing
asks the file for nothing but to be closed. If that fails the handle is gone all the same. -/

/-- What is only read is not written. -/
theorem flushAll_ajar (h : s.Ajar w) (raw : Option Bool) : flushAll raw s = .ok () s := by
  simp [flushAll, bind, EStateM.bind, h.mode]

theorem closeRaw_ajar (h : s.Ajar w) (flush : Bool) :
    (closeRawChecked flush).Does (closeRaw flush) s
      (fun _ s' => ∃ faults trace, (s.faults = [] → faults = []) ∧
        s' = { s with handle := none, faults, trace })
      (fun _ s' => s.faults ≠ [] ∧ ∃ faults trace,
        s' = { s with handle := none, faults, trace }) := by
  have hclose : CheckedOp.Does
      (do
        let flushed ← Pure.pure (.ok ())
        let closed ← CheckedOp.attempt (CheckedOp.ofOp Raw.close)
        CheckedOp.ofOp (Op.ofExcept flushed)
        CheckedOp.ofOp (Op.ofExcept closed))
      (do
        let flushed ← Pure.pure (.ok ())
        let closed ← Op.attempt Raw.close
        Op.ofExcept flushed
        Op.ofExcept closed) s
      (fun _ s' => ∃ faults trace, (s.faults = [] → faults = []) ∧
        s' = { s with handle := none, faults, trace })
      (fun _ s' => s.faults ≠ [] ∧ ∃ faults trace,
        s' = { s with handle := none, faults, trace }) := by
    refine Does.step (c := .ok ()) rfl (Does.skip (c := .ok ()) rfl
      (Does.bind (Does.attempt (Does.ofOp (Raw.close_ends s))) ?_))
    rintro closed t (⟨-, rfl, ht⟩ | ⟨e, rfl, ht⟩)
    · exact ⟨rfl, ht⟩
    · exact ⟨rfl, ht⟩
  unfold closeRawChecked closeRaw
  refine Does.get_bind ?_
  simp only [h.isOpen, if_true]
  cases flush with
  | false => exact Does.step (c := s) rfl hclose
  | true =>
    have hflush : Op.attempt (flushAll (some false)) s = .ok (.ok ()) s := by
      simp only [Op.attempt, flushAll_ajar h]
    refine Does.step (c := s) rfl (Does.skip hflush ?_)
    simp only [h.mode, Bool.true_and, Bool.false_eq_true, if_false]
    exact hclose

/-- **Closing closes in any case.** -/
theorem shut_ajar (h : s.Ajar w) (flush : Bool) :
    (shutChecked flush).Does (shut flush) s (fun _ s' => s'.Closed w)
      (fun _ s' => s'.Closed w ∧ w.calm = false) := by
  have hclosed (faults : List Fault) (trace : List Event) (hcalm : s.faults = [] → faults = []) :
      Closed { { s with handle := none, faults, trace } with
        toContainer := { Container.forget { s with handle := none, faults, trace } with
          processor := s.processor.reset } } w :=
    { disk := h.disk, path := h.path, handle := rfl, calm := fun hc => hcalm (h.calm hc)
      pool := rfl, room := h.room, capacity := h.capacity }
  unfold shutChecked shut
  refine Does.bind (Does.attempt (closeRaw_ajar h flush)) ?_
  rintro closed t (⟨-, rfl, faults, trace, hcalm, rfl⟩ | ⟨e, rfl, hfaults, faults, trace, rfl⟩)
  · exact ⟨rfl, hclosed faults trace hcalm⟩
  · exact ⟨rfl, hclosed faults trace fun hs => absurd hs hfaults,
      Bool.eq_false_iff.mpr fun hc => hfaults (h.calm hc)⟩

/-! ## Taking over the sizes -/

/-- **The sizes are taken over if they go together,** and otherwise there is the error that says
why not, or that of a fault. -/
theorem loadSizes_measures {handle : Handle} (hh : s.handle = some handle) (hdisk : s.disk = w.disk)
    (mode : Mode) {info : HeaderInfo} (hdescriptor : info.descriptorSize < 0x10000)
    (hct : info.ciphertextSize < offsetLimit) :
    (loadSizesChecked info).Does (loadSizes info) s
      (fun _ s' => ∃ v t, w.measure mode handle.file info s.processor = .ok v ∧ s.PassesOn t ∧
        s' = t.sized v.layout v.size v.ciphertextSize v.last)
      (fun e s' =>
        (s.faults ≠ [] ∨ w.measure mode handle.file info s.processor = .error e) ∧
        ∃ t layout size ciphertextSize last, s.PassesOn t ∧
          s' = t.sized layout size ciphertextSize last) := by
  have hadd : Header.size + info.descriptorSize < offsetLimit := by
    have hsize : Header.size = 22 := rfl
    have hlimit : 0x10000 + 22 < offsetLimit := by decide
    omega
  obtain ⟨layout, hlayout⟩ :
    ∃ layout, layout = s.processor.layout (Header.size + info.descriptorSize) := ⟨_, rfl⟩
  obtain ⟨size, hsize⟩ : ∃ size, size = if s.processor.config.streaming
      then layout.streamedSize info.ciphertextSize s.processor.streamLead
      else info.plaintextSize := ⟨_, rfl⟩
  -- The checked arithmetic cannot overflow: every number was read from a field of bounded width.
  have hchecked : (if s.processor.config.streaming
      then layout.streamedSizeChecked info.ciphertextSize s.processor.streamLead
      else some info.plaintextSize) = some size := by
    rw [hsize]
    split
    · rw [hlayout]
      exact Layout.streamedSizeChecked_eq (s.processor.packs_layout _) hct _
    · rfl
  have hmeasure : w.measure mode handle.file info s.processor
      = w.fit mode handle.file s.processor layout size info.ciphertextSize := by
    rw [hsize, hlayout]
    rfl
  unfold Place.fit at hmeasure
  simp only [← hdisk] at hmeasure
  unfold loadSizesChecked loadSizes
  refine Does.step (c := s) rfl (Does.check (Checked.add_eq hadd)
    (Does.check (s.processor.layoutChecked_eq _) ?_))
  rw [← hlayout]
  refine Does.check hchecked (Does.set_modify_bind (by simp only [← hlayout, ← hsize]) ?_)
  refine Does.get_bind (Does.bind (Does.ofOp ((Raw.size_ends (s := { s with
    layout, ciphertextSize := info.ciphertextSize, size }) hh).mono (fun _ _ => id) ?_)) ?_)
  · rintro e - ⟨hstruck, x, hcalm, rfl⟩
    exact ⟨.inl hstruck, s.beside x, layout, size, info.ciphertextSize, s.eofSeqnum,
      ⟨x, hcalm, rfl⟩, rfl⟩
  rintro n - ⟨rfl, x, hcalm, rfl⟩
  have hpass : s.PassesOn (s.beside x) := ⟨x, hcalm, rfl⟩
  have hrefused {e : Error} (he : w.measure mode handle.file info s.processor = .error e)
      (last : Nat) :
      (s.faults ≠ [] ∨ w.measure mode handle.file info s.processor = .error e) ∧
        ∃ t layout' size' ciphertextSize last', s.PassesOn t ∧
          (s.beside x).sized layout size info.ciphertextSize last
            = t.sized layout' size' ciphertextSize last' :=
    ⟨.inr he, s.beside x, layout, size, info.ciphertextSize, last, hpass, rfl⟩
  -- From here on the program follows the survey, and each refusal is one of the survey.
  refine Does.unless (fun hshort => hrefused ?_ s.eofSeqnum) fun hpresent => ?_
  · exact hmeasure.trans (if_pos hshort)
  replace hmeasure := hmeasure.trans (if_neg hpresent)
  refine Does.check (Layout.seqnumChecked_eq layout size) ?_
  cases hlast : layout.seqnumOf? size with
  | none =>
    simp only [hlast] at hmeasure
    exact Does.throw (hrefused hmeasure s.eofSeqnum)
  | some last =>
    simp only [hlast] at hmeasure
    refine Does.modify_bind (Does.check (Layout.packedBeforeChecked_eq layout last) ?_)
    cases hneeded : layout.packedBefore? last with
    | none =>
      simp only [hneeded] at hmeasure
      exact Does.throw (hrefused hmeasure last)
    | some needed =>
      simp only [hneeded] at hmeasure
      refine Does.ite (fun hover => Does.throw (hrefused ?_ last)) fun hfits => ?_
      · rw [hmeasure, if_pos hover]
      · rw [if_neg hfits] at hmeasure
        exact Does.pure ⟨_, _, hmeasure, hpass, rfl⟩

/-- What the numbers of the source are taken over from is browsed. -/
theorem loadSizes_enters (h : s.Enters w mode file) (hmode : mode.isWrite = false)
    {info : HeaderInfo} (hdescriptor : info.descriptorSize < 0x10000)
    (hct : info.ciphertextSize < offsetLimit) :
    (loadSizesChecked info).Does (loadSizes info) s
      (fun _ s' => ∃ v, w.measure mode file info s.processor = .ok v ∧ s'.Browses v ∧
        s'.cursor = 0 ∧ s'.seekCursor = 0)
      (fun e s' => s'.Ajar w ∧
        (w.calm = false ∨ w.measure mode file info s.processor = .error e)) := by
  obtain ⟨position, hh⟩ := h.handle
  refine (loadSizes_measures hh h.disk mode hdescriptor hct).mono ?_ ?_
  · rintro - - ⟨v, t, hmeasure, hpass, rfl⟩
    obtain ⟨rfl, rfl, rfl, hprocessor, -⟩ := Place.measure_eq_ok hmeasure
    have ht := (h.passesOn hpass).sized v.layout v.size v.ciphertextSize v.last
    obtain ⟨x, -, rfl⟩ := hpass
    exact ⟨v, hmeasure, ht.browses hprocessor.symm rfl rfl rfl rfl, ht.cursor, ht.seekCursor⟩
  · rintro e - ⟨hwhy, t, layout, size, ciphertextSize, last, hpass, rfl⟩
    exact ⟨((h.passesOn hpass).sized layout size ciphertextSize last).ajar hmode,
      hwhy.imp_left h.not_calm⟩

/-! ## Reading header and descriptor

A file may be shorter than its header says, or hold what is no header at all. The step from the
bytes to what they say is the one of `Processor.readMetadata`; a read that comes short is refused
there in the same words. -/

/-- So many bytes are read, or there are not so many. -/
theorem readExactly_ends {h : Handle} (hh : s.handle = some h) (n : Nat) (short : Nat → Error) :
    (readExactly n short).Ends s
      (fun data s' => data = (s.disk.contents h.file).slice h.position n ∧ data.length = n ∧
        ∃ x, s.Calms x ∧ x.position = h.position + n ∧ s' = s.beside x)
      (fun e s' => (s.faults ≠ [] ∨
          ((s.disk.contents h.file).slice h.position n).length ≠ n ∧
            e = short ((s.disk.contents h.file).slice h.position n).length) ∧
        s.PassesOn s') := by
  unfold readExactly
  refine Op.Ends.bind ((Raw.read_ends hh n).mono (fun _ _ => id) fun _ _ h' => ⟨.inl h'.1, h'.2⟩) ?_
  rintro data - ⟨hdata, x, hcalm, hx, rfl⟩
  by_cases hlen : data.length = n
  · simp only [hlen, ne_eq, not_true_eq_false, if_false]
    exact ⟨hdata (.inr hlen), hlen, x, hcalm, hx.trans (by rw [hlen]), rfl⟩
  · simp only [ne_eq, hlen, not_false_eq_true, if_true]
    refine ⟨?_, x, hcalm, rfl⟩
    by_cases hfaults : s.faults = []
    · rw [← hdata (.inl hfaults)]
      exact .inr ⟨hlen, rfl⟩
    · exact .inl hfaults

/-- **Header and descriptor are read and unpacked** before anything else is done with them, or there
is the error that says why they cannot be, or that of a fault. -/
theorem readMetadata_does {α : Type} {g : HeaderInfo → Processor → CheckedOp α}
    {f : HeaderInfo → Processor → Op α} {ok : α → Session → Prop} {err : Error → Session → Prop}
    {handle : Handle} (hh : s.handle = some handle)
    (hf : ∀ info processor t,
      s.processor.readMetadata (s.disk.contents handle.file) = .ok (info, processor) →
      info.descriptorSize < 0x10000 → info.ciphertextSize < offsetLimit → s.PassesOn t →
      (g info processor).Does (f info processor) t ok err)
    (herr : ∀ e t,
      s.faults ≠ [] ∨ s.processor.readMetadata (s.disk.contents handle.file) = .error e →
      s.PassesOn t → err e t) :
    CheckedOp.Does
      (do
        CheckedOp.ofOp (Raw.seek 0)
        let header ← CheckedOp.ofOp
          (readExactly Header.size fun found => .malformed (.shortHeader Header.size found))
        let info ← CheckedOp.ofResult ((← get).processor.unpackHeaderChecked header)
        let descriptor ← CheckedOp.ofOp (readExactly info.descriptorSize fun found =>
          .malformed (.shortDescriptor info.descriptorSize found))
        let processor ← CheckedOp.ofResult ((← get).processor.unpackDescriptorChecked descriptor)
        g info processor)
      (do
        Raw.seek 0
        let header ←
          readExactly Header.size fun found => .malformed (.shortHeader Header.size found)
        let info ← Op.ofExcept ((← get).processor.unpackHeader header)
        let descriptor ← readExactly info.descriptorSize fun found =>
          .malformed (.shortDescriptor info.descriptorSize found)
        let processor ← Op.ofExcept ((← get).processor.unpackDescriptor descriptor)
        f info processor) s ok err := by
  obtain ⟨result, hresult⟩ :
    ∃ result, s.processor.readMetadata (s.disk.contents handle.file) = result := ⟨_, rfl⟩
  rw [hresult] at herr
  simp only [hresult] at hf
  unfold Processor.readMetadata at hresult
  simp only at hresult
  -- The program is followed step by step, and with it what the bytes say: where a step fails
  -- without a fault, they cannot be read for the same reason.
  refine Does.bind (Does.ofOp ((Raw.seek_ends hh 0).mono (fun _ _ => id)
    fun e _ h' => herr e _ (.inl h'.1) h'.2)) ?_
  rintro - - ⟨x, hcalm, hx, rfl⟩
  have hpass₁ : s.PassesOn (s.beside x) := ⟨x, hcalm, rfl⟩
  have hread₁ := readExactly_ends (handle_beside hh x) Header.size
    fun found => .malformed (.shortHeader Header.size found)
  simp only [hx, disk_beside] at hread₁
  refine Does.bind (Does.ofOp (hread₁.mono (fun _ _ => id) ?_)) ?_
  · rintro e t ⟨hstruck | ⟨hshort, rfl⟩, hpass⟩
    · exact herr e t (.inl (mt hcalm hstruck)) (hpass₁.trans hpass)
    · rw [if_pos hshort] at hresult
      exact herr _ t (.inr hresult.symm) (hpass₁.trans hpass)
  rintro header - ⟨hheader, hlen, y, hcalm', hy, rfl⟩
  rw [beside_beside] at *
  have hcalm₂ : s.Calms y := hcalm' ∘ hcalm
  have hpass₂ : s.PassesOn (s.beside y) := ⟨y, hcalm₂, rfl⟩
  rw [← hheader, if_neg (by simp [hlen])] at hresult
  refine Does.get_bind (Does.bind
    (P := fun info t => s.processor.unpackHeader header = .ok info ∧ t = s.beside y)
    (Does.ofResult (s.processor.unpackHeaderChecked_eq header) (fun info hinfo => ⟨hinfo, rfl⟩)
      fun e he => ?_) ?_)
  · simp only [show s.processor.unpackHeader header = .error e from he] at hresult
    exact herr e _ (.inr hresult.symm) hpass₂
  rintro info - ⟨hinfo, rfl⟩
  obtain ⟨-, hdescriptor, hct⟩ := Processor.unpackHeader_lt hinfo
  simp only [hinfo] at hresult
  have hread₂ := readExactly_ends (handle_beside hh y) info.descriptorSize
    fun found => .malformed (.shortDescriptor info.descriptorSize found)
  simp only [hy, disk_beside, Nat.zero_add] at hread₂
  refine Does.bind (Does.ofOp (hread₂.mono (fun _ _ => id) ?_)) ?_
  · rintro e t ⟨hstruck | ⟨hshort, rfl⟩, hpass⟩
    · exact herr e t (.inl (mt hcalm₂ hstruck)) (hpass₂.trans hpass)
    · rw [if_pos hshort] at hresult
      exact herr _ t (.inr hresult.symm) (hpass₂.trans hpass)
  rintro descriptor - ⟨hbytes, hlen', z, hcalm'', -, rfl⟩
  rw [beside_beside] at *
  have hpass₃ : s.PassesOn (s.beside z) := ⟨z, hcalm'' ∘ hcalm₂, rfl⟩
  rw [← hbytes, if_neg (by simp [hlen'])] at hresult
  refine Does.get_bind (Does.bind
    (P := fun processor t => s.processor.unpackDescriptor descriptor = .ok processor ∧
      t = s.beside z)
    (Does.ofResult (s.processor.unpackDescriptorChecked_eq descriptor) (fun p hp => ⟨hp, rfl⟩)
      fun e he => ?_) ?_)
  · simp only [show s.processor.unpackDescriptor descriptor = .error e from he] at hresult
    exact herr e _ (.inr hresult.symm) hpass₃
  rintro processor - ⟨hprocessor, rfl⟩
  simp only [hprocessor] at hresult
  exact hf info processor _ hresult.symm hdescriptor hct hpass₃

/-- The same without the checks. -/
theorem readMetadata_ends {α : Type} {f : HeaderInfo → Processor → Op α}
    {ok : α → Session → Prop} {err : Error → Session → Prop} {handle : Handle}
    (hh : s.handle = some handle)
    (hf : ∀ info processor t,
      s.processor.readMetadata (s.disk.contents handle.file) = .ok (info, processor) →
      info.descriptorSize < 0x10000 → info.ciphertextSize < offsetLimit → s.PassesOn t →
      (f info processor).Ends t ok err)
    (herr : ∀ e t,
      s.faults ≠ [] ∨ s.processor.readMetadata (s.disk.contents handle.file) = .error e →
      s.PassesOn t → err e t) :
    Op.Ends
      (do
        Raw.seek 0
        let header ←
          readExactly Header.size fun found => .malformed (.shortHeader Header.size found)
        let info ← Op.ofExcept ((← get).processor.unpackHeader header)
        let descriptor ← readExactly info.descriptorSize fun found =>
          .malformed (.shortDescriptor info.descriptorSize found)
        let processor ← Op.ofExcept ((← get).processor.unpackDescriptor descriptor)
        f info processor) s ok err :=
  (readMetadata_does hh (fun info processor t hread hdescriptor hct hpass =>
    Does.ofOp (hf info processor t hread hdescriptor hct hpass)) herr).ends

/-- **The container browses what is found in the raw file.** -/
theorem loadLayout_enters (h : s.Enters w mode file) (hmode : mode.isWrite = false)
    (hw : w.Addressable) (hfound : w.disk.find? w.path = some file) (metadataOnly : Bool) :
    (loadLayoutChecked metadataOnly).Does (loadLayout metadataOnly) s
      (fun _ s' => ∃ v, w.survey mode s.processor = .ok v ∧ s'.Browses v ∧ s'.cursor = 0 ∧
        s'.seekCursor = 0)
      (fun e s' => s'.Ajar w ∧ w.Refuses mode s.processor e) := by
  have hsurvey := Place.survey_eq_bind mode s.processor hfound
  rw [← h.disk] at hsurvey
  obtain ⟨position, hh⟩ := h.handle
  unfold loadLayoutChecked loadLayout
  refine readMetadata_does hh (fun info processor t hread hdescriptor hct hpass => ?_)
    fun e t hwhy hpass => ⟨(h.passesOn hpass).ajar hmode, hwhy.imp h.not_calm fun he => ?_⟩
  · rw [hread] at hsurvey
    have ht : Enters { t with processor } w mode file := { h.passesOn hpass with }
    refine Does.modify_bind (Does.bind ((loadSizes_enters ht hmode hdescriptor hct).mono
      (fun _ _ => id) ?_) ?_)
    · rintro e t ⟨hajar, hwhy⟩
      exact ⟨hajar, hwhy.imp id fun he => .inl (hsurvey.trans he)⟩
    rintro - t ⟨v, hmeasure, hv, hcursor, hseek⟩
    have hfind := hsurvey.trans hmeasure
    -- Without the content only the sizes matter; otherwise the first chunk is opened as well.
    cases metadataOnly with
    | true =>
      simp only [Bool.not_true, Bool.false_eq_true, if_false]
      exact Does.pure ⟨v, hfind, hv, hcursor, hseek⟩
    | false =>
      obtain ⟨hplace, hvmode, -⟩ := Place.measure_eq_ok hmeasure
      have hsound : v.Sound := Place.sound_of_survey hmode hfind hw
      simp only [Bool.not_false, if_true]
      refine Does.get_bind ?_
      simp only [hv.isAppend hsound, Bool.false_eq_true, if_false]
      refine Does.bind ((moveTo_browses hv hsound (Nat.zero_le _)).mono (fun _ _ => id) ?_) ?_
      · intro e t' hmiss
        refine ⟨hplace ▸ hmiss.browses.ajar hsound.readOnly, ?_⟩
        rcases hmiss.excuse with hcalm | ⟨p, i, rfl, hnumber, he⟩
        · exact .inl (by rw [← hplace]; exact hcalm)
        · rw [Layout.seqnumOf?_zero, Option.some.injEq] at hnumber
          exact .inr (.inr ⟨v, hfind, hnumber ▸ he⟩)
      rintro - t' harrives
      exact Does.modify ⟨v, hfind, harrives.browses.seek 0, harrives.cursor, rfl⟩
  · rw [he] at hsurvey
    exact .inl hsurvey

/-! ## Opening -/

/-- When the content cannot be read in, the raw file is closed again. -/
theorem launched_ajar {g : CheckedOp Unit} {x : Op Unit} {ok : Unit → Session → Prop}
    {why : Error → Prop} (hx : g.Does x s ok fun e s' => s'.Ajar w ∧ why e) :
    CheckedOp.Does
      (do
        let opened ← CheckedOp.attempt g
        match opened with
        | .ok () => Pure.pure ()
        | .error e =>
          discard (CheckedOp.attempt (shutChecked false))
          throw (.error e))
      (do
        let opened ← Op.attempt x
        match opened with
        | .ok () => Pure.pure ()
        | .error e =>
          discard (Op.attempt (shut false))
          throw e) s ok (fun e s' => s'.Closed w ∧ why e) := by
  refine Does.bind (Does.attempt hx) ?_
  rintro opened t (⟨⟨⟩, rfl, ht⟩ | ⟨e, rfl, ht, hwhy⟩)
  · exact Does.pure ht
  · refine Does.bind (P := fun _ s' => s'.Closed w)
      (Does.discard ((Does.attempt (shut_ajar ht false)).mono ?_ fun _ _ => id)) ?_
    · rintro r s' (⟨-, -, hs'⟩ | ⟨-, -, hs', -⟩)
      · exact hs'
      · exact hs'
    · exact fun _ s' hs' => Does.throw ⟨hs', hwhy⟩

/-- The raw file of a closed container is opened, if it is there. -/
theorem openAs_closed (h : s.Closed w) (hmode : mode.isWrite = false) (hs : s.mode = mode)
    (hcurrent : s.current = none) (hcursor : s.cursor = 0) (hseek : s.seekCursor = 0)
    (there : Bool) :
    (Raw.openAs (mode.raw there)).Ends s
      (fun _ s' => ∃ file, w.disk.find? w.path = some file ∧ s'.Enters w mode file ∧
        s'.processor = s.processor)
      (fun e s' => s'.Closed w ∧ w.Refuses mode s.processor e) := by
  have hfind : s.disk.find? s.path = w.disk.find? w.path := by rw [h.disk, h.path]
  -- no mode that reads creates a file
  have hcreates : mode.createsFile there = false := by
    cases mode <;> first | rfl | simp [Mode.isWrite] at hmode
  refine (Raw.openAs_ends hcreates h.handle).mono ?_ ?_
  · rintro - - ⟨file, faults, trace, hfound, hcalm, rfl⟩
    refine ⟨file, hfind ▸ hfound, ?_, rfl⟩
    rw [hmode]
    exact
      { disk := h.disk, path := h.path, mode := hs, handle := ⟨0, rfl⟩
        calm := fun hc => hcalm (h.calm hc), current := hcurrent, cursor := hcursor
        seekCursor := hseek, pool := h.pool, room := h.room, capacity := h.capacity }
  · rintro e - ⟨hwhy, faults, trace, hcalm, rfl⟩
    refine ⟨{ h with calm := fun hc => hcalm (h.calm hc) }, ?_⟩
    rcases hwhy with hfaults | ⟨hmissing, rfl⟩
    · exact .inl (Bool.eq_false_iff.mpr fun hc => hfaults (h.calm hc))
    · exact .inr (.inl (by rw [Place.survey, ← hfind, hmissing]))

/-- A closed container is opened to be read. -/
theorem launch_closed (h : s.Closed w) (hmode : mode.isWrite = false) (hw : w.Addressable)
    (metadataOnly : Bool) :
    (launchChecked mode metadataOnly).Does (launch mode metadataOnly) s
      (fun _ s' => ∃ v, w.survey mode s.processor = .ok v ∧ s'.Browses v ∧ s'.cursor = 0 ∧
        s'.seekCursor = 0)
      (fun e s' => s'.Closed w ∧ w.Refuses mode s.processor e) := by
  have hcreates (there : Bool) : mode.createsFile there = false := by
    cases mode <;> first | rfl | simp [Mode.isWrite] at hmode
  unfold launchChecked launch
  refine Does.get_bind (Does.get_bind (Does.modify_bind ?_))
  simp only [hcreates, Bool.false_eq_true, if_false]
  refine Does.bind (Does.ofOp (openAs_closed ?closed hmode ?mode ?current ?cursor ?seek _)) ?_
  case closed => exact ⟨h.disk, h.path, h.handle, h.calm, rfl, h.room, h.capacity⟩
  case mode => exact rfl
  case current => exact rfl
  case cursor => exact rfl
  case seek => exact rfl
  rintro - t ⟨file, hfound, ht, hprocessor⟩
  replace hprocessor : t.processor = s.processor := hprocessor
  exact launched_ajar (hprocessor ▸ loadLayout_enters ht hmode hw hfound metadataOnly)

/-- **Users open a raw file to be read,** whatever it holds. -/
theorem openIn_closed (h : s.Closed w) (hmode : mode.isWrite = false) (hw : w.Addressable) :
    (openInChecked mode).Does (openIn mode) s
      (fun _ s' => ∃ v, w.survey mode s.processor = .ok v ∧ s'.Browses v ∧ s'.cursor = 0 ∧
        s'.seekCursor = 0)
      (fun e s' => s'.Closed w ∧ (w.Refuses mode s.processor e ∨
        (s.processor.config.streaming && !mode.allowsStreaming) = true)) := by
  unfold openInChecked openIn
  refine Does.get_bind ?_
  simp only [h.isOpen, Bool.false_eq_true, if_false]
  refine Does.unless (fun hstream => ⟨h, .inr hstream⟩) fun _ => ?_
  exact (launch_closed h hmode hw false).mono (fun _ _ => id) fun _ _ h' => ⟨h'.1, .inl h'.2⟩

/-! ## Sizes of a closed container

A closed container is opened as far as its sizes and closed again. The first chunk is not looked
at, so a file is asked for its sizes in vain only if they do not go together. -/

/-- What is asked of a closed container opens it and closes it again. -/
theorem withMetadata_closed {α : Type} {g : CheckedOp α} {x : Op α} {told : Source → α → Prop}
    (h : s.Closed w) (hw : w.Addressable)
    (hx : ∀ (v : Source) (t : Session), v.Sound → t.Browses v →
      g.Does x t (fun a s' => s' = t ∧ told v a) fun _ _ => False) :
    (withMetadataChecked .scan g).Does (withMetadata .scan x) s
      (fun a s' => s'.Closed w ∧ ∃ v, w.survey .scan s.processor = .ok v ∧ told v a)
      (fun _ s' => s'.Closed w) := by
  unfold withMetadataChecked withMetadata
  refine Does.bind (P := fun _ t => ∃ v, w.survey .scan s.processor = .ok v ∧ t.Browses v) ?_ ?_
  · unfold launchMetadataChecked launchMetadata
    refine Does.get_bind ?_
    simp only [h.isOpen, Bool.false_eq_true, if_false]
    refine (launch_closed h rfl hw true).mono ?_ fun _ _ h' => h'.1
    rintro - t ⟨v, hfind, hv, -⟩
    exact ⟨v, hfind, hv⟩
  rintro - t ⟨v, hfind, hv⟩
  have hplace : v.toPlace = w := Place.toPlace_of_survey hfind
  have hsound : v.Sound := Place.sound_of_survey rfl hfind hw
  refine Does.bind (Does.attempt (hx v t hsound hv)) ?_
  rintro result u (⟨a, rfl, rfl, htold⟩ | ⟨e, rfl, hfalse⟩)
  · have hajar : u.Ajar w := hplace ▸ hv.ajar hsound.readOnly
    refine Does.bind (Does.attempt (shut_ajar hajar false)) ?_
    rintro closed s' (⟨-, rfl, hs'⟩ | ⟨e, rfl, hs', -⟩)
    · exact ⟨rfl, hs', v, hfind, htold⟩
    · exact ⟨rfl, hs'⟩
  · -- what is asked for is in the session already, and cannot fail
    exact hfalse.elim

theorem contentSize_closed (h : s.Closed w) (hw : w.Addressable) :
    contentSizeChecked.Does contentSize s
      (fun n s' => s'.Closed w ∧ ∃ v, w.survey .scan s.processor = .ok v ∧ n = v.size)
      (fun _ s' => s'.Closed w) := by
  unfold contentSizeChecked contentSize
  refine Does.get_bind ?_
  simp only [h.isOpen, Bool.false_eq_true, if_false]
  exact withMetadata_closed h hw fun v t _ ht => Does.get_bind (Does.pure ⟨rfl, ht.size⟩)

theorem usedSize_closed (h : s.Closed w) (hw : w.Addressable) :
    usedSizeChecked.Does usedSize s
      (fun n s' => s'.Closed w ∧ ∃ v, w.survey .scan s.processor = .ok v ∧ n = v.eofPos)
      (fun _ s' => s'.Closed w) := by
  unfold usedSizeChecked usedSize
  refine Does.get_bind ?_
  simp only [h.isOpen, Bool.false_eq_true, if_false]
  refine withMetadata_closed h hw fun v t hv ht => Does.look ?_
  rw [ht.eofPos]
  exact ⟨eofPosChecked_run ht hv, rfl, rfl⟩

/-- **Users close a container,** and it is closed. -/
theorem close_browses (h : s.Browses v) (hv : v.Sound) :
    closeChecked.Does close s (fun _ s' => s'.Closed v.toPlace)
      (fun _ s' => s'.Closed v.toPlace) := by
  unfold closeChecked close
  refine Does.get_bind ?_
  simp only [h.isOpen, if_true]
  exact (shut_ajar (h.ajar hv.readOnly) true).mono (fun _ _ => id) fun _ _ h' => h'.1

/-! ## What a closed container refuses -/

theorem ensureOpen_closed {ok : Unit → Session → Prop} (h : s.Closed w) :
    ensureOpen.Ends s ok (fun _ s' => s' = s) := by
  simp [Op.Ends, ensureOpen, bind, EStateM.bind, h.isOpen]

theorem seek_closed {ok : Unit → Session → Prop} (h : s.Closed w) (pos : Nat) :
    (seekChecked pos).Does (seek pos) s ok (fun _ s' => s' = s) :=
  Does.bind (P := fun _ _ => False) (Does.ofOp (ensureOpen_closed h)) fun _ _ h' => h'.elim

/-- A closed container gives nothing. -/
theorem read_closed (h : s.Closed w) (n : Nat) :
    (readChecked n).Does (read n) s (fun data s' => data = [] ∧ s' = s) (fun _ s' => s' = s) := by
  unfold readChecked read
  refine Does.ite (fun _ => Does.pure ⟨rfl, rfl⟩) fun _ => ?_
  exact Does.bind (P := fun _ _ => False) (Does.ofOp (ensureOpen_closed h)) fun _ _ h' => h'.elim

theorem invalidate_closed {ok : Unit → Session → Prop} (h : s.Closed w) :
    invalidateChecked.Does invalidate s ok (fun _ s' => s' = s) :=
  Does.bind (P := fun _ _ => False) (Does.ofOp (ensureOpen_closed h)) fun _ _ h' => h'.elim

theorem close_closed {err : Error → Session → Prop} (h : s.Closed w) :
    closeChecked.Does close s (fun _ s' => s' = s) err := by
  unfold closeChecked close
  refine Does.get_bind ?_
  simp only [h.isOpen, Bool.false_eq_true, if_false]
  exact Does.pure rfl

/-- A closed container has no chunks to be forgotten. -/
theorem setMaxCached_closed {err : Error → Session → Prop} (h : s.Closed w) {count : Nat}
    (hcount : count < offsetLimit) :
    (setMaxCachedChecked count).Does (setMaxCached count) s (fun _ s' => s'.Closed w) err := by
  have hlimit : 1 < offsetLimit := by decide
  unfold setMaxCachedChecked setMaxCached
  refine Does.get_bind ?_
  simp only [h.pool, List.length_nil, Pool.setCapacity, List.take_nil, List.drop_nil]
  refine Does.check (Checked.add_eq (by omega)) ?_
  rw [if_neg (by omega)]
  refine Does.set_bind (Does.pure { h with pool := rfl, room := ?_, capacity := ?_ })
  · simp only
    omega
  · simp only
    omega

theorem setCacheEnabled_closed {err : Error → Session → Prop} (h : s.Closed w) (enabled : Bool) :
    (setCacheEnabledChecked enabled).Does (setCacheEnabled enabled) s
      (fun _ s' => s'.Closed w) err := by
  unfold setCacheEnabledChecked setCacheEnabled
  refine Does.modify_bind (Does.get_bind ?_)
  have hclosed : Container.isOpen { s.toContainer with config.cacheEnabled := enabled } = false :=
    h.isOpen
  simp only [hclosed, Bool.false_eq_true, if_false]
  exact Does.pure { h with }

/-- An open container is not opened once more. -/
theorem openIn_browses {ok : Unit → Session → Prop} (h : s.Browses v) (mode : Mode) :
    (openInChecked mode).Does (openIn mode) s ok (fun _ s' => s' = s) := by
  unfold openInChecked openIn
  refine Does.get_bind ?_
  simp only [h.isOpen, if_true]
  exact Does.throw_bind rfl

end Container

end Vault
