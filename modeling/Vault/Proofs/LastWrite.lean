import Vault.Proofs.Clean

/-!
# `Vault/Proofs/LastWrite.lean` — the write that a shrink leaves to closing

A shrink writes the two sizes and cuts the raw file in front of the chunk that will be the last one.
What is kept of that chunk goes into memory, like everything that is written into sealed chunks.
**So a container that was closed and is cut to a beginning within its first chunk makes its third
write when it is closed again,** and when nothing can be taken back any more.

Whether a fault strikes cannot be read off the statements about what a run does, since they hold for
any armed faults and do not count calls. Here it is counted: one fault waits for a write
(`Fault.onWrite`), and everything on the way that writes nothing keeps it waiting, as a frame.
-/

set_option autoImplicit false

namespace Vault

namespace Fault

/-- The fault that lets some writes through and makes the next one fail. -/
def onWrite (after : Nat) : Fault := ⟨.write, after, .fail⟩

theorem tame_onWrite (after : Nat) : Tame [.onWrite after] := by simp [Tame, kind, onWrite]

end Fault

namespace Session

variable {s s' : Session} {k : Nat}

/-- There is nothing to be written, and a fault waits for a write. -/
def Armed (k : Nat) (s : Session) : Prop := s.Idle ∧ s.faults = [.onWrite k]

theorem frame_onWrite (k : Nat) : Frame (Armed k) fun x => x.dirty = false :=
  Container.frame_armed rfl

theorem detached_onWrite (k : Nat) : Detached (Armed k) := Container.detached_armed

/-- Where there is something to be written, the fault waits as long as it is not. -/
theorem ambient_onWrite (k : Nat) : Ambient fun s => s.faults = [.onWrite k] where
  faults hcalm h := by rw [h, Fault.meet_single (RawCall.ne_of_alters rfl hcalm)]
  handle _ h := h
  noted _ h := h

/-- What writes nothing meets no fault that waits for a write, so it answers. -/
theorem Armed.answers {α : Type} {x : Op α} {P : α → Prop} {ok : α → Session → Prop}
    {err : Session → Prop} {full : Prop} (hs : s.Armed k) (h : x.Does full s ok err)
    (hkeeps : x.Keeps (Armed k) P s) (hroom : ¬full) :
    ∃ a s', x s = .ok a s' ∧ ok a s' ∧ s'.Armed k := by
  have hafter : (x.after s).Armed k := hkeeps.after hs
  obtain ⟨a, s', hrun, hok⟩ := h.answers_of_unstruck (hs.2 ▸ Fault.tame_onWrite k) hroom
    (Nat.le_of_eq (by rw [hafter.2, hs.2]))
  exact ⟨a, s', hrun, hok, by rwa [Op.after_of_ok hrun] at hafter⟩

/-- What was kept of the content is in the current chunk only, and a fault waits for a write. -/
structure Pends (s : Session) (k : Nat) (g : Site) (c d : Bytes) : Prop extends s.Shows g c d where
  dirty : ∃ x, s.current = some x ∧ x.dirty = true
  pooled : ∀ x ∈ s.pool.entries, x.dirty = false
  faults : s.faults = [.onWrite k]

end Session

namespace Container

open Session

variable {s s' : Session} {k : Nat} {g : Site} {c d : Bytes} {x : Chunk}

/-! ## Writes that are counted

A write that the fault lets through brings it one nearer, whatever was written. So two facts about
the single write are all the counting there is. -/

section
variable {h : Handle} (hh : s.handle = some h) (hw : h.writable = true)
  (hfaults : s.faults = [.onWrite (k + 1)]) (offset : Nat) {data : Bytes} (hdata : data ≠ [])
include hh hw hfaults hdata

theorem faults_writeAt : ((writeAt offset data).after s).faults = [.onWrite k] := by
  have hseek : Fault.meet .seek s.faults = (none, [.onWrite (k + 1)]) := by
    rw [hfaults]
    rfl
  have hwrite : Fault.meet .write [.onWrite (k + 1)] = (none, [.onWrite k]) := rfl
  simp [Op.after, writeAt, Raw.seek, Raw.write, Raw.meetFault, Raw.handle, Raw.moveTo, Raw.note,
    bind, EStateM.bind, Functor.discard, Functor.mapConst, EStateM.map, hseek, hwrite, hh, hw, hdata]

/-- A write that the fault lets through is one less to wait for. -/
theorem writeAt_passes :
    ∃ s', writeAt offset data s = .ok () s' ∧ s'.faults = [.onWrite k] ∧ s'.memory = s.memory ∧
      ∃ p, s'.handle = some { h with position := p } := by
  have hcounts := faults_writeAt hh hw hfaults offset hdata
  have hwrites : (writeAt offset data).Does False s _ _ := writeAtHandle_does hh hw offset hdata
  obtain ⟨⟨⟩, s', hrun, x, rfl⟩ := hwrites.answers_of_unstruck (hfaults ▸ Fault.tame_onWrite _)
    not_false (Nat.le_of_eq (by rw [hcounts, hfaults]; rfl))
  rw [Op.after_of_ok hrun] at hcounts
  exact ⟨_, hrun, hcounts, rfl, x.position, handle_beside hh x⟩

end

/-- The write that the fault waits for fails. -/
theorem writeAt_struck (hfaults : s.faults = [.onWrite 0]) (offset : Nat) (data : Bytes)
    (s' : Session) : writeAt offset data s ≠ .ok () s' := by
  have hseek : Fault.meet .seek s.faults = (none, [.onWrite 0]) := by
    rw [hfaults]
    rfl
  have hwrite : Fault.meet .write [.onWrite 0] = (some .fail, []) := rfl
  cases hh : s.handle <;>
    simp [writeAt, Raw.seek, Raw.write, Raw.meetFault, Raw.handle, Raw.moveTo, bind, EStateM.bind,
      Functor.discard, Functor.mapConst, EStateM.map, hseek, hwrite, hh]

/-! ## Cutting

The two sizes are two writes, and the file is cut with a call of its own. This is the whole of what
a shrink does to the raw file before it is closed. -/

/-- The two sizes of a content that is cut are two writes. -/
theorem writeCut_passes (h : s.Shows g.untrailed c c) (hwrite : g.mode.isWrite = true)
    (hclean : ∀ x ∈ s.memory, x.dirty = false) (hdirty : s.sizeDirty = true)
    (hfaults : s.faults = [.onWrite (k + 2)]) :
    ∃ s', writeSize s = .ok () s' ∧ s'.Shows g.untrailed c c ∧ s'.eofPos = s.eofPos ∧
      s'.Armed k := by
  obtain ⟨p, hp⟩ := h.handle
  have hne (n : Nat) : Bytes.ofNatLE 8 n ≠ [] := by simp [Bytes.ofNatLE]
  obtain ⟨s₁, hrun₁, hfaults₁, hmemory₁, p₁, hp₁⟩ := writeAt_passes hp (g.mayWrite hwrite) hfaults
    Header.plaintextAt (hne s.size)
  obtain ⟨s₂, hrun₂, hfaults₂, hmemory₂, -⟩ := writeAt_passes hp₁ (g.mayWrite hwrite) hfaults₁
    Header.ciphertextAt (hne s.ciphertextSize)
  have hrun : writeSize s = .ok () { s₂ with sizeDirty := false } := by
    simp [writeSize, bind, EStateM.bind, hdirty, hrun₁, hrun₂]
  have hwrites : writeSize.Does False s _ _ := writeCut_does h hwrite
  obtain ⟨-, hs', heof⟩ := hwrites.of_ok (hfaults ▸ Fault.tame_onWrite _) hrun
  refine ⟨_, hrun, hs', heof, ⟨fun x hx => hclean x ?_, rfl⟩, hfaults₂⟩
  rw [← hmemory₁, ← hmemory₂]
  exact hx

/-- Cutting the raw file is no write. -/
theorem cutRaw_passes (h : s.Shows g.untrailed c c) (hwrite : g.mode.isWrite = true)
    (hs : s.Armed k) {size : Nat} (hsize : size = s.eofPos) (durable : Bool) :
    ∃ s', Raw.truncate size durable s = .ok () s' ∧ s'.Shows g.trimmed c c ∧ s'.Armed k := by
  have hkeeps : (Raw.truncate size durable).Keeps (Armed k) (fun _ => True) s :=
    Raw.truncate_keeps (fun _ h => ⟨⟨h.1.clean, h.1.sized⟩, h.2⟩) (frame_onWrite k).toAmbient
      (fun h => ⟨⟨h.1.clean, h.1.sized⟩, by rw [h.2]; rfl⟩) size durable
  obtain ⟨⟨⟩, s', hrun, ⟨hs', -⟩, harmed⟩ :=
    hs.answers (cutRaw_does h hwrite hsize durable) hkeeps not_false
  exact ⟨s', hrun, hs', harmed⟩

/-- Measuring reads, and hands on what `measure_does` says. -/
theorem measure_passes (h : s.Shows g c c) {i : Nat} (hi : i ≤ s.eofSeqnum) (hs : s.Armed k) :
    ∃ y t, y.content = g.metadata.layout.part c i ∧ s.PassesBy t ∧ t.Armed k ∧
      ∀ f : Chunk → Extent → Op Unit, (do
        let rawEnd := min (← Raw.size) (← get).eofPos
        let chunk ← loadChunk i 0 0
        let t ← get
        let x ← extentBefore chunk (t.eofSeqnum - i) ⟨t.size, t.ciphertextSize, rawEnd⟩
        f chunk x : Op Unit) s
        = f y ⟨g.metadata.layout.startOf i, g.metadata.layout.rawStartOf i - g.metadata.dataOffset,
            g.metadata.layout.rawStartOf i⟩ t := by
  have hI := frame_onWrite k
  let measure : Op (Chunk × Extent) := do
    let rawEnd := min (← Raw.size) (← get).eofPos
    let chunk ← loadChunk i 0 0
    let t ← get
    let x ← extentBefore chunk (t.eofSeqnum - i) ⟨t.size, t.ciphertextSize, rawEnd⟩
    return (chunk, x)
  -- measuring is taken by itself, since what comes after it does not keep the fault waiting
  have hmeasures : measure.Does False s
      (fun r t => r.1.content = g.metadata.layout.part c i ∧ s.PassesBy t ∧
        r.2 = ⟨g.metadata.layout.startOf i, g.metadata.layout.rawStartOf i - g.metadata.dataOffset,
          g.metadata.layout.rawStartOf i⟩)
      (fun _ => True) :=
    measure_does h hi (fun y t hcontent hpass => Op.Does.pure ⟨hcontent, hpass, rfl⟩)
      fun _ _ => trivial
  have hkeeps : measure.Keeps (Armed k) (fun _ => True) s := by
    refine Op.Keeps.bind (Raw.size_keeps hI.toAmbient) fun _ _ _ => Op.Keeps.get_bind fun _ => ?_
    refine Op.Keeps.bind (loadChunk_keeps hI i 0 0) fun _ _ _ => Op.Keeps.get_bind fun _ => ?_
    exact Op.Keeps.bind (extentBefore_keeps hI _ _ _) fun _ _ _ => Op.Keeps.pure trivial
  obtain ⟨⟨y, x⟩, t, hrun, ⟨hcontent, hpass, rfl⟩, harmed⟩ := hs.answers hmeasures hkeeps not_false
  refine ⟨y, t, hcontent, hpass, harmed, fun f => ?_⟩
  obtain ⟨found, s₁, hsize, hrun⟩ := Op.ok_of_bind hrun
  obtain ⟨_, _, ⟨⟩, hrun⟩ := Op.ok_of_bind hrun
  obtain ⟨_, s₂, hload, hrun⟩ := Op.ok_of_bind hrun
  obtain ⟨_, _, ⟨⟩, hrun⟩ := Op.ok_of_bind hrun
  obtain ⟨_, _, hbefore, ⟨⟩⟩ := Op.ok_of_bind hrun
  simp only [bind, EStateM.bind, Op.get_run, hsize, hload, hbefore]

/-! ## What is kept of the first chunk

The chunk is read, opened and cut in memory before the file is touched, and put back as data.
Reading writes nothing, and neither does writing into a sealed chunk; so the fault waits as long as
it did. -/

/-- Data for which the current chunk has room stays in memory. -/
theorem writeAll_within (hx : s.current = some x) (hblock : s.processor.config.streaming = false)
    {data : Bytes} (hdata : data ≠ [])
    (hfits : ∀ room, x.available = some room → data.length ≤ room) :
    writeAll data s = .ok () (s.written x data) := by
  have hroom : x.available ≠ some 0 := fun hnone =>
    hdata (List.eq_nil_of_length_eq_zero (Nat.le_zero.mp (hfits 0 hnone)))
  have hactive {t : Session} {y : Chunk} (hy : t.current = some y) : active t = .ok y t := by
    simp [active, bind, EStateM.bind, hy]
  have hfound : roomAtCursor data.length s = .ok x.available s := by
    simp [roomAtCursor, bind, EStateM.bind, hactive hx, hroom]
  have hwritten : writeCurrent data s = .ok () (s.written x data) := by
    simp only [writeCurrent, bind, EStateM.bind, hactive hx, Op.modify_run, Op.get_run, hblock]
    rfl
  obtain ⟨b, rest, rfl⟩ := List.exists_cons_of_ne_nil hdata
  -- one turn takes all of the data, and the next one has none
  have hturn (len : Nat) (hlen : len = (b :: rest).length) :
      (do writeCurrent ((b :: rest).take len); writeChunks rest.length ((b :: rest).drop len) :
        Op Unit) s = .ok () (s.written x (b :: rest)) := by
    subst hlen
    rw [List.take_length, List.drop_length]
    simp only [bind, EStateM.bind, hwritten]
    cases rest <;> simp [writeChunks]
  rw [writeAll, List.length_cons, writeChunks, if_pos hdata]
  simp only [bind, EStateM.bind, hfound]
  cases havailable : x.available with
  | none => exact hturn _ rfl
  | some room => exact hturn _ (Nat.min_eq_right (hfits room havailable))

/-- Inside the current chunk only the place changes. -/
theorem moveTo_within (h : s.Shows g c d) (happ : g.mode.isAppend = false)
    (hx : s.current = some x) {pos offset : Nat} (hpos : pos ≤ c.length)
    (hplace : g.metadata.layout.locate? pos = some (x.seqnum, offset)) (overwrite : Nat) :
    moveTo pos overwrite s
      = .ok () { s with current := some { x with offset }, cursor := pos } := by
  have hopen : ensureOpen s = .ok () s := by
    simp [ensureOpen, bind, EStateM.bind, h.isOpen]
  have hallowed : ¬s.size < pos := Nat.not_lt.mpr (h.size ▸ hpos)
  simp [moveTo, bind, EStateM.bind, hopen, h.mode, happ, hallowed, h.layout, hplace, hx]

/-- A tail that ends in the first chunk is put into memory. -/
theorem appendTail_passes (h : s.Shows g [] d) (hwrite : g.mode.isWrite = true)
    (happ : g.mode.isAppend = false) (hs : s.Armed k) {tail : Bytes} {newPos : Nat}
    (hdata : tail ≠ []) (hpos : newPos ≤ tail.length)
    (hnum : g.metadata.layout.seqnumOf? tail.length = some 0) :
    ∃ s' d', (do
      moveTo (← get).size 0
      writeAll tail
      let size := (← get).size
      if size ≠ tail.length then throw (.aborted tail.length size)
      moveTo newPos 0 : Op Unit) s = .ok () s' ∧ s'.Pends k g tail d' := by
  have hsize : s.size = 0 := h.size
  obtain ⟨-, -, hend, hlimit⟩ := Layout.seqnumOf?_eq_some_iff.mp hnum
  rw [Layout.startOf_zero, Nat.zero_add] at hend
  -- the cursor goes to the start of the first chunk, which is empty
  obtain ⟨⟨⟩, t, hmove, ⟨hcursor, -, x, d', hx, hfirst, ht⟩, harmed⟩ :=
    hs.answers (moveTo_shows h (Nat.zero_le _) (by simp [happ]))
      (moveTo_keeps (frame_onWrite k) 0 0) (by simp [Layout.seqnumOf?_zero])
  have hfirst : x.seqnum = 0 := by simpa [Layout.seqnumOf?_zero] using hfirst.symm
  have hoffset : x.offset = 0 := by
    have hplace := (ht.points x hx).eq
    rw [hcursor, hfirst, Layout.startOf_zero] at hplace
    omega
  have hfits (room : Nat) (hroom : x.available = some room) : tail.length ≤ room := by
    rw [Chunk.available, (ht.mirrors hx).maxSize, hoffset, hfirst] at hroom
    split at hroom
    · exact absurd hroom (by simp)
    · obtain rfl : _ = room := by simpa using hroom
      omega
  have hall := writeAll_within hx ht.blockwise hdata hfits
  have hwritten := ht.written hx hwrite hdata hfits
  rw [hcursor, Bytes.overlay_zero (Nat.zero_le _)] at hwritten
  -- from there it goes to a place in the same chunk, so the chunk is not written
  have hplace : g.metadata.layout.locate? newPos = some (x.seqnum, newPos) := by
    rw [hfirst, Layout.locate?_eq_some_iff, Layout.seqnumOf?_eq_some_iff, Layout.startOf_zero]
    have hreaches : g.metadata.layout.Reaches 0 := fun j hj => absurd hj (Nat.not_lt_zero j)
    exact ⟨⟨hreaches, Nat.zero_le _, by omega, hlimit⟩, (Nat.zero_add _).symm⟩
  have hback : moveTo newPos 0 (t.written x tail) = .ok () _ :=
    moveTo_within hwritten happ rfl hpos hplace 0
  obtain ⟨-, -, -, -, d₁, -, -, hs'⟩ := (moveTo_shows hwritten hpos (by simp [happ])).of_ok
    (harmed.2 ▸ Fault.tame_onWrite k) hback
  refine ⟨_, d₁, ?run, { hs' with
    dirty := ⟨_, rfl, rfl⟩, pooled := fun y hy => ?pooled, faults := harmed.2 }⟩
  case run => simp [bind, EStateM.bind, hsize, hmove, hall, hwritten.size, hback]
  case pooled => exact harmed.1.clean y (List.mem_append_right _ hy)

/-! ## Shrinking -/

section
variable {n newPos : Nat} (hwrite : g.mode.isWrite = true) (happ : g.mode.isAppend = false)
  (hpos : 0 < n) (hlt : n < c.length) (hnum : g.metadata.layout.seqnumOf? n = some 0)
  (hnew : newPos ≤ n)
include hwrite happ hpos hlt hnum hnew

theorem shrinkToBoundary_passes (h : s.Shows g c c) (hnone : s.current = none)
    (hpool : s.pool.entries = []) (hs : s.Armed (k + 2)) (durable : Bool) :
    ∃ s' d', shrinkToBoundary n newPos 0 n durable s = .ok () s' ∧
      s'.Pends k g.trimmed (c.take n) d' := by
  obtain ⟨y, t, hcontent, hpass, harmed, hmeasured⟩ := measure_passes h (Nat.zero_le _) hs
  have ht := h.passesBy hpass
  obtain ⟨hnone', hpool'⟩ : t.current = none ∧ t.pool.entries = [] := by
    obtain ⟨z, rfl⟩ := hpass
    exact ⟨hnone, hpool⟩
  -- the first chunk becomes the last one and empty: the sizes are written and the file is cut
  have hoffset := g.metadata.layout.dataOffset_le_rawStartOf 0
  rw [Metadata.dataOffset_layout] at hoffset
  have hcut := ht.cut hwrite hnone' hpool' 0 (g.metadata.layout.startOf 0)
    (g.metadata.layout.rawStartOf 0 - g.metadata.dataOffset) (Nat.zero_le _) rfl (by omega)
  rw [Layout.startOf_zero, List.take_zero] at hcut
  obtain ⟨u, hsizes, hu, heof, harmed₁⟩ :=
    writeCut_passes hcut hwrite harmed.1.clean rfl harmed.2
  have hend : g.metadata.layout.rawStartOf 0 = u.eofPos := by
    rw [heof, hcut.eofPos_eq]
    exact (Nat.add_sub_cancel' hoffset).symm
  obtain ⟨v, htruncate, hv, harmed₂⟩ := cutRaw_passes hu hwrite harmed₁ hend durable
  -- what is kept of it stays in memory
  have htail : y.content.take n = c.take n := by
    obtain ⟨-, -, hwithin, -⟩ := Layout.seqnumOf?_eq_some_iff.mp hnum
    have hkept : c.take (g.metadata.layout.startOf 0) ++ (g.metadata.layout.part c 0).take n
        = c.take n := take_append_part (by simp) (by unfold Layout.Within; omega)
    rw [hcontent]
    simpa using hkept
  have hlen : (c.take n).length = n := by
    rw [List.length_take]
    omega
  have hkept : c.take n ≠ [] := List.length_pos_iff.mp (hlen.symm ▸ hpos)
  have hplace : newPos ≤ (c.take n).length := hlen.symm ▸ hnew
  obtain ⟨s', d', happend, hs'⟩ :=
    appendTail_passes hv hwrite happ harmed₂ hkept hplace (by rw [hlen]; exact hnum)
  refine ⟨s', d', ?_, hs'⟩
  rw [hlen] at happend
  unfold shrinkToBoundary
  rw [hmeasured, htail]
  simp only [bind, EStateM.bind, Op.modify_run, Op.get_run, Layout.startOf_zero, hsizes,
    htruncate] at happend ⊢
  exact happend

/-- **A content is cut to a beginning within its first chunk** with two writes, and has to be
written again. -/
theorem shrink_passes (h : s.Flushed g c) (hfaults : s.faults = [.onWrite (k + 2)])
    (durable : Bool) :
    ∃ s' d', shrink n newPos durable s = .ok () s' ∧ s'.Pends k g.trimmed (c.take n) d' := by
  have harmed : s.Armed (k + 2) := ⟨h.toIdle, hfaults⟩
  obtain ⟨⟨⟩, t, hflush, ⟨-, -, -, ht⟩, harmed₁⟩ :=
    harmed.answers (flushAll_does h.toShows none) (flushAll_keeps (frame_onWrite _) none) not_false
  have hu : Shows { t with pool := t.pool.clear, current := none } g c c :=
    ht.toShows.forget ht.clean (.inr rfl)
  have harmed₂ : Armed (k + 2) { t with pool := t.pool.clear, current := none } :=
    ⟨⟨by simp [memory, Pool.clear], harmed₁.1.sized⟩, harmed₁.2⟩
  have hplace : t.layout.locate? n = some (0, n) := by
    rw [ht.layout, Layout.locate?_eq_some_iff]
    exact ⟨hnum, (Nat.zero_add n).symm⟩
  obtain ⟨s', d', hshrink, hs'⟩ :=
    shrinkToBoundary_passes hwrite happ hpos hlt hnum hnew hu rfl rfl harmed₂ durable
  refine ⟨s', d', ?_, hs'⟩
  simp [shrink, bind, EStateM.bind, hflush, Nat.ne_of_gt hpos, hplace, hshrink]

end

/-! ## Closing

Nothing but the one dirty chunk is to be written, and its write is the one that fails. The sizes
would come after it, so they stay what the shrink wrote: the header tells of the content in front of
the chunk, without what was kept of the chunk. -/

/-- Clean chunks in the pool are not written. -/
theorem flushPooled_of_clean {xs : List Chunk} (hclean : ∀ x ∈ xs, x.dirty = false) :
    flushPooled xs s = .ok () s := by
  induction xs with
  | nil => rfl
  | cons x xs ih =>
    rw [flushPooled, if_neg (by simp [hclean x List.mem_cons_self])]
    exact ih fun y hy => hclean y (List.mem_cons_of_mem x hy)

/-- A chunk cannot be written when the next write fails: packed it is never empty. -/
theorem flushChunk_struck (h : s.Stands g) (hfaults : s.faults = [.onWrite 0]) (x y : Chunk)
    (s' : Session) : flushChunk x s ≠ .ok y s' := by
  intro hrun
  have hI := ambient_onWrite 0
  obtain ⟨data, s₁, hpack, hrun⟩ := Op.ok_of_bind hrun
  have hpacks : (packChunk x).Does False s _ _ := packChunk_does h x
  obtain ⟨-, hlen, -⟩ := hpacks.of_ok (hfaults ▸ Fault.tame_onWrite 0) hpack
  have hdata : data ≠ [] := by
    rintro rfl
    simp [ChunkCipher.overhead, Gcm.nonceSize, Gcm.tagSize] at hlen
  rw [if_neg hdata] at hrun
  -- up to the write the fault waits on
  have hfaults₁ := Op.after_of_ok hpack ▸ (packChunk_keeps hI (fun _ h => h) x).after hfaults
  obtain ⟨raw, s₂, hraw, hrun⟩ := Op.ok_of_bind hrun
  have hfaults₂ := Op.after_of_ok hraw ▸ (rawPosOf_keeps hI x.seqnum).after hfaults₁
  obtain ⟨⟨⟩, s₃, hcut, hrun⟩ := Op.ok_of_bind hrun
  have hfaults₃ := Op.after_of_ok hcut ▸ (cutTail_keeps (fun _ h => h) hI
    (fun h => by rw [h]; rfl) id (raw + data.length)).after hfaults₂
  obtain ⟨⟨⟩, s₄, hwrite, -⟩ := Op.ok_of_bind hrun
  exact writeAt_struck hfaults₃ raw data s₄ hwrite

theorem flushAll_struck (h : s.Pends 0 g c d) (hwrite : g.mode.isWrite = true)
    (raw : Option Bool) (s' : Session) : flushAll raw s ≠ .ok () s' := by
  intro hrun
  obtain ⟨x, hx, hdirty⟩ := h.dirty
  unfold flushAll at hrun
  obtain ⟨_, _, ⟨⟩, hrun⟩ := Op.ok_of_bind hrun
  rw [if_pos (by simp [h.isOpen, h.mode, hwrite])] at hrun
  obtain ⟨_, t, hpooled, hrun⟩ := Op.ok_of_bind hrun
  obtain rfl : s = t := by simpa [flushPooled_of_clean h.pooled] using hpooled
  obtain ⟨_, _, ⟨⟩, hrun⟩ := Op.ok_of_bind hrun
  rw [if_pos (by simp [hx, hdirty])] at hrun
  obtain ⟨_, t, hactive, -⟩ := Op.ok_of_bind hrun
  unfold flushActive at hactive
  obtain ⟨y, u, hfound, hflush⟩ := Op.ok_of_bind hactive
  obtain ⟨rfl, rfl⟩ : x = y ∧ s = u := by simpa [active, bind, EStateM.bind, hx] using hfound
  obtain ⟨z, v, hflush, -⟩ := Op.ok_of_bind hflush
  exact flushChunk_struck h.toStands h.faults x z v hflush

/-- Closing what cannot be flushed reports that error. -/
theorem shut_of_flush_error {e : Error} {t : Session} (hopen : s.isOpen = true)
    (hflush : flushAll (some false) s = .error e t) : ∃ s', shut true s = .error e s' := by
  obtain ⟨closed, u, hclose⟩ : ∃ closed u, Op.attempt Raw.close t = .ok closed u := by
    unfold Op.attempt
    cases Raw.close t <;> exact ⟨_, _, rfl⟩
  have hraw : closeRaw true s = .error e u := by
    have hattempt : Op.attempt (flushAll (some false)) s = .ok (.error e) t := by
      simp [Op.attempt, hflush]
    simp [closeRaw, bind, EStateM.bind, hopen, hattempt, hclose, Op.ofExcept]
  have hattempt : Op.attempt (closeRaw true) s = .ok (.error e) u := by
    simp [Op.attempt, hraw]
  simp [shut, forgetAll, bind, EStateM.bind, hattempt, Op.ofExcept]

theorem shut_struck (h : s.Pends 0 g c d) (hwrite : g.mode.isWrite = true) :
    ∃ s', shut true s = .error .writeFailed s' := by
  have hflushes : (flushAll (some false)).Does False s _ _ := flushAll_does h.toShows (some false)
  cases hflush : flushAll (some false) s with
  | ok _ t => exact absurd hflush (flushAll_struck h hwrite (some false) t)
  | error e t =>
    obtain ⟨hstrikes | ⟨-, hfalse⟩, -⟩ :=
      hflushes.of_error (h.faults ▸ Fault.tame_onWrite 0) hflush
    · have hspared : Fault.Spares [.onWrite 0] s.faults := congrArg _ h.faults
      obtain rfl : e = .writeFailed := (hstrikes.single hspared).2
      exact shut_of_flush_error h.isOpen hflush
    · exact hfalse.elim

/-! ## A closed container -/

/-- **The third write of a container that is opened to be cut is made when it is closed,** if it is
cut to a beginning within its first chunk. If that write fails, the content was cut already. -/
theorem truncate_struck {m : Metadata} {file ct last n : Nat} (hwaits : s.Waits m file ct last c)
    (hfits : m.Fits c.length) (hroom : m.layout.seqnumOf? c.length ≠ none) (hpos : 0 < n)
    (hlt : n < c.length) (hnum : m.layout.seqnumOf? n = some 0)
    (hfaults : s.faults = [.onWrite 2]) :
    ∃ t u v, launch .writeExisting false s = .ok () t ∧ resize n true t = .ok () u ∧
      shut true u = .error .writeFailed v := by
  -- opening writes nothing
  have hlaunches : (launch .writeExisting false).Does _ s _ _ :=
    launch_does hwaits hfits rfl .unknown trivial
  have harmed : Armed 2 ((launch .writeExisting false).after s) :=
    launch_keeps_of_forgotten (frame_onWrite 2) (detached_onWrite 2) rfl false
      ⟨⟨by simp [memory, Pool.clear], rfl⟩, hfaults⟩
  obtain ⟨⟨⟩, t, hlaunch, ht, -⟩ := hlaunches.answers_of_unstruck
    (hfaults ▸ Fault.tame_onWrite 2) hroom (Nat.le_of_eq (by rw [harmed.2, hfaults]))
  rw [Op.after_of_ok hlaunch] at harmed
  -- taking a copy closes and opens the container, and writes nothing either
  obtain ⟨backup, u, htake, ⟨-, g, hmatches, -, -, hu, -⟩, harmed'⟩ :=
    harmed.answers (takeBackup_does ht.toShows rfl rfl hfits)
      (takeBackup_keeps (frame_onWrite 2) (detached_onWrite 2)) hroom
  have hmode : g.mode = .writeExisting := hmatches.mode
  -- the sizes are the first two writes, and the third one is left to closing
  obtain ⟨v, d, hshrink, hv⟩ := shrink_passes (by rw [hmode]; rfl) (by rw [hmode]; rfl) hpos hlt
    (by rw [hmatches.metadata]; exact hnum) (Nat.min_le_right t.cursor n) hu harmed'.2 true
  obtain ⟨w, hshut⟩ := shut_struck hv (by rw [Site.trimmed, hmode]; rfl)
  refine ⟨t, v, w, hlaunch, ?_, hshut⟩
  have hshort : n < t.size := ht.size ▸ hlt
  simp [resize, shrinkWithBackup, Op.attempt, bind, EStateM.bind, ht.mode, Waits.site,
    Mode.isAppend, Nat.ne_of_lt hshort, Nat.not_lt.mpr (Nat.le_of_lt hshort), htake, hshrink]

end Container

end Vault
