import Vault.Proofs.LastWrite

/-!
# `Vault/Proofs/Interrupted.lean` — a shrink that is not taken back

A shrink with a backup copy is taken back when it fails while the content is cut. Before the copy is
taken, and after the content is cut, there is nothing to go back to. **A closed container whose
content was cut and that cannot be closed again reports a failure and has a shorter file;** every
other failure leaves the file as it was. **An open container that cannot be closed to be copied
stays closed,** and what it had not yet written is gone.

Two things are told of a failed truncation that the statements about its parts do not tell: which of
the parts failed, and what is on the disk. The first is read off the run, once for a closed
container (`truncate_of_closed`) and once for an open one (`truncate_of_shut_error`). The second is
carried along as a frame, since a container with nothing to write leaves its disk alone.
-/

set_option autoImplicit false

namespace Vault

/-! ## Nothing to be written

A file that is not written stays what it is, which is one half of what follows. The other half needs
that a cut can be told from the length of the file: a shorter content has strictly less chunk data,
whether or not an empty chunk stands at its end. -/

namespace Session

variable {s : Session} {disk : Disk}

/-- There is nothing to be written, and this is the disk. -/
def Calm (disk : Disk) (s : Session) : Prop := s.Idle ∧ s.disk = disk

/-- A container that has nothing to write writes nothing. -/
theorem frame_calm (disk : Disk) : Frame (Calm disk) fun x => x.dirty = false :=
  frame_idle (P := fun d _ _ => d = disk) fun _ h => h

theorem detached_calm (disk : Disk) : Detached (Calm disk) :=
  detached_idle (P := fun d _ _ => d = disk)

end Session

namespace Metadata

variable {m : Metadata} {raw raw' c d : Bytes} {ct ct' e e' : Nat}

/-- Of fewer bytes there are no more chunks. -/
theorem Stores.ciphertextSize_lt (h : m.Stores raw ct e c) (h' : m.Stores raw' ct' e' d)
    (hlt : d.length < c.length) : ct' < ct := by
  have hraw := Layout.rawStartOf_eq h.packs h.reaches
  have hraw' := Layout.rawStartOf_eq h'.packs h'.reaches
  have hpart := h.length_part_last
  have hpart' := h'.length_part_last
  have hstart := h.start
  have hstart' := h'.start
  have hwithin := h.within
  unfold Layout.Within at hwithin
  rw [dataOffset_layout] at hraw hraw'
  -- a chunk behind the last one begins behind the content
  have hlast : e' ≤ e := by
    refine Nat.le_of_not_lt fun hgt => ?_
    have hcap := h'.reaches e hgt
    have hle := m.layout.startOf_add_capacity_le hgt
    omega
  have hmono := m.layout.startOf_mono hlast
  have hover : ChunkCipher.overhead * e' ≤ ChunkCipher.overhead * e := Nat.mul_le_mul_left _ hlast
  rcases h.extent with ⟨hct, hlen⟩ | ⟨hct, -⟩
  · -- the content ends where the last chunk begins, so the shorter one ends in an earlier chunk
    rcases h'.extent with ⟨hct', hlen'⟩ | ⟨hct', hfilled⟩
    · omega
    · have hne : e' < e := by
        refine Nat.lt_of_le_of_ne hlast fun heq => ?_
        subst heq
        omega
      have hnext : ChunkCipher.overhead * (e' + 1) ≤ ChunkCipher.overhead * e :=
        Nat.mul_le_mul_left _ hne
      rw [Nat.mul_add] at hnext
      omega
  · rcases h'.extent with ⟨hct', hlen'⟩ | ⟨hct', -⟩ <;> omega

end Metadata

namespace Container

open Session

variable {s t u s' : Session} {m : Metadata} {file ct last n : Nat} {c : Bytes} {e : Error}
  {disk : Disk}

/-- Opening a file that is there leaves the disk alone, and nothing is to be written then. -/
theorem launch_calm {mode : Mode} (hmode : mode.createsFile (s.disk.contains s.path) = false)
    (metadataOnly : Bool) : Calm s.disk ((launch mode metadataOnly).after s) :=
  let ⟨hidle, hdisk, _⟩ := launch_untouched hmode metadataOnly
  ⟨hidle, hdisk⟩

/-! ## A closed container

A truncation of a closed container is opening, cutting and closing, one after the other, and it
fails in one of the three. Opening writes nothing; a cut that fails is taken back; and what fails in
closing fails with the content cut. That is the case distinction of the theorem, and `CutShort`
names its last case by the runs that lead there. -/

/-- **Cutting the content makes the raw file shorter,** whatever of the rest is written. -/
theorem length_lt_of_cut {g g' : Site} {c' d' : Bytes} (h : s.Flushed g c)
    (hs' : s'.Shows g' c' d') (hmetadata : g'.metadata = g.metadata) (htrail : g'.trail = .cut)
    (hlt : c'.length < c.length) :
    (s'.disk.contents g'.file).length < (s.disk.contents g.file).length := by
  have hstores' := hs'.stores
  rw [hmetadata] at hstores'
  have hct := h.stores.ciphertextSize_lt hstores' (Nat.lt_of_le_of_lt hs'.recalls.grown hlt)
  have hpresent := h.stores.present
  have hpresent' := hstores'.present
  have hnil := hs'.trail
  rw [htrail] at hnil
  have hle := List.drop_eq_nil_iff.mp hnil
  rw [hs'.eofPos_eq, hmetadata] at hle
  omega

/-- The content was cut, so that all that was left to do was to close the container. -/
def CutShort (n : Nat) (s : Session) : Prop :=
  ∃ t u, launch .writeExisting false s = .ok () t ∧ resize n true t = .ok () u

/-- A closed container is opened for another size and closed again, unless the zeros that are
missing need too large a buffer. -/
theorem truncate_of_closed (hclosed : s.handle = none)
    (hblock : s.processor.config.streaming = false) (hrun : truncate n true s = .error e s') :
    launch .writeExisting false s = .error e s' ∨
    (∃ t, launch .writeExisting false s = .ok () t ∧ allocationLimit < zerosAtOnce t n) ∨
    (∃ t u, launch .writeExisting false s = .ok () t ∧ resize n true t = .error e u ∧
      s' = (shut true).after u) ∨
    ∃ t u, launch .writeExisting false s = .ok () t ∧ resize n true t = .ok () u ∧
      shut true u = .error e s' := by
  simp only [truncate, bind, EStateM.bind, Op.get_run, Container.isOpen, hclosed, hblock,
    Option.isSome_none, Bool.false_eq_true, if_false] at hrun
  cases hlaunch : launch .writeExisting false s with
  | error e' t =>
    rw [hlaunch] at hrun
    exact .inl hrun
  | ok _ t =>
    rw [hlaunch] at hrun
    dsimp only at hrun
    by_cases hlarge : allocationLimit < zerosAtOnce t n
    · exact .inr (.inl ⟨t, rfl, hlarge⟩)
    simp only [if_neg hlarge, Op.attempt, EStateM.bind] at hrun
    refine .inr (.inr ?_)
    cases hresize : resize n true t with
    | error e' u =>
      rw [hresize] at hrun
      obtain ⟨rfl, rfl⟩ : e' = e ∧ (shut true).after u = s' := by
        cases hshut : shut true u with
        | error e'' v =>
          rw [Op.after_of_error hshut]
          simpa [hshut, Op.ofExcept] using hrun
        | ok _ v =>
          rw [Op.after_of_ok hshut]
          simpa [hshut, Op.ofExcept] using hrun
      exact .inl ⟨t, u, rfl, hresize, rfl⟩
    | ok _ u =>
      rw [hresize] at hrun
      refine .inr ⟨t, u, rfl, hresize, ?_⟩
      cases hshut : shut true u with
      | error e' v =>
        simpa [hshut, Op.ofExcept] using hrun
      | ok _ v => simp [hshut, Op.ofExcept] at hrun

/-- A content that is not cut because a single fault struck stays in the file as it was. -/
theorem resize_undone {g : Site} (h : t.Flushed g c) (hplaced : t.Placed)
    (hwrite : g.mode.isWrite = true) (happ : g.mode.isAppend = false)
    (hfits : g.metadata.Fits c.length) (hlt : n < c.length) {fault : Fault}
    (htame : Fault.Tame [fault]) (hspared : Fault.Spares [fault] t.faults)
    (hrun : resize n true t = .error e u) :
    u.Idle ∧ u.disk.read? g.path = t.disk.read? g.path := by
  -- taking the copy changes nothing on the disk, whether it succeeds or not
  have hcalm : Calm t.disk (takeBackup.after t) :=
    (takeBackup_keeps (frame_calm t.disk) (detached_calm t.disk)).after ⟨{ h with }, rfl⟩
  have hshort : n < t.size := h.size ▸ hlt
  have hresize : resize n true t = shrinkWithBackup n t := by
    simp [resize, bind, EStateM.bind, h.mode, happ, Nat.ne_of_lt hshort,
      Nat.not_lt.mpr (Nat.le_of_lt hshort)]
  rw [hresize] at hrun
  simp only [shrinkWithBackup, bind, EStateM.bind, Op.get_run] at hrun
  cases htake : takeBackup t with
  | error e' v =>
    -- nothing was written yet
    rw [htake] at hrun
    obtain ⟨rfl, rfl⟩ : e' = e ∧ v = u := by simpa using hrun
    rw [Op.after_of_error htake] at hcalm
    exact ⟨hcalm.1, by rw [hcalm.2]⟩
  | ok backup v =>
    rw [htake] at hrun
    rw [Op.after_of_ok htake] at hcalm
    obtain ⟨hspared₁, hroom, g₁, hmatches, -, -, hv, hbackup⟩ :=
      (takeBackup_does h.toShows hwrite happ hfits).of_ok (hspared.worn.tame htame) htake
    have hwrite₁ : g₁.mode.isWrite = true := hmatches.mode ▸ hwrite
    have happ₁ : g₁.mode.isAppend = false := hmatches.mode ▸ happ
    simp only [Op.attempt] at hrun
    cases hshrink : shrink n (min t.cursor n) true v with
    | ok _ w => simp [hshrink] at hrun
    | error e' w =>
      -- the fault struck, so nothing stands in the way of putting the copy back
      have hspared₂ := hspared.trans hspared₁
      have hshrinks : (shrink n (min t.cursor n) true).Does False v _ _ :=
        shrink_does hv.toShows hwrite₁ happ₁ hlt (Nat.min_le_right t.cursor n) true
      obtain ⟨hhalts, hstays⟩ := hshrinks.of_error (hspared₂.worn.tame htame) hshrink
      have hquiet : w.faults = [] := by
        rcases hhalts with hstrikes | ⟨-, hfalse⟩
        · exact (hstrikes.single hspared₂).1
        · exact hfalse.elim
      have hkeeps := hv.keeps
      rw [← hbackup] at hkeeps
      obtain ⟨_, s', hback, -, g₂, hmatches₂, -, hs', -, -, hcontents⟩ :=
        (rollback_does hstays hwrite₁ happ₁ hkeeps (hmatches.metadata ▸ hfits) t.cursor
          t.seekCursor).answers hquiet (by
            rintro (hfull | hbehind)
            · exact hroom (hmatches.metadata ▸ hfull)
            · unfold Placed at hplaced
              rw [h.size] at hplaced
              omega)
      simp only [hshrink, Op.attempt, EStateM.bind, hback] at hrun
      obtain ⟨rfl, rfl⟩ : e' = e ∧ s' = u := by
        simpa using hrun
      have hpath₁ : g₁.path = g.path := hmatches.path
      have hpath₂ : g₂.path = g.path := hmatches₂.path.trans hpath₁
      refine ⟨{ hs' with }, ?_⟩
      rw [← hpath₂, hs'.read?, hcontents, hbackup, hpath₂, ← hpath₁, ← hcalm.2, hv.read?]

end Container

open Session

/-- **Cutting a closed container is all or nothing up to the moment at which it is closed again.**
Suppose that a single fault makes it fail. Unless the content was already cut, the raw file is what
it was. If the content was cut and the container could not be closed, the raw file is shorter. -/
theorem failed_closed_shrink_keeps_iff {s s' : Session} {m : Metadata} {file ct last n : Nat}
    {c : Bytes} {e : Error} (hwaits : s.Waits m file ct last c) (hfits : m.Fits c.length)
    (hlt : n < c.length) {fault : Fault} (htame : Fault.Tame [fault])
    (hfaults : s.faults = [fault]) (hrun : Container.truncate n true s = .error e s') :
    ∃ raw raw', s.disk.read? s.path = some raw ∧ s'.disk.read? s.path = some raw' ∧
      (raw' = raw ↔ ¬Container.CutShort n s) ∧
      (Container.CutShort n s → raw'.length < raw.length) := by
  have htame' : Fault.Tame s.faults := by rwa [hfaults]
  have hblock : s.processor.config.streaming = false := hwaits.kind.trans hwaits.keeps.sealed
  have hread : s.disk.read? s.path = some (s.disk.contents file) := by
    simp [Disk.read?, hwaits.found]
  have hlaunches : (Container.launch .writeExisting false).Does _ s _ _ :=
    Container.launch_does hwaits hfits rfl .unknown trivial
  have hcalm : Calm s.disk ((Container.launch .writeExisting false).after s) :=
    Container.launch_calm rfl false
  rcases Container.truncate_of_closed hwaits.closed hblock hrun with
    hlaunch | ⟨t, hlaunch, hlarge⟩ | ⟨t, u, hlaunch, hresize, rfl⟩ | ⟨t, u, hlaunch, hresize, hshut⟩
  · -- the container could not be opened
    rw [Op.after_of_error hlaunch] at hcalm
    have hnot : ¬Container.CutShort n s := by
      rintro ⟨t, u, hok, -⟩
      simp [hlaunch] at hok
    exact ⟨_, _, hread, by rw [hcalm.2]; exact hread, by simp [hnot], fun h => absurd h hnot⟩
  · -- no zeros are missing from a content that is cut
    obtain ⟨-, ht, -⟩ := hlaunches.of_ok htame' hlaunch
    have hmore := Container.lt_of_zerosAtOnce_pos (Nat.zero_lt_of_lt hlarge)
    exact absurd (ht.size ▸ hmore) (Nat.lt_asymm hlt)
  · -- the content could not be cut
    rw [Op.after_of_ok hlaunch] at hcalm
    obtain ⟨hspared, ht, hplaced, hdisk, -⟩ := hlaunches.of_ok htame' hlaunch
    rw [hfaults] at hspared
    obtain ⟨hidle, hsame⟩ :=
      Container.resize_undone ht hplaced rfl rfl hfits hlt htame hspared hresize
    have hclosed : Calm u.disk ((Container.shut true).after u) :=
      (Container.shut_keeps (frame_calm u.disk) (detached_calm u.disk) true).after ⟨hidle, rfl⟩
    have hnot : ¬Container.CutShort n s := by
      rintro ⟨t', u', hok, hcut⟩
      obtain rfl : t = t' := by simpa [hlaunch] using hok
      simp [hresize] at hcut
    refine ⟨_, s.disk.contents file, hread, ?_, by simp [hnot], fun h => absurd h hnot⟩
    rw [hclosed.2]
    exact hsame.trans (by rw [hdisk]; exact hread)
  · -- the content was cut, and the container could not be closed
    obtain ⟨hspared, ht, hplaced, hdisk, -⟩ := hlaunches.of_ok htame' hlaunch
    have htame₁ := hspared.worn.tame htame'
    obtain ⟨hspared₁, g, d, hmatches, htrail, -, hu, -⟩ :=
      (Container.resize_does ht.toShows rfl hfits true (by simp [Waits.site, Mode.isAppend])).of_ok
        htame₁ hresize
    have hshuts : (Container.shut true).Does False u _ _ := Container.shut_does hu
    obtain ⟨-, v, d', hv, x, rfl⟩ := hshuts.of_error (hspared₁.worn.tame htame₁) hshut
    have hcut : Container.CutShort n s := ⟨t, u, hlaunch, hresize⟩
    have hshorter := Container.length_lt_of_cut ht hv hmatches.metadata
      (by rw [htrail, if_pos hlt]) (by rw [Bytes.length_resize]; exact hlt)
    have hcontents : t.disk.contents file = s.disk.contents file := by rw [hdisk]
    have hlen : (v.disk.contents g.file).length < (s.disk.contents file).length :=
      hcontents ▸ hshorter
    refine ⟨_, _, hread, ?_, ?_, fun _ => hlen⟩
    · have hpath : g.path = s.path := hmatches.path
      rw [← hpath]
      exact hv.read?
    · refine iff_of_false (fun heq => ?_) (not_not_intro hcut)
      rw [heq] at hlen
      exact Nat.lt_irrefl _ hlen

/-- A container with two bytes in it. -/
def Session.pair : Session :=
  ((Container.openIn .write).after (pristine "vault"
      (Processor.ofConfig ⟨[7]⟩ { suite := .aesGcm }) {} (Random.seeded 0))).afterCalls
    [.write [1, 2]]

theorem Session.reached_pair : Reached (· = []) pair :=
  (reached_pristine (by rfl) (by decide) rfl rfl (by decide)).afterCalls (by decide +kernel)

/-- A container is closed, and the third write from then on will fail. -/
def Session.jammed (s : Session) : Session :=
  { Container.close.after s with faults := [.onWrite 2] }

/-- One of the two bytes is cut off, and the other one cannot be written when the container is
closed. -/
theorem failed_closed_shrink_keeps_iff_pair :
    ∃ s' raw raw', Container.truncate 1 true Session.pair.jammed = .error .writeFailed s' ∧
      Session.pair.jammed.disk.read? Session.pair.jammed.path = some raw ∧
      s'.disk.read? Session.pair.jammed.path = some raw' ∧
      Container.CutShort 1 Session.pair.jammed ∧ raw' ≠ raw ∧ raw'.length < raw.length := by
  -- the session is a variable until all that is decided of it is, so that nothing else computes it
  have hjammed (s : Session) (hreached : Reached (· = []) s)
      (h : (s.isOpen && decide s.Bounded && decide (1 < s.size) &&
        decide (s.layout.seqnumOf? 1 = some 0) && (s.layout.seqnumOf? s.size).isSome) = true) :
      ∃ s' raw raw', Container.truncate 1 true s.jammed = .error .writeFailed s' ∧
        s.jammed.disk.read? s.jammed.path = some raw ∧ s'.disk.read? s.jammed.path = some raw' ∧
        Container.CutShort 1 s.jammed ∧ raw' ≠ raw ∧ raw'.length < raw.length := by
    simp only [Bool.and_eq_true, decide_eq_true_eq] at h
    obtain ⟨⟨⟨⟨hopen, hbounded⟩, hsize⟩, hnum⟩, hroom⟩ := h
    obtain ⟨-, hlives⟩ := hreached.lives (by simp [Fault.Tame])
    obtain ⟨hfaults, -⟩ := hreached.placed
    obtain ⟨g, c, d, hs, -⟩ := Lives.of_open hlives hopen
    obtain ⟨_, t, hclose, -, u, hu, hforgotten⟩ :=
      (Container.close_does hs).answers hfaults not_false
    have hwaits := hu.waits_forgotten hforgotten
    have hjams : s.jammed.Waits g.metadata g.file u.ciphertextSize u.eofSeqnum c := by
      rw [Session.jammed, Op.after_of_ok hclose]
      exact { hwaits with }
    rw [hs.layout] at hnum hroom
    rw [hs.size] at hsize hroom
    obtain ⟨v, w, s', hlaunch, hresize, hshut⟩ :=
      Container.truncate_struck hjams (hs.fits hbounded) (Option.isSome_iff_ne_none.mp hroom)
        Nat.one_pos hsize hnum rfl
    have hcut : Container.CutShort 1 s.jammed := ⟨v, w, hlaunch, hresize⟩
    have hblock : s.jammed.processor.config.streaming = false := hjams.kind.trans hjams.keeps.sealed
    have hsmall : ¬allocationLimit < Container.zerosAtOnce v 1 :=
      Nat.not_lt.mpr (Container.zerosAtOnce_le_limit (by decide) v)
    have hrun : Container.truncate 1 true s.jammed = .error .writeFailed s' := by
      simp [Container.truncate, Op.attempt, Op.ofExcept, bind, EStateM.bind, Container.isOpen,
        hjams.closed, hblock, hlaunch, hsmall, hresize, hshut]
    obtain ⟨raw, raw', hread, hread', hiff, hshorter⟩ :=
      failed_closed_shrink_keeps_iff hjams (hs.fits hbounded) hsize (Fault.tame_onWrite 2) rfl hrun
    exact ⟨s', raw, raw', hrun, hread, hread', hcut, fun hsame => hiff.mp hsame hcut,
      hshorter hcut⟩
  exact hjammed Session.pair Session.reached_pair (by decide +kernel)

/-! ## An open container

Closing an open container writes what is dirty. What it could not write when it fails is forgotten
with everything else in memory, so it is enough to know which chunks were dirty at the beginning: on
the way to the failure nothing gets dirty (`Session.Settles`), and the file agrees with the content
outside of those. -/

namespace Session

variable {s s' : Session} {g : Site} {c d : Bytes} {chunks : List Chunk}

/-- No chunk in memory has changes that none of these chunks has. -/
def Settles (chunks : List Chunk) (s : Session) : Prop :=
  ∀ x ∈ s.memory, x.dirty = true → Chunk.Unwritten chunks x.seqnum

theorem Settles.opening {o : Opening} (hcurrent : o.current = s.current) (h : s.Settles chunks) :
    Settles chunks { s with toOpening := o } := by
  intro x hx
  refine h x ?_
  simpa only [memory, hcurrent] using hx

theorem ambient_settles (chunks : List Chunk) : Ambient (Settles chunks) where
  faults _ h := h
  handle _ h := h
  noted _ h := h

/-- Whatever a container does but for writing into its chunks leaves no new changes in them. -/
theorem frame_settles (chunks : List Chunk) :
    Frame (Settles chunks) fun x => x.dirty = true → Chunk.Unwritten chunks x.seqnum where
  toAmbient := ambient_settles chunks
  processor _ _ h := h
  opening _ hcurrent _ h := h.opening hcurrent
  current {s x} hx h := by
    intro y hy
    rcases List.mem_append.mp hy with hy | hy
    · exact hx y (Option.mem_toList.mp hy)
    · exact h y (List.mem_append_right _ hy)
  pool {s pool} _ hpool h := by
    intro y hy
    rcases List.mem_append.mp hy with hy | hy
    · exact h y (List.mem_append_left _ hy)
    · exact hpool y hy
  sized h := h
  safe_current h hx := h _ (List.mem_append_left _ (Option.mem_toList.mpr hx))
  safe_pool h hx := h _ (List.mem_append_right _ hx)
  clean h := by simp [h]
  place _ h := h
  flushChunk _ _ :=
    (Container.flushChunk_keeps (fun _ _ _ h => h) (fun _ h => h) (fun _ h => h) id
      (ambient_settles chunks) id (fun _ h => h) _).mono fun _ hclean => by simp [hclean.1]
  writeSize :=
    Container.writeSize_keeps (fun _ _ _ h => h) (fun _ h => h) (fun _ h => h) id
      (ambient_settles chunks)

theorem settles_memory (s : Session) : s.Settles s.memory := fun x hx hdirty => ⟨x, hx, rfl, hdirty⟩

end Session

namespace Container

variable {s s' : Session} {g : Site} {c d : Bytes} {n : Nat} {e : Error} {full : Prop}

/-- **Closing that fails loses changes that were not written before,** and nothing else. -/
theorem shut_settles (h : s.Shows g c d) :
    (shut true).Does full s (fun _ _ => True)
      (fun s' => ∃ (t : Session) (d' : Bytes), t.Shows g c d' ∧ t.Settles s.memory ∧
        t.Forgotten s') := by
  have hkeeps : (flushAll (some false)).Keeps (Settles s.memory) (fun _ => True) s :=
    flushAll_keeps (frame_settles s.memory) (some false)
  have hflush : (flushAll (some false)).Does full s
      (fun _ t => ∃ d', t.Shows g c d' ∧ t.Settles s.memory)
      (fun t => ∃ d', t.Shows g c d' ∧ t.Settles s.memory) := by
    refine ((flushAll_does h (some false)).keeping hkeeps s.settles_memory).mono ?_ ?_
    · rintro - t ⟨⟨-, -, -, ht⟩, hsettles⟩
      exact ⟨c, ht.toShows, hsettles⟩
    · rintro t ⟨⟨-, d', ht⟩, hsettles⟩
      exact ⟨d', ht, hsettles⟩
  have hopen (t : Session) (ht : ∃ d', t.Shows g c d' ∧ t.Settles s.memory) : t.isOpen = true :=
    let ⟨_, ht, _⟩ := ht
    ht.isOpen
  refine (shutFlushed_does h.isOpen hflush hopen hopen fun _ => id).mono (fun _ _ _ => trivial) ?_
  rintro s' ⟨t, ⟨d', ht, hsettles⟩, hforgotten⟩
  exact ⟨t, d', ht, hsettles, hforgotten⟩

/-- A container that cannot be closed to be copied is not cut. -/
theorem truncate_of_shut_error (hopen : s.isOpen = true) (hwrite : s.mode.isWrite = true)
    (happ : s.mode.isAppend = false) (hlt : n < s.size) (hshut : shut true s = .error e s') :
    truncate n true s = .error e s' := by
  have hne : n ≠ s.size := Nat.ne_of_lt hlt
  have hge : ¬s.size < n := Nat.not_lt.mpr (Nat.le_of_lt hlt)
  simp [truncate, resize, shrinkWithBackup, takeBackup, bind, EStateM.bind, hopen, hwrite, happ,
    hne, hge, hshut]

end Container

/-- **A shrink that fails before its backup copy is taken closes the container.** If it cannot be
flushed and closed to be copied, that is what the call reports. The container is closed then and
knows nothing any more; and the file has of the content what it had, or has now, in all chunks but
those with changes that were only in memory. -/
theorem failed_backup_closes {s s' : Session} {n : Nat} {e : Error}
    (hreached : Reached Fault.Tame s) (hopen : s.isOpen = true) (hwrite : s.mode.isWrite = true)
    (happ : s.mode.isAppend = false) (hlt : n < s.size)
    (hshut : Container.shut true s = .error e s') :
    Container.truncate n true s = .error e s' ∧
      (∃ fault ∈ s.faults, e = fault.effect.error fault.call) ∧
      s'.isOpen = false ∧ s'.toOpening = {} ∧ s'.memory = [] ∧
      ∃ (c d raw : Bytes) (m : Metadata) (ciphertextSize last : Nat),
        c.length = s.size ∧ s.Means c ∧ m.master = s.processor.master ∧
        s'.disk.read? s.path = some raw ∧ m.Stores raw ciphertextSize last d ∧
        d.length ≤ c.length ∧
        ∀ i ≤ last, m.layout.part d i ≠ m.layout.part c i → Chunk.Unwritten s.memory i := by
  obtain ⟨htame, hlives⟩ := hreached.lives fun _ => id
  obtain ⟨g, c, d, hs, -⟩ := Lives.of_open hlives hopen
  have hshuts : (Container.shut true).Does False s _ _ := Container.shut_settles hs
  obtain ⟨hhalts, t, d', ht, hsettles, x, rfl⟩ := hshuts.of_error htame hshut
  have hstruck : ∃ fault ∈ s.faults, e = fault.effect.error fault.call := by
    rcases hhalts with ⟨⟨k, hk, he⟩, -⟩ | ⟨-, hfalse⟩
    · obtain ⟨fault, hfault, rfl⟩ := List.mem_map.mp hk
      exact ⟨fault, hfault, he⟩
    · exact hfalse.elim
  refine ⟨Container.truncate_of_shut_error hopen hwrite happ hlt hshut, hstruck, rfl, rfl, rfl,
    c, d', _, g.metadata, _, _, hs.size.symm, hs.means, ?master, ?read, ht.stores, ht.recalls.grown,
    ?parts⟩
  case master => rw [hs.processor, g.master]
  case read =>
    rw [hs.path]
    exact ht.read?
  case parts =>
    intro i hi hne
    -- a part in which file and content differ belongs to a chunk with changes
    refine Classical.byContradiction fun hnone => hne ?_
    refine (ht.recalls.clean i hi fun y hy hnum => ?_).symm
    cases hdirty : y.dirty with
    | false => rfl
    | true => exact absurd (hnum ▸ hsettles y hy hdirty) hnone

/-- The raw file of the container with one byte in it cannot be closed. -/
theorem failed_backup_closes_short :
    ∃ s', Container.truncate 0 true { Session.short with faults := [⟨.close, 0, .fail⟩] }
        = .error .writeFailed s' ∧ s'.isOpen = false := by
  have hcloses (s : Session) (hreached : Reached (· = []) s)
      (h : (s.isOpen && (s.mode.isWrite && (!s.mode.isAppend && decide (0 < s.size)))) = true)
      (hfails : (Container.shut true).succeeds { s with faults := [⟨.close, 0, .fail⟩] } = false) :
      ∃ s', Container.truncate 0 true { s with faults := [⟨.close, 0, .fail⟩] }
        = .error .writeFailed s' ∧ s'.isOpen = false := by
    simp only [Bool.and_eq_true, Bool.not_eq_true', decide_eq_true_eq] at h
    obtain ⟨hopen, hwrite, happ, hlt⟩ := h
    have htame (faults : List Fault) (hnone : faults = []) : Fault.Tame faults := by
      simp [hnone, Fault.Tame]
    have harmed : Reached Fault.Tame { s with faults := [⟨.close, 0, .fail⟩] } :=
      (hreached.mono htame).armed (by simp [Fault.Tame, Fault.kind])
    obtain ⟨e, hshut⟩ := Op.error_of_not_succeeds hfails
    obtain ⟨hrun, ⟨fault, hfault, rfl⟩, hclosed, -⟩ :=
      failed_backup_closes harmed hopen hwrite happ hlt hshut
    obtain rfl := List.mem_singleton.mp hfault
    exact ⟨_, hrun, hclosed⟩
  exact hcloses Session.short Session.reached_short (by decide +kernel) (by decide +kernel)

end Vault
