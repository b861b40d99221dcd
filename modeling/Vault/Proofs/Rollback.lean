import Vault.Proofs.Failures
import Vault.Proofs.Frames

/-!
# `Vault/Proofs/Rollback.lean` — a shrink that fails is taken back

Shrinking with a backup copy runs in three steps: the copy is taken, the content is cut, and if that
fails the copy is put back. **A fault that strikes while the content is cut is the last that is
heard of it:** one armed fault strikes once, so nothing stands in the way of putting the copy back,
and what the container then shows is read from the copy and from nothing else.
-/

set_option autoImplicit false

namespace Vault

namespace Fault

variable {fault : Fault} {before after : List Fault} {e : Error}

/-- A single fault that did not fire and then struck is gone, and the error is its own. -/
theorem Strikes.single (h : Strikes before e after) (hspared : Spares [fault] before) :
    after = [] ∧ e = fault.effect.error fault.call := by
  obtain ⟨⟨k, hk, he⟩, -, hlt⟩ := h
  have hlen : before.length = 1 := by
    simpa using congrArg List.length hspared
  rw [hspared, List.map_singleton, List.mem_singleton] at hk
  rw [hk] at he
  exact ⟨List.eq_nil_of_length_eq_zero (by omega), he⟩

end Fault

namespace Container

open Session

variable {s t u s' : Session} {n : Nat} {backup : Bytes} {e : Error}

/-- Truncating an open container to less, with a copy that is taken, a shrink that fails, and a copy
that is put back. -/
theorem truncate_rolledBack (hopen : s.isOpen = true) (hwrite : s.mode.isWrite = true)
    (happ : s.mode.isAppend = false) (hlt : n < s.size) (htake : takeBackup s = .ok backup t)
    (hshrink : shrink n (min s.cursor n) true t = .error e u)
    (hback : rollback backup s.cursor s.seekCursor u = .ok () s') :
    truncate n true s = .error e s' := by
  have hne : n ≠ s.size := Nat.ne_of_lt hlt
  have hge : ¬s.size < n := Nat.not_lt.mpr (Nat.le_of_lt hlt)
  have hrun : shrinkWithBackup n s = .error e s' := by
    simp [shrinkWithBackup, Op.attempt, bind, EStateM.bind, htake, hshrink, hback]
  simp [truncate, resize, bind, EStateM.bind, hopen, hwrite, happ, hne, hge, hrun]

end Container

open Session

/-- **A shrink that fails behind its backup copy leaves everything as it was.** A single fault that
lets the copy be taken and makes the shrink fail is what the call reports. The raw file is the copy,
which has everything written; the container is open in the mode, at the position and with the size
that it had, and tells the content that it told. -/
theorem failed_shrink_rolls_back {s t u : Session} (hreached : Reached (· = []) s)
    (hopen : s.isOpen = true) (hbounded : s.Bounded) (hwrite : s.mode.isWrite = true)
    (happ : s.mode.isAppend = false) {n : Nat} (hlt : n < s.size) {fault : Fault}
    (htame : Fault.Tame [fault]) {backup : Bytes} {e : Error}
    (htake : Container.takeBackup { s with faults := [fault] } = .ok backup t)
    (hshrink : Container.shrink n (min s.cursor n) true t = .error e u) :
    ∃ s', Container.truncate n true { s with faults := [fault] } = .error e s' ∧
      e = fault.effect.error fault.call ∧
      t.disk.read? s.path = some backup ∧ s'.disk.read? s.path = some backup ∧
      s'.isOpen = true ∧ s'.mode = s.mode ∧ s'.pos = s.pos ∧ s'.size = s.size ∧
      ∃ c : Bytes, c.length = s.size ∧ s.Tells c ∧ s'.Tells c ∧
        ∃ (m : Metadata) (ciphertextSize last : Nat),
          m.master = s.processor.master ∧ m.Keeps backup ciphertextSize last c := by
  have hnone (faults : List Fault) (h : faults = []) : Fault.Tame faults := by
    simp [h, Fault.Tame]
  obtain ⟨hfaults, hplaced⟩ := hreached.placed
  obtain ⟨g, c, d, hs, -⟩ := Lives.of_open (hreached.lives hnone).2 hopen
  have hplaced : s.Placed := by
    rcases hplaced with hclosed | hplaced
    · simp [Container.isOpen, hclosed] at hopen
    · exact hplaced
  have hfits : g.metadata.Fits c.length := hs.fits hbounded
  have hwrite' : g.mode.isWrite = true := hs.mode ▸ hwrite
  have happ' : g.mode.isAppend = false := hs.mode ▸ happ
  have hsize : n < c.length := hs.size ▸ hlt
  -- the copy is taken, and the fault is still armed
  obtain ⟨hspared, hroom, g₁, hmatches, -, -, ht, hbackup⟩ :=
    (Container.takeBackup_does (hs.rearm [fault]) hwrite' happ' hfits).of_ok htame htake
  have hmode₁ : g₁.mode = g.mode := hmatches.mode
  -- the shrink fails because it strikes
  have hshrinks : (Container.shrink n (min s.cursor n) true).Does False t _ _ :=
    Container.shrink_does ht.toShows (hmode₁ ▸ hwrite') (hmode₁ ▸ happ') hsize
      (Nat.min_le_right s.cursor n) true
  obtain ⟨hhalts, hstays⟩ := hshrinks.of_error (hspared.worn.tame htame) hshrink
  obtain ⟨hquiet, herror⟩ : u.faults = [] ∧ e = fault.effect.error fault.call := by
    rcases hhalts with hstrikes | ⟨-, hfalse⟩
    · exact hstrikes.single hspared
    · exact hfalse.elim
  -- so putting the copy back cannot fail
  have hkeeps := ht.keeps
  rw [← hbackup] at hkeeps
  obtain ⟨_, s', hback, hquiet', g₂, hmatches', hseek, hs', -, -, hcontents⟩ :=
    (Container.rollback_does hstays (hmode₁ ▸ hwrite') (hmode₁ ▸ happ') hkeeps
      (hmatches.metadata ▸ hfits) s.cursor s.seekCursor).answers hquiet (by
        rintro (hfull | hbehind)
        · exact hroom (hmatches.metadata ▸ hfull)
        · unfold Placed at hplaced
          rw [hs.size] at hplaced
          omega)
  have hpath₁ : g₁.path = s.path := hmatches.path.trans hs.path.symm
  have hpath₂ : g₂.path = s.path := hmatches'.path.trans hpath₁
  have hrun : Container.truncate n true { s with faults := [fault] } = .error e s' :=
    Container.truncate_rolledBack hopen hwrite happ hlt htake hshrink hback
  refine ⟨s', hrun, herror, ?taken, ?restored, hs'.isOpen, ?mode, ?pos, ?size, c, hs.size.symm,
    hs.tells hfaults, hs'.toShows.tells hquiet', g₁.metadata, _, _, ?master, hkeeps⟩
  case taken =>
    rw [hbackup, ← hpath₁]
    exact ht.read?
  case restored =>
    rw [← hcontents, ← hpath₂]
    exact hs'.read?
  case mode => rw [hs'.mode, hmatches'.mode, hmode₁, hs.mode]
  case pos => exact hs'.seekCursor.trans hseek
  case size => rw [hs'.size, hs.size]
  case master => rw [hmatches.metadata, hs.processor, g.master]

/-! ## Where a fault strikes

The theorem above has two runs as hypotheses, one that takes the copy and one that fails to shrink.
That they exist is shown for a fault on a truncation of the raw file: taking the copy of a container
with nothing to write cuts no file, so the fault is still armed when the shrink comes to its cut. -/

namespace Session

/-- A container that has nothing to write writes nothing, and meets no fault that waits for that. -/
theorem frame_idle {P : Disk → Random → List Fault → Prop}
    (hP : ∀ {disk random faults} {call : RawCall}, call.alters = false → P disk random faults →
      P disk random (Fault.meet call faults).2) :
    Frame (fun s => s.Idle ∧ P s.disk s.random s.faults) fun x => x.dirty = false where
  faults hcall h := ⟨⟨h.1.clean, h.1.sized⟩, hP hcall h.2⟩
  handle _ h := ⟨⟨h.1.clean, h.1.sized⟩, h.2⟩
  noted _ h := ⟨⟨h.1.clean, h.1.sized⟩, h.2⟩
  processor _ _ h := ⟨⟨h.1.clean, h.1.sized⟩, h.2⟩
  opening {s o} _ hcurrent hsized h := by
    refine ⟨⟨fun x hx => h.1.clean x ?_, hsized.trans h.1.sized⟩, h.2⟩
    simpa only [memory, hcurrent] using hx
  current {s x} hx h := by
    refine ⟨⟨fun y hy => ?_, h.1.sized⟩, h.2⟩
    rcases List.mem_append.mp hy with hy | hy
    · exact hx y (Option.mem_toList.mp hy)
    · exact h.1.clean y (List.mem_append_right _ hy)
  pool {s pool} _ hpool h := by
    refine ⟨⟨fun y hy => ?_, h.1.sized⟩, h.2⟩
    rcases List.mem_append.mp hy with hy | hy
    · exact h.1.clean y (List.mem_append_left _ hy)
    · exact hpool y hy
  sized h := ⟨⟨h.1.clean, rfl⟩, h.2⟩
  safe_current h hx := h.1.clean _ (List.mem_append_left _ (Option.mem_toList.mpr hx))
  safe_pool h hx := h.1.clean _ (List.mem_append_right _ hx)
  clean h := h
  place _ h := h
  flushChunk hclean hdirty := absurd hdirty (by simp [hclean])
  writeSize := by
    unfold Container.writeSize
    refine Op.Keeps.get_bind fun h => ?_
    simp only [h.1.sized, Bool.false_eq_true, if_false]
    exact Op.Keeps.pure trivial

/-- Neither does opening or closing it. -/
theorem detached_idle {P : Disk → Random → List Fault → Prop} :
    Detached fun s => s.Idle ∧ P s.disk s.random s.faults where
  closed h := ⟨⟨h.1.clean, h.1.sized⟩, h.2⟩
  mode _ h := ⟨⟨h.1.clean, h.1.sized⟩, h.2⟩

end Session

/-- A fault that waits for another call stays armed. -/
theorem Fault.meet_single {fault : Fault} {call : RawCall} (hne : fault.call ≠ call) :
    meet call [fault] = (none, [fault]) := by
  simp [meet, hne]

theorem RawCall.ne_of_alters {call other : RawCall} (h : call.alters = true)
    (h' : other.alters = false) : call ≠ other := by
  rintro rfl
  simp [h] at h'

namespace Container

variable {s t u : Session} {g : Site} {c d : Bytes} {fault : Fault}

theorem frame_armed (halters : fault.call.alters = true) :
    Frame (fun s => s.Idle ∧ s.faults = [fault]) fun x => x.dirty = false :=
  frame_idle (P := fun _ _ faults => faults = [fault]) fun hcall h => by
    rw [h, Fault.meet_single (RawCall.ne_of_alters halters hcall)]

theorem detached_armed : Detached fun s => s.Idle ∧ s.faults = [fault] :=
  detached_idle (P := fun _ _ faults => faults = [fault])

/-- Copying the raw file and opening it again keeps every frame. -/
theorem reopen_keeps {I : Session → Prop} {Safe : Chunk → Prop} (hI : Frame I Safe)
    (hout : Detached I) (before : Session) :
    Op.Keeps (do
      let copied := (← get).disk.read? before.path
      launch .writeExisting false
      modify fun s => { s with mode := before.mode, seekCursor := before.seekCursor }
      match copied with
      | some data => return data
      | none => throw (.file .notFound)) I (fun _ => True) s := by
  refine Op.Keeps.get_bind fun _ => Op.Keeps.bind (launch_keeps hI hout rfl false) fun _ _ _ => ?_
  refine Op.Keeps.modify_bind (hI.reopening hout rfl rfl) ?_
  split
  · exact Op.Keeps.pure trivial
  · exact Op.Keeps.throw

theorem takeBackup_keeps {I : Session → Prop} {Safe : Chunk → Prop} (hI : Frame I Safe)
    (hout : Detached I) : takeBackup.Keeps I (fun _ => True) s :=
  Op.Keeps.get_bind fun _ => Op.Keeps.bind (shut_keeps hI hout true) fun _ _ _ =>
    reopen_keeps hI hout s

/-- A copy can be taken of a container that can be closed, however writing into it would fail. -/
theorem takeBackup_armed (h : s.Shows g c d) (hwrite : g.mode.isWrite = true)
    (happ : g.mode.isAppend = false) (hfits : g.metadata.Fits c.length)
    (hroom : g.metadata.layout.seqnumOf? c.length ≠ none) (hfaults : s.faults = [fault])
    (htame : Fault.Tame [fault]) (halters : fault.call.alters = true)
    (hshut : shut true s = .ok () u) (hu : u.faults = [fault]) :
    ∃ backup t, takeBackup s = .ok backup t ∧ t.Idle ∧ t.faults = [fault] := by
  have htame' : Fault.Tame s.faults := hfaults ▸ htame
  have hshuts : (shut true).Does False s _ _ := shut_does h
  obtain ⟨-, v, -, hforgotten⟩ := hshuts.of_ok htame' hshut
  have hidle : u.Idle := by
    obtain ⟨x, rfl⟩ := hforgotten
    exact ⟨by simp [memory, shutDown, Pool.clear], rfl⟩
  -- what comes after closing meets no fault that waits for writing
  have hkeeps : (takeBackup.after s).Idle ∧ (takeBackup.after s).faults = [fault] := by
    unfold takeBackup
    rw [Op.after_bind Op.get_run, Op.after_bind hshut]
    exact (reopen_keeps (frame_armed halters) detached_armed s).after ⟨hidle, hu⟩
  obtain ⟨backup, t, htake, -⟩ :=
    (takeBackup_does h hwrite happ hfits).answers_of_unstruck htame' hroom
      (Nat.le_of_eq (by rw [hkeeps.2, hfaults]))
  exact ⟨backup, t, htake, by rwa [Op.after_of_ok htake] at hkeeps⟩

/-- The fault strikes when the raw file is cut. -/
theorem cut_armed (hfaults : s.faults = [fault]) (hcall : fault.call = .truncate)
    (hafter : fault.after = 0) (htame : Fault.Tame [fault]) (size : Nat) (durable : Bool) :
    ∃ e u, Raw.truncate size durable s = .error e u := by
  obtain ⟨call, after, effect⟩ := fault
  obtain rfl : call = .truncate := hcall
  obtain rfl : after = 0 := hafter
  have hne : effect ≠ .short := htame _ List.mem_cons_self
  cases effect with
  | short => exact absurd rfl hne
  | _ =>
    simp [Raw.truncate, Raw.note, Raw.meetFault, Fault.meet, bind, EStateM.bind, Functor.discard,
      Functor.mapConst, EStateM.map, hfaults]

/-- Writing the sizes meets no fault that waits for another call. -/
theorem writeSize_armed (hcall : fault.call = .truncate) :
    writeSize.Keeps (fun s => s.faults = [fault]) (fun _ => True) s := by
  have hmeets {call : RawCall} (hne : .truncate ≠ call) {s : Session} (h : s.faults = [fault]) :
      (Fault.meet call s.faults).2 = [fault] := by
    rw [h, Fault.meet_single (hcall ▸ hne)]
  exact writeSize_keeps (fun _ _ _ h => h) (fun _ h => h) (fun _ h => h) (hmeets (by decide))
    { faults := fun hcalm => hmeets (RawCall.ne_of_alters rfl hcalm)
      handle := fun _ h => h
      noted := fun _ h => h }

/-- What cannot be cut cannot be made empty. -/
theorem shrink_armed (hidle : t.Idle) (hfaults : t.faults = [fault])
    (hcall : fault.call = .truncate) (hafter : fault.after = 0) (htame : Fault.Tame [fault])
    (newPos : Nat) (durable : Bool) :
    ∃ e u, shrink 0 newPos durable t = .error e u := by
  have halters : fault.call.alters = true := by rw [hcall]; rfl
  have hflush := flushAll_keeps (frame_armed halters) none ⟨hidle, hfaults⟩
  unfold shrink
  simp only [bind, EStateM.bind]
  cases hflushed : flushAll none t with
  | error e u => exact ⟨e, u, rfl⟩
  | ok _ u =>
    rw [hflushed] at hflush
    have hu : u.faults = [fault] := hflush.2.2
    simp only [if_true, shrinkToNothing, Op.modify_run, bind, EStateM.bind]
    have hsizes := writeSize_armed hcall (s := { u with
      pool := u.pool.clear, current := none, size := 0, ciphertextSize := 0, eofSeqnum := 0
      sizeDirty := true }) hu
    cases hsized : writeSize { u with
      pool := u.pool.clear, current := none, size := 0, ciphertextSize := 0, eofSeqnum := 0
      sizeDirty := true } with
    | error e v => exact ⟨e, v, rfl⟩
    | ok _ v =>
      rw [hsized] at hsizes
      obtain ⟨e, w, hcut⟩ := cut_armed hsizes.2 hcall hafter htame v.layout.dataOffset durable
      exact ⟨e, w, by simp [hcut]⟩

end Container

/-! ## One byte -/

/-- A container with one byte in it. -/
def Session.short : Session :=
  ((Container.openIn .write).after (pristine "vault"
      (Processor.ofConfig ⟨[7]⟩ { suite := .aesGcm }) {} (Random.seeded 0))).afterCalls
    [.write [1]]

theorem Session.reached_short : Reached (· = []) short :=
  (reached_pristine (by rfl) (by decide) rfl rfl (by decide)).afterCalls (by decide +kernel)

/-- The file cannot be cut. -/
theorem failed_shrink_rolls_back_short :
    ∃ s', Container.truncate 0 true { Session.short with faults := [⟨.truncate, 0, .fail⟩] }
        = .error .writeFailed s' ∧ s'.isOpen = true ∧ s'.size = Session.short.size := by
  have htame : Fault.Tame [⟨.truncate, 0, .fail⟩] := by simp [Fault.Tame, Fault.kind]
  have hrolls (s : Session) (hreached : Reached (· = []) s) (hopen : s.isOpen = true)
      (hbounded : s.Bounded) (hwrite : s.mode.isWrite = true) (happ : s.mode.isAppend = false)
      (hlt : 0 < s.size) (hroom : (s.layout.seqnumOf? s.size).isSome = true)
      (hshut : (Container.shut true).succeeds { s with faults := [⟨.truncate, 0, .fail⟩] } = true)
      (hspared : ((Container.shut true).after
        { s with faults := [⟨.truncate, 0, .fail⟩] }).faults = [⟨.truncate, 0, .fail⟩]) :
      ∃ s', Container.truncate 0 true { s with faults := [⟨.truncate, 0, .fail⟩] }
        = .error .writeFailed s' ∧ s'.isOpen = true ∧ s'.size = s.size := by
    obtain ⟨-, hlives⟩ := hreached.lives (by simp [Fault.Tame])
    obtain ⟨g, c, d, hs, -⟩ := Lives.of_open hlives hopen
    have hend : g.metadata.layout.seqnumOf? c.length ≠ none := by
      rw [← hs.layout, ← hs.size]
      exact Option.isSome_iff_ne_none.mp hroom
    obtain ⟨⟨⟩, hrun⟩ := Op.ok_of_succeeds hshut
    obtain ⟨backup, t, htake, hidle, hfaults⟩ :=
      Container.takeBackup_armed (hs.rearm [⟨.truncate, 0, .fail⟩]) (hs.mode ▸ hwrite)
        (hs.mode ▸ happ) (hs.fits hbounded) hend rfl htame rfl hrun hspared
    obtain ⟨e, u, hshrink⟩ :=
      Container.shrink_armed hidle hfaults rfl rfl htame (min s.cursor 0) true
    obtain ⟨s', hrun, rfl, -, -, hopen, -, -, hsize, -⟩ :=
      failed_shrink_rolls_back hreached hopen hbounded hwrite happ hlt htame htake hshrink
    exact ⟨s', hrun, hopen, hsize⟩
  exact hrolls Session.short Session.reached_short (by decide +kernel) (by decide +kernel)
    (by decide +kernel) (by decide +kernel) (by decide +kernel) (by decide +kernel)
    (by decide +kernel) (by decide +kernel)

end Vault
