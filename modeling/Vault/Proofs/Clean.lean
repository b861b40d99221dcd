import Vault.Proofs.Rollback

/-!
# `Vault/Proofs/Clean.lean` — a clean container never rewrites its file

A chunk that is packed again is another string of bytes, because it gets a nonce of its own. So a
container must not write what it has only looked at. **As long as nothing was changed, whatever is
asked of a container leaves its raw file as it is and draws no random bytes**, faults or not, and
so does closing it. What makes a container clean is opening it for reading, or flushing it.

Two frames carry this: that there is nothing to write, and that the container is open in its mode.
Neither of them has to know what a call is for, so all calls that change no content are looked at
once (`Call.run_keeps`).

That there is something to write is a flag: a chunk is dirty, or the sizes are. So the one frame
says that no flag is set (`Session.Idle`); under it the step that writes is never reached, and
everything that does not look at the flags keeps it for its own reasons.
-/

set_option autoImplicit false

namespace Vault

/-- Is the call there to change the content? -/
def Call.changes : Call → Bool
  | .write _ | .truncate _ _ => true
  | _ => false

/-- A fact that says nothing of how a container is configured. -/
structure Tunable (I : Session → Prop) : Prop where
  config : ∀ {s} config, I s → I { s with config }
  capacity : ∀ {s : Session} capacity, I s → I { s with pool.capacity := capacity }

namespace Session

variable {s t u : Session}

/-- Nothing was written and no randomness drawn, and there is nothing to write. -/
def Untouched (s t : Session) : Prop := t.Idle ∧ t.disk = s.disk ∧ t.random = s.random

theorem Idle.untouched (h : s.Idle) : s.Untouched s := ⟨h, rfl, rfl⟩

theorem Untouched.trans (h : s.Untouched t) (h' : t.Untouched u) : s.Untouched u :=
  ⟨h'.1, h'.2.1.trans h.2.1, h'.2.2.trans h.2.2⟩

theorem frame_untouched (s : Session) : Frame s.Untouched fun x => x.dirty = false :=
  frame_idle (P := fun disk random _ => disk = s.disk ∧ random = s.random) fun _ h => h

theorem tunable_untouched (s : Session) : Tunable s.Untouched where
  config _ h := ⟨⟨h.1.clean, h.1.sized⟩, h.2⟩
  capacity _ h := ⟨⟨h.1.clean, h.1.sized⟩, h.2⟩

theorem detached_untouched (s : Session) : Detached s.Untouched :=
  detached_idle (P := fun disk random _ => disk = s.disk ∧ random = s.random)

/-- The container is open in a mode. -/
def OpenIn (mode : Mode) (s : Session) : Prop := s.isOpen = true ∧ s.mode = mode

theorem ambient_openIn (mode : Mode) : Ambient (OpenIn mode) where
  faults _ h := h
  handle _ h := ⟨rfl, h.2⟩
  noted _ h := h

/-- An open container stays open in its mode, whatever it writes. -/
theorem frame_openIn (mode : Mode) : Frame (OpenIn mode) fun _ => True where
  toAmbient := ambient_openIn mode
  processor _ _ h := h
  opening hmode _ _ h := ⟨h.1, hmode.trans h.2⟩
  current _ h := h
  pool _ _ h := h
  sized h := h
  safe_current _ _ := trivial
  safe_pool _ _ := trivial
  clean _ := trivial
  place _ _ := trivial
  flushChunk _ _ :=
    (Container.flushChunk_keeps (fun _ _ _ h => h) (fun _ h => h) (fun _ h => h) id
      (ambient_openIn mode) id (fun _ h => h) _).mono fun _ _ => trivial
  writeSize :=
    Container.writeSize_keeps (fun _ _ _ h => h) (fun _ h => h) (fun _ h => h) id
      (ambient_openIn mode)

theorem tunable_openIn (mode : Mode) : Tunable (OpenIn mode) where
  config _ h := h
  capacity _ h := h

end Session

/-! ## Calls that do not change the content

A call walks through chunks, loads some and puts others away. For each function on the way it is
shown that it keeps any frame, from the functions that it calls; none of the proofs unfolds more
than one function. -/

namespace Container

variable {I : Session → Prop} {Safe : Chunk → Prop} {s s' : Session}

theorem seek_keeps (hI : Frame I Safe) (pos : Nat) : (seek pos).Keeps I (fun _ => True) s := by
  unfold seek
  refine Op.Keeps.bind ensureOpen_keeps fun _ _ _ => Op.Keeps.get_bind fun _ => ?_
  refine Op.Keeps.unless fun _ => Op.Keeps.set_bind (hI.opening rfl rfl rfl) ?_
  exact Op.Keeps.ite (fun _ => moveTo_keeps hI pos 0) fun _ => Op.Keeps.pure trivial

/-- Induction on the turns: reading moves a place inside a chunk, or moves to another chunk. -/
theorem readChunks_keeps (hI : Frame I Safe) (turns want : Nat) :
    (readChunks turns want).Keeps I (fun _ => True) s := by
  induction turns generalizing s want with
  | zero => exact Op.Keeps.pure trivial
  | succ turns ih =>
    have hhere {t : Session} : Op.Keeps (do
        let chunk ← active
        if chunk.remaining = 0 then return []
        else
          let s ← get
          let read := chunk.read (min want (s.size - s.cursor))
          set { s with current := some read.2, cursor := s.cursor + read.1.length }
          return read.1 ++ (← readChunks turns (want - read.1.length))) I (fun _ => True) t := by
      refine Op.Keeps.bind (active_keeps hI) fun x t hx => ?_
      refine Op.Keeps.ite (fun _ => Op.Keeps.pure trivial) fun _ => Op.Keeps.get_bind fun _ => ?_
      refine Op.Keeps.set_bind (fun ht => ?_)
        (Op.Keeps.bind (ih _) fun _ _ _ => Op.Keeps.pure trivial)
      exact hI.opening (s := { t with current := some (x.read _).2 }) rfl rfl rfl
        (hI.current (by rintro _ ⟨⟩; exact hI.place _ hx) ht)
    unfold readChunks
    refine Op.Keeps.get_bind fun _ => Op.Keeps.ite (fun _ => Op.Keeps.pure trivial) fun _ => ?_
    refine Op.Keeps.bind (active_keeps hI) fun x _ _ => Op.Keeps.ite (fun _ => ?_) fun _ => hhere
    exact Op.Keeps.bind (moveTo_keeps hI _ 0) fun _ _ _ => hhere

theorem read_keeps (hI : Frame I Safe) (n : Nat) : (read n).Keeps I (fun _ => True) s := by
  have hread {t : Session} : Op.Keeps (do
      let data ← readChunks n n
      modify fun s => { s with seekCursor := s.cursor }
      return data) I (fun _ => True) t :=
    Op.Keeps.bind (readChunks_keeps hI n n) fun _ _ _ =>
      Op.Keeps.modify_bind (hI.opening rfl rfl rfl) (Op.Keeps.pure trivial)
  unfold read syncCursor
  refine Op.Keeps.ite (fun _ => Op.Keeps.pure trivial) fun _ => ?_
  refine Op.Keeps.bind ensureOpen_keeps fun _ s _ => Op.Keeps.get_bind fun _ => ?_
  refine Op.Keeps.unless fun _ => Op.Keeps.ite (fun _ => Op.Keeps.pure trivial) fun _ => ?_
  refine Op.Keeps.bind (P := fun _ => True) (Op.Keeps.get_bind fun _ => ?_) fun _ _ _ => hread
  exact Op.Keeps.ite (fun _ => moveTo_keeps hI _ 0) fun _ => Op.Keeps.pure trivial

theorem invalidate_keeps (hI : Frame I Safe) : invalidate.Keeps I (fun _ => True) s := by
  have hclear {t : Session} (ht : I t) : I { t with pool := t.pool.clear } :=
    hI.pool rfl (by simp [Pool.clear]) ht
  have hreload (mode : Mode) {t : Session} : Op.Keeps (do
      modify fun s => { s with pool := s.pool.clear }
      if !mode.isAppend then
        modify fun s => { s with current := none }
        moveTo (← get).cursor 0) I (fun _ => True) t := by
    refine Op.Keeps.modify_bind hclear (Op.Keeps.ite (fun _ => ?_) fun _ => Op.Keeps.pure trivial)
    refine Op.Keeps.modify_bind (hI.current (by simp)) (Op.Keeps.get_bind fun _ => ?_)
    exact moveTo_keeps hI _ 0
  unfold invalidate
  refine Op.Keeps.bind ensureOpen_keeps fun _ s _ => Op.Keeps.get_bind fun _ => ?_
  refine Op.Keeps.ite (fun _ => ?_) fun _ => ?_
  · exact Op.Keeps.bind (flushAll_keeps hI none) fun _ _ _ => hreload _
  · exact hreload _

theorem setMaxCached_keeps (hI : Frame I Safe) (htune : Tunable I) (count : Nat) :
    (setMaxCached count).Keeps I (fun _ => True) s := by
  unfold setMaxCached
  refine Op.Keeps.get_bind fun hs => ?_
  have hentries := s.pool.entries_setCapacity (max count 1)
  generalize s.pool.setCapacity (max count 1) = shrunk at hentries ⊢
  obtain ⟨evicted, pool⟩ := shrunk
  have hsafe (x : Chunk) (hx : x ∈ evicted ++ pool.entries) : Safe x :=
    hI.safe_pool hs (hentries ▸ hx)
  have hset (config : ContainerConfig) (hs : I s) : I { s with config, pool } :=
    hI.pool (s := { s with config, pool.capacity := pool.capacity }) rfl
      (fun x hx => hsafe x (List.mem_append_right _ hx))
      (htune.capacity pool.capacity (htune.config config hs))
  refine Op.Keeps.set_bind (hset _) ?_
  exact flushEvicted_keeps hI fun x hx => hsafe x (List.mem_append_left _ hx)

theorem setCacheEnabled_keeps (hI : Frame I Safe) (htune : Tunable I) (enabled : Bool) :
    (setCacheEnabled enabled).Keeps I (fun _ => True) s := by
  unfold setCacheEnabled
  have hdrained (useCache : Bool) {t : Session} (ht : I t) :
      I { t with useCache, pool := { t.pool with entries := [] } } :=
    hI.opening (s := { t with pool := { t.pool with entries := [] } }) rfl rfl rfl
      (hI.pool rfl (by simp) ht)
  refine Op.Keeps.modify_bind (htune.config _) (Op.Keeps.get_bind fun hs => ?_)
  refine Op.Keeps.ite (fun _ => ?_) fun _ => Op.Keeps.pure trivial
  refine Op.Keeps.ite (fun _ => Op.Keeps.set (hI.opening rfl rfl rfl) trivial) fun _ => ?_
  refine Op.Keeps.set_bind (hdrained _) (flushEvicted_keeps hI fun x hx => ?_)
  exact hI.safe_pool hs hx

/-- Both ways of making the file lasting. -/
theorem settled_keeps (hI : Frame I Safe) {x : Op Unit}
    (hx : ∀ {t : Session}, x.Keeps I (fun _ => True) t) :
    Op.Keeps (do ensureOpen; flushAll none; x) I (fun _ => True) s :=
  Op.Keeps.bind ensureOpen_keeps fun _ _ _ =>
    Op.Keeps.bind (flushAll_keeps hI none) fun _ _ _ => hx

theorem usedSize_keeps (hI : Frame I Safe) (hopen : s.isOpen = true) :
    usedSize.Keeps I (fun _ => True) s := by
  unfold usedSize
  refine Op.Keeps.get_bind fun _ => ?_
  rw [if_pos hopen]
  exact Op.Keeps.bind (flushLast_keeps hI) fun _ _ _ => Op.Keeps.get_bind fun _ =>
    Op.Keeps.pure trivial

theorem contentSize_keeps (hopen : s.isOpen = true) :
    contentSize.Keeps I (fun _ => True) s := by
  unfold contentSize
  refine Op.Keeps.get_bind fun _ => ?_
  rw [if_pos hopen]
  exact Op.Keeps.get_bind fun _ => Op.Keeps.pure trivial

end Container

namespace Call

variable {I : Session → Prop} {Safe : Chunk → Prop} {s t : Session}

/-- **A call that changes no content keeps every frame of an open container** that is not about its
configuration. -/
theorem run_keeps (hI : Frame I Safe) (htune : Tunable I) (hopen : s.isOpen = true) {call : Call}
    (hcall : call.changes = false) : call.run.Keeps I (fun _ => True) s := by
  have hdone {α : Type} {x : Op α} {f : α → Answer} (hx : x.Keeps I (fun _ => True) s) :
      Op.Keeps (do return f (← x)) I (fun _ => True) s :=
    Op.Keeps.bind hx fun _ _ _ => Op.Keeps.pure trivial
  cases call with
  | write _ => simp [changes] at hcall
  | truncate _ _ => simp [changes] at hcall
  | seek pos => exact hdone (Container.seek_keeps hI pos)
  | read n => exact hdone (Container.read_keeps hI n)
  | contentSize => exact hdone (Container.contentSize_keeps hopen)
  | position => exact Op.Keeps.get_bind fun _ => Op.Keeps.pure trivial
  | flush deep => exact hdone (Container.flushAll_keeps hI (some deep))
  | sync => exact hdone (Container.settled_keeps hI (Raw.sync_keeps hI.toAmbient))
  | fsync => exact hdone (Container.settled_keeps hI (Raw.fsync_keeps hI.toAmbient))
  | usedSize => exact hdone (Container.usedSize_keeps hI hopen).discard
  | invalidate => exact hdone (Container.invalidate_keeps hI)
  | setMaxCached count => exact hdone (Container.setMaxCached_keeps hI htune count)
  | setCacheEnabled enabled => exact hdone (Container.setCacheEnabled_keeps hI htune enabled)
  | setBlock size => exact Op.Keeps.modify_bind (htune.config _) (Op.Keeps.pure trivial)

/-- An open container that may only be read refuses to be changed, and nothing happens. Writing
nothing is not refused. -/
theorem run_refused (hopen : s.isOpen = true) (hmode : s.mode.isWrite = false) {call : Call}
    (hcall : call.changes = true) :
    call.run s = .error .writeFailed s ∨ call = .write [] ∧ call.run s = .ok (.number 0) s := by
  cases call with
  | write data =>
    by_cases hdata : data = []
    · subst hdata
      exact .inr ⟨rfl, rfl⟩
    · left
      simp [run, Container.write, Container.ensureOpen, hdata, hopen, hmode, bind, EStateM.bind]
  | truncate newSize backup =>
    left
    simp [run, Container.truncate, hopen, hmode, bind, EStateM.bind]
  | _ => simp [changes] at hcall

/-- One call: a clean container stays clean, open and in its mode. -/
theorem after_untouched (hopen : s.isOpen = true) (hidle : s.Idle) {call : Call}
    (hcall : s.mode.isWrite = true → call.changes = false) :
    s.Untouched (call.run.after s) ∧ (call.run.after s).OpenIn s.mode := by
  cases hchanges : call.changes with
  | false =>
    -- two frames of the same run: what it leaves of the file, and that the container stays open
    have huntouched := run_keeps (Session.frame_untouched s) (Session.tunable_untouched s) hopen
      hchanges
    have hopenIn := run_keeps (Session.frame_openIn s.mode) (Session.tunable_openIn s.mode) hopen
      hchanges
    exact ⟨huntouched.after hidle.untouched, hopenIn.after ⟨hopen, rfl⟩⟩
  | true =>
    have hmode : s.mode.isWrite = false := by
      refine Bool.eq_false_iff.mpr fun hwrite => ?_
      rw [hcall hwrite] at hchanges
      contradiction
    have hafter : call.run.after s = s := by
      rcases run_refused hopen hmode hchanges with hrun | ⟨-, hrun⟩
      · exact Op.after_of_error hrun
      · exact Op.after_of_ok hrun
    rw [hafter]
    exact ⟨hidle.untouched, hopen, rfl⟩

end Call

/-- Any number of calls. The induction carries that the container is clean and open in the mode it
was in, so that what is refused stays refused. -/
theorem Session.Idle.afterCalls {s : Session} (hidle : s.Idle) (hopen : s.isOpen = true)
    {calls : List Call} (hcalls : s.mode.isWrite = true → ∀ call ∈ calls, call.changes = false) :
    s.Untouched (s.afterCalls calls) ∧ (s.afterCalls calls).OpenIn s.mode := by
  induction calls generalizing s with
  | nil => exact ⟨hidle.untouched, hopen, rfl⟩
  | cons call calls ih =>
    obtain ⟨huntouched, hopen', hmode'⟩ := Call.after_untouched hopen hidle fun hwrite =>
      hcalls hwrite call List.mem_cons_self
    obtain ⟨hrest, hlast⟩ := ih huntouched.1 hopen' fun hwrite call' hmem =>
      hcalls (hmode' ▸ hwrite) call' (List.mem_cons_of_mem call hmem)
    exact ⟨huntouched.trans hrest, hmode' ▸ hlast⟩

/-! ## What makes a container clean

Opening for reading reads in a file and changes nothing in memory. Flushing goes through the
chunks in memory, each of which is clean once it was written, and then writes the sizes. -/

/-- A raw file that was opened for reading is open. -/
theorem Raw.isOpen_of_openAs {s s' : Session} {mode : Mode} (hmode : mode.isWrite = false)
    (h : openAs mode s = .ok () s') : s'.isOpen = true := by
  have hexisting {t : Session} (ht : openExisting false t = .ok () s') : s'.isOpen = true := by
    unfold openExisting at ht
    obtain ⟨_, _, ⟨⟩, ht⟩ := Op.ok_of_bind ht
    cases hfound : t.disk.find? t.path with
    | none =>
      simp only [hfound] at ht
      cases ht
    | some file =>
      simp only [hfound] at ht
      cases ht
      rfl
  unfold openAs at h
  obtain ⟨_, _, -, h⟩ := Op.ok_of_bind h
  obtain ⟨_, _, -, h⟩ := Op.ok_of_bind h
  obtain ⟨_, _, ⟨⟩, h⟩ := Op.ok_of_bind h
  obtain ⟨-, h⟩ := Op.ok_of_unless h
  cases mode with
  | scan => exact hexisting h
  | read => exact hexisting h
  | _ => simp [Mode.isWrite] at hmode

namespace Container

open Session

variable {s s' : Session}

theorem close_untouched (hidle : s.Idle) : s.Untouched (close.after s) := by
  refine Op.Keeps.after (P := fun _ => True) ?_ hidle.untouched
  unfold close
  refine Op.Keeps.get_bind fun _ => Op.Keeps.ite (fun _ => ?_) fun _ => Op.Keeps.pure trivial
  exact shut_keeps (frame_untouched s) (detached_untouched s) true

/-- Opening a file that is there changes nothing, and nothing is to be written then. -/
theorem launch_untouched {mode : Mode} (hmode : mode.createsFile (s.disk.contains s.path) = false)
    (metadataOnly : Bool) : s.Untouched ((launch mode metadataOnly).after s) :=
  launch_keeps_of_forgotten (frame_untouched s) (detached_untouched s) hmode metadataOnly
    ⟨⟨by simp [memory, Pool.clear], rfl⟩, rfl, rfl⟩

/-- A container whose content could be read in is open as that left it. -/
theorem ok_of_launched {x : Op Unit} (h : (show Op Unit from do
      let opened ← Op.attempt x
      match opened with
      | .ok () => pure ()
      | .error e =>
        discard (Op.attempt (shut false))
        throw e) s = .ok () s') : x s = .ok () s' := by
  obtain ⟨opened, t, hx, h⟩ := Op.ok_of_bind h
  unfold Op.attempt at hx
  cases hrun : x s with
  | ok _ u =>
    rw [hrun] at hx
    cases hx
    exact h
  | error e u =>
    rw [hrun] at hx
    cases hx
    obtain ⟨_, _, -, ⟨⟩⟩ := Op.ok_of_bind h

/-- **A container that is opened for reading has nothing to write,** and its file was not written.
-/
theorem openIn_untouched {mode : Mode} (hmode : mode.isWrite = false)
    (hopened : openIn mode s = .ok () s') : s.Untouched s' ∧ s'.OpenIn mode := by
  have hcreates (there : Bool) : mode.createsFile there = false := by
    cases mode <;> first | rfl | simp [Mode.isWrite] at hmode
  have hraw (there : Bool) : mode.raw there = mode := by
    cases mode <;> first | rfl | simp [Mode.isWrite] at hmode
  have hlaunch : launch mode false s = .ok () s' := by
    unfold openIn at hopened
    obtain ⟨_, _, ⟨⟩, hopened⟩ := Op.ok_of_bind hopened
    exact (Op.ok_of_unless (Op.ok_of_unless hopened).2).2
  have huntouched := launch_untouched (hcreates (s.disk.contains s.path)) false
  rw [Op.after_of_ok hlaunch] at huntouched
  refine ⟨huntouched, ?_⟩
  unfold launch at hlaunch
  obtain ⟨_, _, ⟨⟩, hlaunch⟩ := Op.ok_of_bind hlaunch
  obtain ⟨_, _, ⟨⟩, hlaunch⟩ := Op.ok_of_bind hlaunch
  obtain ⟨_, t, ⟨⟩, hlaunch⟩ := Op.ok_of_bind hlaunch
  obtain ⟨_, u, hraws, hlaunch⟩ := Op.ok_of_bind hlaunch
  have hkept {t : Session} {there : Bool} (ht : t.mode = mode) :
      ((Raw.openAs (mode.raw there)).after t).mode = mode :=
    (Raw.openAs_keeps (I := fun t => t.mode = mode)
      { faults := fun _ h => h, handle := fun _ h => h, noted := fun _ h => h }
      (hcreates there)).after ht
  have hu : u.OpenIn mode := by
    rw [← Op.after_of_ok hraws]
    refine ⟨?_, hkept rfl⟩
    rw [Op.after_of_ok hraws]
    exact Raw.isOpen_of_openAs hmode (hraw _ ▸ hraws)
  -- reading in the content keeps the container open, whatever the content is
  simp only [hcreates, Bool.false_eq_true, if_false] at hlaunch
  have hloaded := (loadLayout_keeps (frame_openIn mode) false).after hu
  rwa [Op.after_of_ok (ok_of_launched hlaunch)] at hloaded

/-! ### Flushing -/

/-- The dirty chunks in the pool are among these. -/
def Owes (chunks : List Chunk) (s : Session) : Prop :=
  ∀ y ∈ s.pool.entries, y.dirty = true → ∃ x ∈ chunks, x.dirty = true ∧ x.seqnum = y.seqnum

theorem flushChunk_pooled (x : Chunk) (pool : Pool) :
    (flushChunk x).Keeps (fun t => t.pool = pool)
      (fun y => y.dirty = false ∧ y.seqnum = x.seqnum) s :=
  flushChunk_keeps (fun _ _ _ h => h) (fun _ h => h) (fun _ h => h) id
    { faults := fun _ h => h, handle := fun _ h => h, noted := fun _ h => h } id (fun _ h => h) x

/-- Flushing goes through the chunks, and what is still owed is among the ones to come: a chunk that
was written takes the place of every pooled one with its number. -/
theorem flushPooled_clean {chunks : List Chunk} (hs : Owes chunks s)
    (h : flushPooled chunks s = .ok () s') : Owes [] s' := by
  induction chunks generalizing s with
  | nil =>
    cases h
    exact hs
  | cons x xs ih =>
    unfold flushPooled at h
    cases hx : x.dirty with
    | false =>
      simp only [hx, Bool.false_eq_true, if_false] at h
      refine ih (fun y hy hdirty => ?_) h
      obtain ⟨z, hz, hzdirty, hnumber⟩ := hs y hy hdirty
      -- a clean chunk owes nothing, so the dirty ones are among the others
      rcases List.mem_cons.mp hz with rfl | hz
      · rw [hx] at hzdirty
        contradiction
      · exact ⟨z, hz, hzdirty, hnumber⟩
    | true =>
      simp only [hx, if_true] at h
      obtain ⟨x', t, hwritten, h⟩ := Op.ok_of_bind h
      obtain ⟨_, u, ⟨⟩, h⟩ := Op.ok_of_bind h
      have hwrites := flushChunk_pooled (s := s) x s.pool rfl
      rw [hwritten] at hwrites
      obtain ⟨⟨hclean, hsame⟩, hpool⟩ := hwrites
      refine ih (fun y hy hdirty => ?_) h
      simp only [Pool.refresh, List.mem_map, hpool] at hy
      obtain ⟨y, hy, rfl⟩ := hy
      -- a pooled chunk with the number of the written one was replaced by it, and is clean
      split at hdirty
      · rw [hclean] at hdirty
        contradiction
      · rename_i hother
        obtain ⟨z, hz, hzdirty, hnumber⟩ := hs y hy hdirty
        rcases List.mem_cons.mp hz with rfl | hz
        · exact absurd (hnumber.symm.trans hsame.symm) hother
        · exact ⟨z, hz, hzdirty, by rw [if_neg hother]; exact hnumber⟩

/-- Once the chunks are written, writing the sizes leaves nothing to write. -/
theorem settle_idle {raw : Option Bool} (hs : ∀ x ∈ s.memory, x.dirty = false)
    (h : (show Op Unit from do
      writeSize
      match raw with
      | some deep => Raw.flush deep
      | none => pure ()) s = .ok () s') : s'.Idle := by
  have hambient : Ambient fun t => ∀ x ∈ t.memory, x.dirty = false :=
    { faults := fun _ h => h, handle := fun _ h => h, noted := fun _ h => h }
  obtain ⟨_, t, hsizes, h⟩ := Op.ok_of_bind h
  have hclean : ∀ x ∈ t.memory, x.dirty = false := by
    rw [← Op.after_of_ok hsizes]
    exact (writeSize_keeps (fun _ _ _ h => h) (fun _ h => h) (fun _ h => h) id hambient).after hs
  have hsized : t.sizeDirty = false := by
    unfold writeSize at hsizes
    obtain ⟨_, _, ⟨⟩, hsizes⟩ := Op.ok_of_bind hsizes
    cases hdirty : s.sizeDirty with
    | false =>
      simp only [hdirty, Bool.false_eq_true, if_false] at hsizes
      cases hsizes
      exact hdirty
    | true =>
      simp only [hdirty, if_true] at hsizes
      obtain ⟨_, _, -, hsizes⟩ := Op.ok_of_bind hsizes
      obtain ⟨_, _, -, hsizes⟩ := Op.ok_of_bind hsizes
      cases hsizes
      rfl
  have hidle : t.Idle := ⟨hclean, hsized⟩
  cases raw with
  | none =>
    cases h
    exact hidle
  | some deep =>
    have hflushed := (Raw.flush_keeps (frame_untouched t).toAmbient deep).after hidle.untouched
    rw [Op.after_of_ok h] at hflushed
    exact hflushed.1

/-- **After flushing there is nothing to write,** whatever was in memory before. -/
theorem flushAll_idle {raw : Option Bool} (hopen : s.isOpen = true) (hwrite : s.mode.isWrite = true)
    (h : flushAll raw s = .ok () s') : s'.Idle := by
  unfold flushAll at h
  obtain ⟨_, _, ⟨⟩, h⟩ := Op.ok_of_bind h
  simp only [hopen, hwrite, Bool.and_self, if_true] at h
  obtain ⟨_, t, hpooled, h⟩ := Op.ok_of_bind h
  have ht : ∀ y ∈ t.pool.entries, y.dirty = false := fun y hy => by
    refine Bool.eq_false_iff.mpr fun hdirty => ?_
    obtain ⟨x, hx, -⟩ := flushPooled_clean (fun y hy hdirty => ⟨y, hy, hdirty, rfl⟩) hpooled y hy
      hdirty
    exact absurd hx List.not_mem_nil
  obtain ⟨_, _, ⟨⟩, h⟩ := Op.ok_of_bind h
  -- the pool is clean now; only the current chunk may still have to be written
  cases hdirty : t.current.any (·.dirty) with
  | false =>
    simp only [hdirty, Bool.false_eq_true, if_false] at h
    refine settle_idle (fun x hx => ?_) h
    rcases List.mem_append.mp hx with hx | hx
    · rw [Option.mem_toList] at hx
      simpa [hx] using hdirty
    · exact ht x hx
  | true =>
    simp only [hdirty, if_true] at h
    obtain ⟨_, u, hactive, h⟩ := Op.ok_of_bind h
    refine settle_idle ?_ h
    unfold flushActive active at hactive
    obtain ⟨y, w, hcurrent, hactive⟩ := Op.ok_of_bind hactive
    obtain ⟨z, v, hwritten, hactive⟩ := Op.ok_of_bind hactive
    cases hactive
    have hw : w.pool = t.pool := by
      obtain ⟨_, _, ⟨⟩, hcurrent⟩ := Op.ok_of_bind hcurrent
      cases hx : t.current with
      | none =>
        simp only [hx] at hcurrent
        cases hcurrent
      | some x =>
        simp only [hx] at hcurrent
        cases hcurrent
        rfl
    have hwrites := flushChunk_pooled (s := w) y t.pool hw
    rw [hwritten] at hwrites
    obtain ⟨⟨hclean, -⟩, hpool⟩ := hwrites
    intro x hx
    rcases List.mem_append.mp hx with hx | hx
    · obtain rfl : x = z := by simpa using hx
      exact hclean
    · exact ht x (hpool ▸ hx)

/-- What is made lasting was written before. -/
theorem settled_idle {x : Op Unit} (hx : ∀ t : Session, x.Keeps t.Untouched (fun _ => True) t)
    (hopen : s.isOpen = true) (hwrite : s.mode.isWrite = true)
    (h : (show Op Unit from do ensureOpen; flushAll none; x) s = .ok () s') : s'.Idle := by
  obtain ⟨_, t, hensured, h⟩ := Op.ok_of_bind h
  obtain rfl : s = t := by
    unfold ensureOpen at hensured
    obtain ⟨_, _, ⟨⟩, hensured⟩ := Op.ok_of_bind hensured
    simp only [hopen, Bool.not_true, Bool.false_eq_true, if_false] at hensured
    cases hensured
    rfl
  obtain ⟨_, u, hflushed, h⟩ := Op.ok_of_bind h
  have hidle := flushAll_idle hopen hwrite hflushed
  have hlasting := (hx u).after hidle.untouched
  rw [Op.after_of_ok h] at hlasting
  exact hlasting.1

end Container

/-- Is the call there to make the file lasting? -/
def Call.flushes : Call → Bool
  | .flush _ | .sync | .fsync => true
  | _ => false

theorem Call.flushed_idle {s s' : Session} {call : Call} {a : Answer} (hcall : call.flushes = true)
    (hopen : s.isOpen = true) (hwrite : s.mode.isWrite = true) (h : call.run s = .ok a s') :
    s'.Idle := by
  cases call with
  | flush deep =>
    obtain ⟨_, _, hflushed, ⟨⟩⟩ := Op.ok_of_bind h
    exact Container.flushAll_idle hopen hwrite hflushed
  | sync =>
    obtain ⟨_, _, hflushed, ⟨⟩⟩ := Op.ok_of_bind h
    exact Container.settled_idle (fun t => Raw.sync_keeps (Session.frame_untouched t).toAmbient)
      hopen hwrite hflushed
  | fsync =>
    obtain ⟨_, _, hflushed, ⟨⟩⟩ := Op.ok_of_bind h
    exact Container.settled_idle (fun t => Raw.fsync_keeps (Session.frame_untouched t).toAmbient)
      hopen hwrite hflushed
  | _ => simp [flushes] at hcall

/-- A container in which nothing is to be written, because nothing was changed, it was opened for
reading, or it was flushed. -/
inductive Session.Clean : Session → Prop where
  | idle {s : Session} (idle : s.Idle) : Clean s
  | opened {s t : Session} {mode : Mode} (reads : mode.isWrite = false)
      (opens : Container.openIn mode t = .ok () s) : Clean s
  | flushed {s t : Session} {call : Call} {a : Answer} (flushes : call.flushes = true)
      (opened : t.isOpen = true) (writes : t.mode.isWrite = true) (answers : call.run t = .ok a s) :
      Clean s

theorem Session.Clean.isIdle {s : Session} (h : s.Clean) : s.Idle := by
  cases h with
  | idle hidle => exact hidle
  | opened hreads hopens => exact (Container.openIn_untouched hreads hopens).1.1
  | flushed hflushes hopened hwrites hanswers =>
    exact Call.flushed_idle hflushes hopened hwrites hanswers

/-- **A clean container never rewrites its file.** It may be asked for anything that does not change
its content, any number of times, and be closed: its file stays as it is, no random bytes are drawn,
and there is still nothing to write, whether or not the calls answer. In a mode in which it is only
read it may be asked to change as well, which it refuses at any time. -/
theorem clean_never_rewrites {s : Session} {calls : List Call} (hclean : s.Clean)
    (hopen : s.isOpen = true)
    (hcalls : s.mode.isWrite = true → ∀ call ∈ calls, call.changes = false) :
    s.Untouched (s.afterCalls calls) ∧ (s.afterCalls calls).OpenIn s.mode ∧
      s.Untouched (Container.close.after (s.afterCalls calls)) ∧
      (s.mode.isWrite = false → ∀ call : Call, call.changes = true →
        call.run (s.afterCalls calls) = .error .writeFailed (s.afterCalls calls) ∨
        call = .write [] ∧
          call.run (s.afterCalls calls) = .ok (.number 0) (s.afterCalls calls)) := by
  obtain ⟨huntouched, hopened⟩ := hclean.isIdle.afterCalls hopen hcalls
  refine ⟨huntouched, hopened, ?_, fun hmode call hcall => ?_⟩
  · exact huntouched.trans (Container.close_untouched huntouched.1)
  · exact Call.run_refused hopened.1 (hopened.2 ▸ hmode) hcall

/-- Three bytes are written, and the end of the container is flushed; reading behind the end,
reloading and closing change nothing. -/
theorem clean_never_rewrites_flushed :
    ∃ (s : Session) (calls : List Call), calls = [.seek 1, .read 5, .seek 9, .setMaxCached 1,
        .invalidate, .setCacheEnabled false, .fsync, .usedSize] ∧ s.isOpen = true ∧
      s.Untouched (Container.close.after (s.afterCalls calls)) := by
  let t : Session := ((Container.openIn .write).after (Session.pristine "vault"
    (Processor.ofConfig ⟨[7]⟩ { chunkMax := 2 }) {} (Random.seeded 0))).afterCalls [.write [1, 2, 3]]
  obtain ⟨a, hflushed⟩ : ∃ a, (Call.flush false).run t = .ok a ((Call.flush false).run.after t) :=
    Op.ok_of_succeeds (by decide +kernel)
  have hclean : ((Call.flush false).run.after t).Clean :=
    .flushed rfl (by decide +kernel) (by decide +kernel) hflushed
  refine ⟨_, _, rfl, by decide +kernel, (clean_never_rewrites hclean (by decide +kernel) ?_).2.2.1⟩
  exact fun _ => by decide

end Vault
