import Vault.Proofs.Changes

/-!
# `Vault/Proofs/Calls.lean` — what users ask of an open container

All that can be asked of an open container, as data: a session of a user is a list of calls. **An
open container that shows a content shows one after every call, answered or not,** unless the call
left it closed. What is reachable by calls and armed faults is therefore either closed or shows a
content (`Reached.lives`), and this is all that a statement about every reachable state needs.

The statement about one call is a case for each constructor, and each case only cites the statement
about the operation behind it. What the calls then share is small: which part of the place a call
may change (`Site.Alike`), and what is left after it (`Session.Goes`). Reachability is an induction
whose steps are those cases, so a new call costs a constructor, a case, and nothing else.
-/

set_option autoImplicit false

namespace Vault

/-- What users ask of an open container. -/
inductive Call where
  | seek (pos : Nat)
  | read (n : Nat)
  | write (data : Bytes)
  | truncate (newSize : Nat) (backup : Bool)
  | contentSize
  | position
  | flush (deep : Bool)
  | sync
  | fsync
  | usedSize
  | invalidate
  | setMaxCached (count : Nat)
  | setCacheEnabled (enabled : Bool)
  | setBlock (size : Nat)
deriving DecidableEq

/-- What users are told of the content. -/
inductive Answer where
  | done
  | data (data : Bytes)
  | number (n : Nat)
deriving DecidableEq

/-- Asks. How much of the file is used says nothing of the content, so that answer is dropped. -/
def Call.run : Call → Op Answer
  | .seek pos => do Container.seek pos; return .done
  | .read n => do return .data (← Container.read n)
  | .write data => do return .number (← Container.write data)
  | .truncate newSize backup => do Container.truncate newSize backup; return .done
  | .contentSize => do return .number (← Container.contentSize)
  | .position => do return .number (← get).pos
  | .flush deep => do Container.flush deep; return .done
  | .sync => do Container.sync; return .done
  | .fsync => do Container.fsync; return .done
  | .usedSize => do discard Container.usedSize; return .done
  | .invalidate => do Container.invalidate; return .done
  | .setMaxCached count => do Container.setMaxCached count; return .done
  | .setCacheEnabled enabled => do Container.setCacheEnabled enabled; return .done
  | .setBlock size => do
    modify fun s => { s with toContainer := s.toContainer.setBlock size }
    return .done

/-! ## Calls keep the invariant

A call says different things when it answers and when it fails, but after either of them the
container is closed or shows a content in the mode that it had. That is all that is kept of it
here; what was answered is left to the statements about the single operations. -/

/-- Two places at which the same container is open for the same purpose, and as much is known of
what stands behind the chunk data. -/
structure Site.Alike (g g' : Site) : Prop where
  path : g'.path = g.path
  mode : g'.mode = g.mode
  metadata : g'.metadata = g.metadata
  trail : g'.trail = g.trail

theorem Site.Alike.refl (g : Site) : g.Alike g := ⟨rfl, rfl, rfl, rfl⟩

theorem Site.Alike.trans {g g₁ g₂ : Site} (h : g.Alike g₁) (h' : g₁.Alike g₂) : g.Alike g₂ :=
  ⟨h'.path.trans h.path, h'.mode.trans h.mode, h'.metadata.trans h.metadata, h'.trail.trans h.trail⟩

namespace Session

variable {s s' : Session} {g : Site} {c d : Bytes}

/-- The container is open in this mode and shows a content. -/
def LivesIn (s : Session) (mode : Mode) : Prop :=
  ∃ (g : Site) (c d : Bytes), s.Shows g c d ∧ g.mode = mode

/-- The container is open for writing and shows a content. -/
def Lives (s : Session) : Prop :=
  ∃ (g : Site) (c d : Bytes), s.Shows g c d ∧ g.mode.isWrite = true

theorem Stays.lives (h : s.Stays g) : s.LivesIn g.mode :=
  let ⟨_, _, c, d, h'⟩ := h
  ⟨_, c, d, h', rfl⟩

theorem Leaves.lives (h : s.Leaves g) : s.handle = none ∨ s.LivesIn g.mode :=
  h.imp id fun ⟨_, hmatches, hstays⟩ => hmatches.mode ▸ hstays.lives

/-- After a call the container is closed, or it lives on in its mode. -/
structure Goes (s s' : Session) (mode : Mode) : Prop where
  lives : s'.handle = none ∨ s'.LivesIn mode
  steady : s.Steady s'

theorem LivesIn.goes {mode : Mode} (h : s'.LivesIn mode) (hplaced : s.Placed → s'.Placed) :
    s.Goes s' mode :=
  ⟨.inr h, fun _ hp => .inr (hplaced hp)⟩

theorem Shows.goes {g' : Site} {c' d' : Bytes} (h : s'.Shows g' c' d')
    (hplaced : s.Placed → s'.Placed) : s.Goes s' g'.mode :=
  LivesIn.goes ⟨g', c', d', h, rfl⟩ hplaced

theorem Survives.goes (h : s.Survives s' g c) : s.Goes s' g.mode :=
  h.stays.lives.goes h.1

end Session

namespace Call

open Session

variable {s : Session} {g : Site} {c d : Bytes}

/-- **An open container lives on after every call,** or is closed by it. What only writing modes
allow is refused in the others. -/
theorem run_goes (h : s.Shows g c d) (hfits : g.metadata.Fits c.length) (call : Call) :
    call.run.Does True s (fun _ s' => s.Goes s' g.mode) (fun s' => s.Goes s' g.mode) := by
  have hstill : s.Goes s g.mode := h.goes id
  have hshown {s' : Session} (h' : (s.Placed → s'.Placed) ∧ ∃ d', s'.Shows g c d') :
      s.Goes s' g.mode :=
    let ⟨hplaced, _, h'⟩ := h'
    h'.goes hplaced
  have hflushed {s' : Session} (h' : s.Onward s' ∧ s'.Flushed g c) : s.Goes s' g.mode :=
    h'.2.toShows.goes h'.1.placed
  cases call with
  -- where only appending is allowed, any other position than the end is refused
  | seek pos =>
    by_cases hbad : g.mode.isAppend = true ∧ pos ≠ c.length
    · exact .told_of_error (Container.seek_refused h hbad.1 hbad.2) hstill
    · have happending (happ : g.mode.isAppend = true) : pos = c.length :=
        Classical.byContradiction fun hne => hbad ⟨happ, hne⟩
      exact (Container.seek_does h happending).told _ (fun _ _ ⟨ho, _, h'⟩ => h'.goes ho.placed)
        fun _ => Survives.goes
  | read n =>
    -- reading nothing is answered before anything is asked of the container
    by_cases hn : n = 0
    · exact .told_of_pure (if_pos hn) hstill
    · cases happ : g.mode.isAppend with
      | true => exact .told_of_error (Container.read_refused h happ hn) hstill
      | false =>
        exact (Container.read_does h happ n).told True (fun _ _ ⟨_, ho, _, h'⟩ => h'.goes ho.placed)
          fun _ => Survives.goes
  | write data =>
    by_cases hdata : data = []
    · exact .told_of_pure (if_pos hdata) hstill
    · cases hwrite : g.mode.isWrite with
      | false => exact .told_of_error (Container.write_refused h hwrite hdata) hstill
      | true =>
        exact (Container.write_does h hwrite hdata).told _
          (fun _ _ ⟨_, hplaced, _, h'⟩ => h'.goes fun _ => hplaced)
          fun _ ⟨hstays, hplaced⟩ => hstays.lives.goes hplaced
  -- Growing and shrinking are one statement of `truncate_does`. It needs the new size to be allowed
  -- where only appending is, so the other sizes are split off.
  | truncate newSize backup =>
    cases hwrite : g.mode.isWrite with
    | false => exact .told_of_error (Container.truncate_readOnly h hwrite newSize backup) hstill
    | true =>
      by_cases hbad : g.mode.isAppend = true ∧ newSize < c.length
      · exact .told_of_error (Container.truncate_refused h hbad.1 hbad.2 backup) hstill
      · have happending (happ : g.mode.isAppend = true) : c.length ≤ newSize :=
          Nat.le_of_not_lt fun hlt => hbad ⟨happ, hlt⟩
        refine (Container.truncate_does h hwrite hfits backup happending).told _ ?_
          fun _ ⟨hleaves, hsteady⟩ => ⟨hleaves.lives, hsteady⟩
        rintro _ s' ⟨g', d', hmatches, -, -, h', hplaced⟩
        exact hmatches.mode ▸ h'.goes hplaced
  | contentSize =>
    exact (Container.contentSize_does h fun _ => False).told True (fun _ _ hs => hs.2 ▸ hstill)
      fun _ => False.elim
  | position => exact Op.Does.get_bind (Op.Does.pure hstill)
  | flush deep =>
    exact (Container.flush_does h deep).told True (fun _ _ => hflushed) fun _ => hshown
  | sync => exact (Container.sync_does h).told True (fun _ _ => hflushed) fun _ => hshown
  | fsync => exact (Container.fsync_does h).told True (fun _ _ => hflushed) fun _ => hshown
  | usedSize =>
    -- the answer is dropped, which changes nothing about the run
    have hused : Op.Does (discard Container.usedSize) True s
        (fun _ s' => s.Onward s' ∧ ∃ d', s'.Shows g c d')
        (fun s' => s.SameMemory s' ∧ s'.Shows g c d) :=
      (Container.usedSize_does h).discard
    exact hused.told True (fun _ _ ⟨ho, _, h'⟩ => h'.goes ho.placed)
      fun _ ⟨hsame, h'⟩ => h'.goes hsame.placed
  | invalidate =>
    exact (Container.invalidate_does h).told _ (fun _ _ ⟨ho, _, h'⟩ => h'.goes ho.placed)
      fun _ => hshown
  | setMaxCached count =>
    exact (Container.setMaxCached_does h count).told True
      (fun _ _ ⟨ho, _, h'⟩ => h'.goes ho.placed) fun _ => Survives.goes
  | setCacheEnabled enabled =>
    obtain ⟨useCache, hset⟩ := Container.setCacheEnabled_does h enabled
    exact hset.told True (fun _ _ ⟨ho, _, h'⟩ => h'.goes ho.placed) fun _ => Survives.goes
  | setBlock size =>
    exact Op.Does.modify_bind rfl (Op.Does.pure ((Container.shows_setBlock h size).goes id))

end Call

/-! ## Opening

A container can be opened in two ways that have nothing in common: its file is there and keeps a
content, or it is made. Both ways end in the same kind of state, so what is opened is a parameter
of one statement. -/

/-- A closed container that shows this content when it is opened in this mode, in chunks of these
capacities: its file keeps the content, or there will be a new file. -/
inductive Session.Ready (s : Session) (mode : Mode) : UInt32 → UInt32 → Bytes → Prop where
  | there {m : Metadata} {file ciphertextSize last : Nat} {c : Bytes}
      (waits : s.Waits m file ciphertextSize last c) (fits : m.Fits c.length)
      (creates : mode.createsFile true = false) : Ready s mode m.firstMax m.chunkMax c
  | new (vacant : s.Vacant mode) :
      Ready s mode s.processor.config.firstMax s.processor.config.chunkMax []

/-- A container that was never opened, on an empty disk. -/
def Session.pristine (path : String) (processor : Processor) (config : ContainerConfig)
    (random : Random) : Session where
  path := path
  processor := processor
  config := config
  pool := Pool.new config.maxCachedChunks
  disk := {}
  random := random

theorem Session.vacant_pristine {path : String} {processor : Processor} {config : ContainerConfig}
    {random : Random} {mode : Mode} (hplace : Disk.hasPlace path = true)
    (hvalid : processor.config.validate = .ok ()) (hsealed : processor.config.streaming = false)
    (hmode : mode.createsFile false = true) :
    (pristine path processor config random).Vacant mode where
  closed := rfl
  creates := hmode
  new := fun _ => rfl
  place := fun _ => hplace
  listed := by simp [pristine, Disk.find?]
  valid := hvalid
  sealed := hsealed

/-- Where a container is open that was just opened. -/
structure Site.Opens (g : Site) (s : Session) (mode : Mode) (firstMax chunkMax : UInt32)
    (content : Bytes) : Prop where
  path : g.path = s.path
  seekCursor : g.seekCursor = if mode.isAppend then content.length else 0
  mode : g.mode = mode
  /-- Chunks are kept only in the modes where that pays. -/
  useCache : g.useCache = true → g.mode.allowsCache = true
  master : g.metadata.master = s.processor.master
  firstMax : g.metadata.firstMax = firstMax
  chunkMax : g.metadata.chunkMax = chunkMax

section
variable {s s' : Session} {mode : Mode} {firstMax chunkMax : UInt32} {c : Bytes}

/-- **A container that is ready opens,** if the end of the content has a chunk number. -/
theorem Container.open_does (h : s.Ready mode firstMax chunkMax c) :
    (openIn mode).Does ((Layout.ofSizes firstMax chunkMax 0 0).seqnumOf? c.length = none) s
      (fun _ s' => ∃ g : Site, g.Opens s mode firstMax chunkMax c ∧ s'.Flushed g c ∧ s'.Placed ∧
        g.trail = (if mode.createsFile (s.disk.contains s.path) then .cut
          else .kept c.length s'.eofPos ((s'.disk.contents g.file).drop s'.eofPos)) ∧
        (mode.createsFile (s.disk.contains s.path) = false → s'.disk = s.disk) ∧ s'.Seated)
      (fun s' => s'.handle = none) := by
  cases h with
  | @there m file ct e c waits fits creates =>
    -- what stands behind the chunk data is named before it is opened, since nothing of it is read
    let trail := Trail.kept c.length (m.dataOffset + ct)
      ((s.disk.contents file).drop (m.dataOffset + ct))
    refine (openIn_does waits fits creates trail Trail.fits_kept).mono ?_ fun _ => id
    · rintro - s' ⟨h', hplaced, hdisk, -, hseated⟩
      refine ⟨waits.site mode trail, ⟨rfl, rfl, rfl, ?_, waits.master.symm, rfl, rfl⟩, h',
        hplaced, ?_, fun _ => hdisk, hseated⟩
      · intro huse
        simp only [Session.Waits.site, Bool.and_eq_true] at huse
        exact huse.1.2
      -- the size of the chunk data is the one in the file, for which there is one only
      have hsame : s'.ciphertextSize = ct := by
        have hkeeps := h'.keeps
        rw [hdisk] at hkeeps
        exact hkeeps.ciphertextSize_eq waits.keeps fits
      have hthere : s.disk.contains s.path = true := by simp [Disk.contains, waits.found]
      show trail = _
      rw [h'.eofPos_eq, hsame, hdisk, hthere, creates]
      rfl
  -- behind the chunk data of a new file there is nothing
  | new vacant =>
    refine (openNew_does vacant).mono ?_ fun _ => id
    rintro - s' ⟨g, hg, h', hplaced, hseated⟩
    refine ⟨g, ⟨hg.path, ?_, hg.mode, hg.useCache, hg.master, hg.firstMax, hg.chunkMax⟩, h',
      hplaced, ?_, fun hexists => absurd (hexists.symm.trans vacant.creates) (by simp), hseated⟩
    · rw [hg.seekCursor]
      simp
    · rw [hg.trail, vacant.creates, if_pos rfl]

end

/-! ## States that can be reached

Faults may be armed at any time, so arming is a step of its own and not a parameter of the calls.
A call needs an open container and room for its offsets; both are asked of the state before it,
which makes them decidable on a run. -/

/-- Sizes and raw offsets are 64-bit numbers. -/
def Session.Bounded (s : Session) : Prop :=
  s.layout.dataOffset + s.size + seqnumLimit * ChunkCipher.overhead < offsetLimit

instance (s : Session) : Decidable s.Bounded := inferInstanceAs (Decidable (_ < _))

/-- The states of a container that was opened for writing: after any calls, answered or not, with
any faults armed that are allowed. -/
inductive Reached (Allowed : List Fault → Prop) : Session → Prop where
  | opened {s s' : Session} {mode : Mode} {firstMax chunkMax : UInt32} {c : Bytes}
      (ready : s.Ready mode firstMax chunkMax c) (write : mode.isWrite = true)
      (allowed : Allowed s.faults) (run : Container.openIn mode s = .ok () s') : Reached Allowed s'
  | called {s : Session} (call : Call) (before : Reached Allowed s) (isOpen : s.isOpen = true)
      (bounded : s.Bounded) : Reached Allowed (call.run.after s)
  | armed {s : Session} {faults : List Fault} (before : Reached Allowed s)
      (allowed : Allowed faults) : Reached Allowed { s with faults }

namespace Session

variable {s : Session} {g : Site} {c d : Bytes}

theorem Shows.fits (h : s.Shows g c d) (hbounded : s.Bounded) : g.metadata.Fits c.length := by
  unfold Bounded at hbounded
  rw [h.layout, h.size] at hbounded
  exact hbounded

theorem Lives.of_open (h : s.handle = none ∨ s.Lives) (hopen : s.isOpen = true) : s.Lives := by
  rcases h with h | h
  · simp [Container.isOpen, h] at hopen
  · exact h

end Session

/-- A call on an open container wears faults down and leaves it living or closed. -/
theorem Call.after_goes {s : Session} {mode : Mode} (call : Call) (h : s.LivesIn mode)
    (htame : Fault.Tame s.faults) (hbounded : s.Bounded) :
    Fault.Worn s.faults (call.run.after s).faults ∧ s.Goes (call.run.after s) mode := by
  obtain ⟨g, c, d, hshows, rfl⟩ := h
  exact (run_goes hshows (hshows.fits hbounded) call).after htame

/-- The session after some calls, answered or not. -/
def Session.afterCalls (s : Session) : List Call → Session
  | [] => s
  | call :: calls => (call.run.after s).afterCalls calls

/-- The container is open before each of some calls. -/
def Session.Admits (s : Session) : List Call → Prop
  | [] => True
  | call :: calls => s.isOpen = true ∧ s.Bounded ∧ (call.run.after s).Admits calls

instance Session.decidableAdmits : (s : Session) → (calls : List Call) → Decidable (s.Admits calls)
  | _, [] => inferInstanceAs (Decidable True)
  | s, call :: calls =>
    have := decidableAdmits (call.run.after s) calls
    inferInstanceAs (Decidable (_ ∧ _ ∧ _))

namespace Reached

variable {Allowed : List Fault → Prop} {s : Session}

/-- What is reachable with some faults is reachable where more are allowed. -/
theorem mono {Allowed' : List Fault → Prop} (h : Reached Allowed s)
    (himp : ∀ faults, Allowed faults → Allowed' faults) : Reached Allowed' s := by
  induction h with
  | opened ready write allowed run => exact .opened ready write (himp _ allowed) run
  | called call _ isOpen bounded ih => exact .called call ih isOpen bounded
  | armed _ allowed ih => exact .armed ih (himp _ allowed)

/-- Any calls lead from a reachable state to a reachable one. -/
theorem afterCalls {calls : List Call} (h : Reached Allowed s) (hadmits : s.Admits calls) :
    Reached Allowed (s.afterCalls calls) := by
  induction calls generalizing s with
  | nil => exact h
  | cons call calls ih =>
    obtain ⟨hopen, hbounded, hrest⟩ := hadmits
    exact ih (h.called call hopen hbounded) hrest

/-- **What is reachable with tame faults is closed or shows a content.** -/
theorem lives (h : Reached Allowed s) (htame : ∀ faults, Allowed faults → Fault.Tame faults) :
    Fault.Tame s.faults ∧ (s.handle = none ∨ s.Lives) := by
  -- Induction on how the state was reached: opening starts with a content, and a call keeps one or
  -- closes.
  induction h with
  | opened ready write allowed run =>
    obtain ⟨hspares, g, hg, h', -, -⟩ := (Container.open_does ready).of_ok (htame _ allowed) run
    exact ⟨hspares.worn.tame (htame _ allowed), .inr ⟨g, _, _, h'.toShows, hg.mode ▸ write⟩⟩
  | called call _ isOpen bounded ih =>
    obtain ⟨g, c, d, hshows, hwrite⟩ := Session.Lives.of_open ih.2 isOpen
    obtain ⟨hworn, hgoes⟩ := call.after_goes ⟨g, c, d, hshows, rfl⟩ ih.1 bounded
    refine ⟨hworn.tame ih.1, hgoes.lives.imp id ?_⟩
    rintro ⟨g', c', d', hshows', hmode⟩
    exact ⟨g', c', d', hshows', hmode ▸ hwrite⟩
  | armed _ allowed ih =>
    refine ⟨htame _ allowed, ih.2.imp id ?_⟩
    rintro ⟨g, c, d, h, hwrite⟩
    exact ⟨g, c, d, h.rearm _, hwrite⟩

/-- **Without faults, what is reachable and open has its cursor inside the content.** -/
theorem placed (h : Reached (· = []) s) : s.faults = [] ∧ (s.handle = none ∨ s.Placed) := by
  -- Induction as before. A failed call can leave the cursor behind the end, but it takes a fault
  -- for that, so the faults are part of what is carried along.
  induction h with
  | opened ready write allowed run =>
    obtain ⟨hspares, g, -, -, hplaced, -⟩ :=
      (Container.open_does ready).of_ok (Fault.tame_of_nil allowed) run
    exact ⟨Fault.Spares.nil (allowed ▸ hspares), .inr hplaced⟩
  | called call before isOpen bounded ih =>
    obtain ⟨htamed, hlives⟩ := before.lives fun _ => Fault.tame_of_nil
    obtain ⟨g, c, d, hshows, -⟩ := Session.Lives.of_open hlives isOpen
    obtain ⟨hworn, hgoes⟩ := call.after_goes ⟨g, c, d, hshows, rfl⟩ htamed bounded
    refine ⟨Fault.Worn.nil (ih.1 ▸ hworn), ?_⟩
    rcases ih.2 with hclosed | hplaced
    · simp [Container.isOpen, hclosed] at isOpen
    · exact hgoes.steady ih.1 hplaced
  | armed _ allowed ih => exact ⟨allowed, ih.2⟩

end Reached

end Vault
