import Vault.Proofs.Demands

/-!
# `Vault/Proofs/Resting.lean` — a closed container holds nothing

Closing forgets: whatever a container was used for, and whatever fails while it is closed, the raw
file is closed then, no chunk is in memory, and the processor is back at its configuration
(`shut_rests`). Opening that fails closes again too — but not if the raw file itself could not be
opened (`launch_fails`); then the container still has the mode of the attempt.

Some demands open a closed container on their own, more than once, and have many ways to fail in
between. **They leave a closed container that holds neither chunks nor keys,** on every path that
ends in an answer or an error. Only a run that breaks off, for want of a buffer, does not come to
closing.
-/

set_option autoImplicit false

namespace Vault

/-! ## What a container is set up with

The frame lemmas say for each operation what it keeps. The setup is kept by all of them, so that
a container that has been used can still be told to have the configuration it was made with. -/

/-- What opening and closing a container does not change. -/
structure Setup where
  path : String
  /-- The processor without keys. -/
  processor : Processor
  config : ContainerConfig
  /-- The number of chunks there is room for. -/
  capacity : Nat

namespace Session

variable {r s t : Session} {mode : Mode}

def setup (s : Session) : Setup := ⟨s.path, s.processor.reset, s.config, s.pool.capacity⟩

theorem config_of_setup (h : t.setup = s.setup) : t.config = s.config := congrArg Setup.config h

theorem frame_setup (p : Setup) : Frame (fun s => s.setup = p) fun _ => True where
  faults _ h := h
  handle _ h := h
  noted _ h := h
  processor _ hreset h := h ▸ congrArg (fun processor => { Session.setup _ with processor }) hreset
  opening _ _ _ h := h
  current _ h := h
  pool hcapacity _ h := h ▸ congrArg (fun capacity => { Session.setup _ with capacity }) hcapacity
  sized h := h
  safe_current _ _ := trivial
  safe_pool _ _ := trivial
  clean _ := trivial
  place _ _ := trivial
  flushChunk _ _ :=
    (Container.flushChunk_keeps (fun _ _ _ h => h) (fun _ h => h) (fun _ h => h) id
      ⟨fun _ h => h, fun _ h => h, fun _ h => h⟩ id (fun _ h => h) _).mono fun _ _ => trivial
  writeSize :=
    Container.writeSize_keeps (fun _ _ _ h => h) (fun _ h => h) (fun _ h => h) id
      ⟨fun _ h => h, fun _ h => h, fun _ h => h⟩

theorem detached_setup (p : Setup) : Detached fun s => s.setup = p where
  closed h := h
  mode _ h := h

/-! ## Closed containers

`Locked` is what an errand needs before it starts, and `Cleared` is what it leaves. `AtRest` is
stronger than both: it is the state that closing leads to from anywhere. -/

/-- A closed container without keys. -/
structure Locked (s : Session) : Prop where
  closed : s.handle = none
  keyless : s.processor.keys = none

/-- It has no chunks in memory either. -/
structure Cleared (s : Session) : Prop extends Locked s where
  empty : s.memory = []

/-- A closed container that knows nothing of what it was used for. -/
structure AtRest (s : Session) : Prop where
  closed : s.handle = none
  forgotten : s.toOpening = {}
  unpooled : s.pool.entries = []
  processor : s.processor.reset = s.processor

/-- A container whose raw file could not be opened. It has the mode of the attempt. -/
structure Unopened (mode : Mode) (s : Session) : Prop where
  closed : s.handle = none
  attempted : s.toOpening = { mode, useCache := s.cachePolicy }
  unpooled : s.pool.entries = []

/-- The run broke off, since a block is larger than a buffer can be. -/
def Breaks (s : Session) (e : Error) : Prop :=
  e = .brokenOff ∧ allocationLimit < s.config.maxProcessingSize

theorem Locked.isOpen (h : s.Locked) : s.isOpen = false := by
  simp [Container.isOpen, h.closed]

theorem Cleared.chunksInMemory (h : s.Cleared) : s.chunksInMemory = 0 := by
  obtain ⟨hcurrent, hpooled⟩ := List.append_eq_nil_iff.mp h.empty
  cases hx : s.current with
  | none => simp [Container.chunksInMemory, Pool.size, hpooled, hx]
  | some x => simp [hx] at hcurrent

theorem AtRest.cleared (h : s.AtRest) : s.Cleared where
  closed := h.closed
  keyless := h.processor ▸ rfl
  empty := by
    have hcurrent : s.current = none := congrArg Opening.current h.forgotten
    simp [memory, hcurrent, h.unpooled]

theorem Unopened.cleared (h : s.Unopened mode) (hkeys : s.processor.keys = none) : s.Cleared where
  closed := h.closed
  keyless := hkeys
  empty := by
    have hcurrent : s.current = none := congrArg Opening.current h.attempted
    simp [memory, hcurrent, h.unpooled]

/-! ## New containers and used ones

Every state that a container can be in, open or closed. Between two demands anything may happen
to the disk, and other faults may be armed. The keys are the only thing that has to be followed
through all of this: whoever is closed has none. -/

/-- A new container; its processor was not used before. -/
inductive Made : Session → Prop where
  | new {path : String} {processor : Processor} {config : ContainerConfig} {c : Container}
      (disk : Disk) (random : Random) (unused : processor.reset = processor)
      (new : Container.new path processor config = .ok c) : Made { toContainer := c, disk, random }

theorem made_pristine {path : String} {master : MasterKey} {pcfg : ProcessorConfig}
    {config : ContainerConfig} {random : Random} (hvalid : config.validate = .ok ()) :
    (pristine path (Processor.ofConfig master pcfg) config random).Made :=
  .new {} random rfl (new_pristine hvalid random)

theorem Made.atRest (h : s.Made) : s.AtRest := by
  obtain ⟨disk, random, unused, new⟩ := h
  unfold Container.new at new
  split at new
  · exact absurd new (by simp)
  · obtain rfl := Except.ok.inj new
    exact ⟨rfl, rfl, rfl, unused⟩

/-- What becomes of a container that is asked for anything, answered or not, while other faults are
armed and others change the disk under it. -/
inductive Becomes (r : Session) : Session → Prop where
  | start : Becomes r r
  | asked {s : Session} (demand : Demand) (before : Becomes r s) : Becomes r (demand.run.after s)
  | around {s : Session} (faults : List Fault) (disk : Disk) (random : Random)
      (before : Becomes r s) : Becomes r { s with faults, disk, random }

theorem Made.fair (h : r.Made) : r.Fair none := by
  obtain ⟨disk, random, unused, new⟩ := h
  have hkeyless : (none : Option WorkingKeys) = _ := congrArg Processor.keys unused
  exact hkeyless ▸ fair_new new disk random

theorem Becomes.fair {keys : Option WorkingKeys} (h : r.Becomes s) (hr : r.Fair keys) :
    s.Fair keys := by
  induction h with
  | start => exact hr
  | asked demand _ ih => exact demand.run_fair.after ih
  | around faults disk random _ ih => exact ih.around faults disk random

/-- **A closed container has no keys,** whatever it was used for. -/
theorem Becomes.locked (h : r.Becomes s) (hr : r.Made) (hclosed : s.isOpen = false) :
    s.Locked := by
  have hs := (h.fair hr.fair).vacated (by simp [hclosed])
  exact ⟨hs.closed, hs.unkeyed.elim id id⟩

end Session

/-! ## The raw file lets itself be opened

`Session.admits` decides, from the state alone, whether opening the raw file will succeed. That
is the line between the two ways in which `launch` can fail. -/

/-- No fault keeps a call that transfers nothing from being done. -/
def Fault.lets (call : RawCall) (faults : List Fault) : Bool :=
  match (meet call faults).1 with
  | none | some .short => true
  | some .fail | some .fileError => false

/-- Can the raw file be opened for a mode? It has to be there, or it can be made. -/
def Session.admits (s : Session) (mode : Mode) : Bool :=
  Fault.lets .openFile s.faults &&
    match mode with
    | .write | .append => s.disk.contains s.path || Disk.hasPlace s.path
    | .writeNew => !s.disk.contains s.path && Disk.hasPlace s.path
    | .scan | .read | .writeExisting | .appendExisting => s.disk.contains s.path

namespace Raw

open Session

variable {s : Session}

theorem meetFault_lets (s : Session) (call : RawCall) :
    (meetFault call).Ends s
      (fun _ t => Fault.lets call s.faults = true ∧ ∃ faults, t = { s with faults })
      fun _ t => Fault.lets call s.faults = false ∧ ∃ faults, t = { s with faults } := by
  unfold meetFault Fault.lets
  refine Op.Ends.get_bind ?_
  obtain ⟨_ | effect, faults⟩ := Fault.meet call s.faults
  · exact ⟨rfl, faults, rfl⟩
  · cases effect with
    | short => exact ⟨rfl, faults, rfl⟩
    | fail => exact ⟨rfl, faults, rfl⟩
    | fileError => exact ⟨rfl, faults, rfl⟩

theorem openExisting_finds (s : Session) (writable : Bool) :
    (openExisting writable).Ends s (fun _ _ => s.disk.contains s.path = true)
      fun _ _ => s.disk.contains s.path = false := by
  unfold openExisting Disk.contains
  refine Op.Ends.get_bind ?_
  cases s.disk.find? s.path with
  | none => exact rfl
  | some file => exact rfl

theorem openCreated_places (s : Session) :
    openCreated.Ends s (fun _ _ => Disk.hasPlace s.path = true)
      fun _ _ => Disk.hasPlace s.path = false := by
  unfold openCreated
  refine Op.Ends.get_bind (Op.Ends.ite (fun hplace => hplace) fun hplace => ?_)
  exact Bool.eq_false_iff.mpr hplace

/-- **A closed raw file is opened just when it lets itself be opened.** -/
theorem openAs_admits (hclosed : s.handle = none) (mode : Mode) :
    (openAs (mode.raw (s.disk.contains s.path))).Ends s (fun _ _ => s.admits mode = true)
      fun _ _ => s.admits mode = false := by
  unfold openAs
  refine Op.Ends.bind (P := fun _ t => ∃ trace, t = { s with trace }) ⟨_, rfl⟩ ?_
  rintro - - ⟨trace, rfl⟩
  refine Op.Ends.bind (P := fun _ t => Fault.lets .openFile s.faults = true ∧
    ∃ faults, t = { s with trace, faults }) (Op.Ends.discard
      ((meetFault_lets { s with trace } .openFile).mono (fun _ _ => id) ?_)) ?_
  · rintro _ _ ⟨hbars, -⟩
    simp only [admits, hbars, Bool.false_and]
  -- the fault is settled; from here on only the disk is asked
  rintro - - ⟨hlets, faults, rfl⟩
  have hfree : ¬s.handle.isSome = true := by simp [hclosed]
  refine Op.Ends.get_bind (Op.Ends.unless (fun hopen => absurd hopen hfree) fun _ => ?_)
  have hexisting (writable : Bool) := openExisting_finds { s with trace, faults } writable
  have hcreated := openCreated_places { s with trace, faults }
  simp only [admits, hlets, Bool.true_and]
  -- one case for each way that a mode asks for the raw file, as in `Session.admits`
  cases mode with
  | scan => exact hexisting _
  | read => exact hexisting _
  | writeExisting => exact hexisting _
  | appendExisting => exact hexisting _
  | write =>
    simp only [Mode.raw, Disk.contains]
    cases hfile : s.disk.find? s.path with
    | some file => exact rfl
    | none => exact hcreated
  | writeNew =>
    simp only [Mode.raw]
    refine Op.Ends.ite (fun hthere => ?_) fun hmissing => ?_
    · have hbars : (!s.disk.contains s.path && Disk.hasPlace s.path) = false := by
        simp only [hthere, Bool.not_true, Bool.false_and]
      exact hbars
    · simpa [hmissing] using hcreated
  | append =>
    cases hthere : s.disk.contains s.path with
    | true => exact (hexisting true).mono (fun _ _ _ => rfl) fun _ _ h => hthere.symm.trans h
    | false =>
      have hnone : s.disk.find? s.path = none := by
        simpa [Disk.contains] using hthere
      simp only [Mode.raw, hnone]
      exact hcreated

end Raw

namespace Container

open Session

variable {s : Session} {mode : Mode}

/-! ## Closing and opening

`shut` forgets after the raw file was closed, and it does so whether that failed or not. `launch`
closes what it opened, except where `openAs` itself fails. -/

/-- **Closing leaves a container at rest,** whatever state it is in and whatever fails. -/
theorem shut_rests (flush : Bool) (s : Session) :
    (shut flush).Ends s (fun _ t => t.AtRest ∧ t.setup = s.setup)
      fun _ t => t.AtRest ∧ t.setup = s.setup := by
  have hframe := frame_setup s.setup
  have hraw := closeRaw_vacates hframe.toAmbient (detached_setup s.setup) flush
    (fun _ => (flushAll_keeps hframe (some false)).ends rfl) (s := s) rfl
  unfold shut
  -- what was to be reported is thrown after the container was forgotten
  refine hraw.attempt_bind fun closed t ht => ?_
  refine Op.Ends.bind (P := fun _ u => u.AtRest ∧ u.setup = s.setup) ?_
    fun _ u hu => Op.Ends.ofExcept (fun _ _ => hu) fun _ _ => hu
  exact ⟨⟨ht.1, rfl, rfl, rfl⟩, ht.2⟩

/-- **A container that could not be opened is at rest, if its raw file could be opened.** If not, it
has the mode of the attempt, and its processor is not touched. -/
theorem launch_fails (hclosed : s.handle = none) (mode : Mode) (metadataOnly : Bool) :
    (launch mode metadataOnly).Ends s (fun _ _ => s.admits mode = true) fun _ t =>
      t.setup = s.setup ∧
        if s.admits mode then t.AtRest else t.Unopened mode ∧ t.processor = s.processor := by
  have hframe := frame_setup s.setup
  unfold launch
  refine Op.Ends.get_bind (Op.Ends.get_bind (Op.Ends.modify_bind ?_))
  -- What is settled before the raw file is opened does not change by opening it.
  let Set (t : Session) : Prop := t.toOpening = { mode, useCache := t.cachePolicy } ∧
    t.pool.entries = [] ∧ t.processor = s.processor ∧ t.setup = s.setup
  have hset : Ambient Set :=
    { faults := fun _ h => h, handle := fun _ h => h, noted := fun _ h => h }
  refine Op.Ends.bind (P := fun _ t => s.admits mode = true ∧ t.setup = s.setup) ?_ ?_
  · refine Op.Ends.mono (((Raw.openAs_admits (by exact hclosed) mode).and
      (Raw.openAs_opens (by exact hclosed) _)).keeping
        (Raw.openAs_keeps_of (I := Set) (fun _ h => h) hset _) ⟨rfl, rfl, rfl, rfl⟩) ?_ ?_
    · rintro _ t ⟨⟨hadmits, -⟩, -, -, -, hsetup⟩
      exact ⟨hadmits, hsetup⟩
    · rintro _ t ⟨⟨hbars, hnone⟩, hattempted, hunpooled, hprocessor, hsetup⟩
      have hbars : s.admits mode = false := hbars
      rw [hbars]
      -- the early return: the mode was set, and nothing sets it back
      exact ⟨hsetup, ⟨hnone, hattempted, hunpooled⟩, hprocessor⟩
  · rintro - t ⟨hadmits, hsetup⟩
    have hcreate : createLayout.Keeps (fun t => t.setup = s.setup) (fun _ => True) t :=
      createLayout_keeps hframe (fun _ h => h)
        (fun data => writeAt_keeps (fun _ h => h) (fun _ h => h) id hframe.toAmbient 0 data)
        fun x _ => (flushChunk_keeps (fun _ _ _ h => h) (fun _ h => h) (fun _ h => h) id
          hframe.toAmbient id (fun _ h => h) x).mono fun _ _ => trivial
    have hread : (if mode.createsFile (s.disk.contains s.path) then createLayout
        else loadLayout metadataOnly).Keeps (fun t => t.setup = s.setup) (fun _ => True) t :=
      Op.Keeps.ite (fun _ => hcreate) fun _ => loadLayout_keeps hframe metadataOnly
    -- from here on a failure is caught and closes the container, which ends at rest
    refine (hread.ends hsetup).attempt_bind fun opened u hu => ?_
    cases opened with
    | ok _ => exact hadmits
    | error e =>
      rw [hadmits, ← hu]
      refine Op.Ends.bind (P := fun _ v => v.AtRest ∧ v.setup = u.setup) (Op.Ends.discard ?_)
        fun _ v hv => ⟨hv.2, hv.1⟩
      refine (shut_rests false u).attempt.mono ?_ fun _ _ => False.elim
      rintro _ v (⟨_, _, hv⟩ | ⟨_, _, hv⟩)
      · exact hv
      · exact hv

/-! ## What stays as it was set up

An errand opens the container more than once, and each time relies on the configuration that the
first one saw. The setup is followed through every step, whatever it answers. -/

section
variable {p : Setup}

theorem launchMetadata_setup (hmode : mode.createsFile (s.disk.contains s.path) = false) :
    (launchMetadata mode).Keeps (fun t => t.setup = p) (fun _ => True) s := by
  unfold launchMetadata
  refine Op.Keeps.get_bind fun _ => Op.Keeps.unless fun _ => ?_
  exact launch_keeps (frame_setup p) (detached_setup p) hmode true

theorem closeMetadata_setup {α : Type} (result : Except Error α) :
    (closeMetadata result).Keeps (fun t => t.setup = p) (fun _ => True) s := by
  unfold closeMetadata
  refine Op.Keeps.bind (shut_keeps (frame_setup p) (detached_setup p) false).attempt fun _ _ _ => ?_
  refine Op.Keeps.ofExcept_bind fun _ _ => Op.Keeps.ofExcept_bind fun _ _ => ?_
  exact Op.Keeps.pure trivial

theorem withMetadata_setup {α : Type} {x : Op α}
    (hmode : mode.createsFile (s.disk.contains s.path) = false)
    (hx : ∀ {t : Session}, x.Keeps (fun t => t.setup = p) (fun _ => True) t) :
    (withMetadata mode x).Keeps (fun t => t.setup = p) (fun _ => True) s :=
  Op.Keeps.bind (launchMetadata_setup hmode) fun _ _ _ =>
    Op.Keeps.bind hx.attempt fun result _ _ => closeMetadata_setup result

theorem loadStamp_setup : loadStamp.Keeps (fun t => t.setup = p) (fun _ => True) s :=
  withMetadata_setup rfl (readStamp_keeps (frame_setup p).toAmbient)

theorem hashFile_setup (kind : StampKind) :
    (hashFile kind).Keeps (fun t => t.setup = p) (fun _ => True) s := by
  have hhash {t : Session} := hashOpen_keeps (s := t) (frame_setup p).toAmbient kind
  refine Op.Keeps.bind (launchMetadata_setup rfl) fun _ _ _ => ?_
  refine Op.Keeps.bind hhash.attempt fun result _ _ => ?_
  rcases result with e | _ | hasher
  · exact closeMetadata_setup (.error e)
  · exact Op.Keeps.throw
  · exact closeMetadata_setup (.ok hasher)

theorem stamp_setup (kind : StampKind) :
    (stamp kind).Keeps (fun t => t.setup = p) (fun _ => True) s := by
  have hI := (frame_setup p).toAmbient
  have hwrite (framed : Bytes) {t : Session} :
      (writeStamp framed).Keeps (fun t => t.setup = p) (fun _ => True) t := by
    unfold writeStamp
    refine Op.Keeps.get_bind fun _ => ?_
    refine Op.Keeps.bind (writeAt_keeps (fun _ h => h) (fun _ h => h) id hI _ framed)
      fun _ _ _ => ?_
    refine Op.Keeps.bind (Raw.truncate_keeps (fun _ h => h) hI id _ false) fun _ _ _ => ?_
    exact Raw.flush_keeps hI false
  unfold stamp
  refine Op.Keeps.bind (hashFile_setup kind) fun hasher _ _ => ?_
  refine Op.Keeps.bind loadStamp_setup.attempt fun loaded _ _ => ?_
  refine Op.Keeps.ofExcept_bind fun _ _ => Op.Keeps.ofExcept_bind fun framed _ => ?_
  exact withMetadata_setup rfl (hwrite framed)

end

/-! ## Where hashing breaks off -/

/-- A whole block is asked for, and there is no hash only if it is larger than a buffer can be. -/
theorem hashOpen_allocates (kind : StampKind) (s : Session) :
    (hashOpen kind).Ends s
      (fun hasher _ => hasher = none → allocationLimit < s.config.maxProcessingSize)
      fun _ _ => True := by
  unfold hashOpen
  refine Op.Ends.get_bind (Op.Ends.bind (Op.Ends.any _ s) fun hasher t _ => ?_)
  refine Op.Ends.ite (fun hlarge _ => ?_) fun _ => ?_
  · -- the block asked for is at most the configured one, so the configured one is too large as
    -- well
    unfold allocationLimit at hlarge ⊢
    omega
  · refine Op.Ends.bind (Op.Ends.any _ t) fun _ u _ => ?_
    exact Op.Ends.bind (Op.Ends.any _ u) fun _ _ _ => nofun

/-! ## Demands that close again

Each errand is a bracket of opening, doing and closing, or a few of them one behind the other.
Closing clears, whatever was done in between; what follows it only reports. -/

theorem launch_clears (hs : s.Locked) (mode : Mode) (metadataOnly : Bool) :
    (launch mode metadataOnly).Ends s (fun _ _ => True) fun _ t => t.Cleared := by
  refine (launch_fails hs.closed mode metadataOnly).mono (fun _ _ _ => trivial) fun _ t ht => ?_
  obtain ⟨-, ht⟩ := ht
  split at ht
  · exact ht.cleared
  · exact ht.1.cleared (ht.2 ▸ hs.keyless)

theorem shut_clears (flush : Bool) (s : Session) :
    (shut flush).Ends s (fun _ t => t.Cleared) fun _ t => t.Cleared :=
  (shut_rests flush s).mono (fun _ _ h => h.1.cleared) fun _ _ h => h.1.cleared

/-- What is left after a container was closed are errors to report. -/
theorem ofExcept_clears {α : Type} (r : Except Error α) (hs : s.Cleared) :
    (Op.ofExcept r).Ends s (fun _ t => t.Cleared) fun _ t => t.Cleared :=
  Op.Ends.ofExcept (fun _ _ => hs) fun _ _ => hs

theorem launchMetadata_clears (hs : s.Locked) (mode : Mode) :
    (launchMetadata mode).Ends s (fun _ _ => True) fun _ t => t.Cleared := by
  unfold launchMetadata
  refine Op.Ends.get_bind (Op.Ends.unless (fun hopen => ?_) fun _ => launch_clears hs mode true)
  exact absurd (hs.isOpen.symm.trans hopen) (by simp)

theorem closeMetadata_clears {α : Type} (result : Except Error α) (s : Session) :
    (closeMetadata result).Ends s (fun _ t => t.Cleared) fun _ t => t.Cleared := by
  unfold closeMetadata
  refine (shut_clears false s).attempt_bind fun closed t ht => ?_
  refine Op.Ends.bind (ofExcept_clears result ht) fun a u hu => ?_
  exact Op.Ends.bind (ofExcept_clears closed hu) fun _ _ h => h

theorem withMetadata_clears {α : Type} (hs : s.Locked) (mode : Mode) (x : Op α) :
    (withMetadata mode x).Ends s (fun _ t => t.Cleared) fun _ t => t.Cleared := by
  refine Op.Ends.bind (launchMetadata_clears hs mode) fun _ t _ => ?_
  -- Whatever was done with the metadata, closing comes behind it.
  refine Op.Ends.attempt_bind (I := fun _ => True) (Op.Ends.any x t) fun result u _ => ?_
  exact closeMetadata_clears result u

/-- A truncation does not come to closing the container where it needs too many zeros at once. -/
theorem truncate_clears (hs : s.Locked) (newSize : Nat) (backup : Bool) :
    (truncate newSize backup).Ends s (fun _ t => t.Cleared)
      fun e t => t.Cleared ∨ s.Breaks e ∧ allocationLimit < newSize := by
  unfold truncate
  refine Op.Ends.get_bind (Op.Ends.ite (fun hopen => ?_) fun _ => ?_)
  · exact absurd (hs.isOpen.symm.trans hopen) (by simp)
  · generalize hmode : (if s.processor.config.streaming then Mode.appendExisting
      else Mode.writeExisting) = mode
    -- in neither mode a file is made, so opening leaves the configuration alone
    have hcreates : mode.createsFile (s.disk.contains s.path) = false := by
      subst hmode
      split <;> rfl
    have hsetup := (launch_keeps (frame_setup s.setup) (detached_setup s.setup) hcreates false).ends
      rfl
    refine Op.Ends.bind (hsetup.and (launch_clears hs mode false)
      |>.mono (fun _ _ => id) fun _ _ ht => .inl ht.2) ?_
    rintro - t ⟨hsetup, -⟩
    have hconfig := config_of_setup hsetup
    refine Op.Ends.get_bind (Op.Ends.unless (fun hlarge => .inr ⟨⟨rfl, ?_⟩, ?_⟩) fun _ => ?_)
    · unfold zerosAtOnce allocationLimit at hlarge
      unfold allocationLimit
      rw [← hconfig]
      omega
    · exact Nat.lt_of_lt_of_le hlarge (Nat.le_trans (zerosAtOnce_le t newSize) (Nat.sub_le _ _))
    refine Op.Ends.attempt_bind (I := fun _ => True) (Op.Ends.any _ t) fun result u _ => ?_
    refine (shut_clears true u).attempt_bind fun closed v hv => ?_
    refine Op.Ends.mono ?_ (fun _ _ => id) fun _ w (hw : w.Cleared) => .inl hw
    exact Op.Ends.bind (ofExcept_clears result hv) fun _ _ hw => ofExcept_clears closed hw

theorem contentSize_clears (hs : s.Locked) :
    contentSize.Ends s (fun _ t => t.Cleared) fun _ t => t.Cleared := by
  unfold contentSize
  refine Op.Ends.get_bind (Op.Ends.ite (fun hopen => ?_) fun _ => withMetadata_clears hs .scan _)
  exact absurd (hs.isOpen.symm.trans hopen) (by simp)

theorem usedSize_clears (hs : s.Locked) :
    usedSize.Ends s (fun _ t => t.Cleared) fun _ t => t.Cleared := by
  unfold usedSize
  refine Op.Ends.get_bind (Op.Ends.ite (fun hopen => ?_) fun _ => withMetadata_clears hs .scan _)
  exact absurd (hs.isOpen.symm.trans hopen) (by simp)

theorem loadStamp_clears (hs : s.Locked) :
    loadStamp.Ends s (fun _ t => t.Cleared) fun _ t => t.Cleared :=
  withMetadata_clears hs .read readStamp

/-- Hashing does not come to closing the container where it breaks off, and only there. -/
theorem hashFile_clears (hs : s.Locked) (kind : StampKind) :
    (hashFile kind).Ends s (fun _ t => t.Cleared) fun e t => t.Cleared ∨ s.Breaks e := by
  refine Op.Ends.bind (((launchMetadata_setup rfl).ends rfl).and (launchMetadata_clears hs .scan)
    |>.mono (fun _ _ => id) fun _ _ ht => .inl ht.2) ?_
  rintro - t ⟨hsetup, -⟩
  have hconfig := config_of_setup hsetup
  refine Op.Ends.bind (hashOpen_allocates kind t).attempt ?_
  -- the three ways hashing ends: no buffer, a digest, or an error; only the first skips the close
  rintro _ u (⟨_ | hasher, rfl, hbroken⟩ | ⟨e, rfl, -⟩)
  · exact .inr ⟨rfl, hconfig ▸ hbroken rfl⟩
  · exact (closeMetadata_clears (.ok hasher) u).mono (fun _ _ => id) fun _ _ => .inl
  · exact (closeMetadata_clears (.error e) u).mono (fun _ _ => id) fun _ _ => .inl

theorem verify_clears (hs : s.Locked) (kind : StampKind) (expected : Bytes) :
    (verify kind expected).Ends s (fun _ t => t.Cleared) fun e t => t.Cleared ∨ s.Breaks e :=
  Op.Ends.bind (hashFile_clears hs kind) fun _ _ ht =>
    (ofExcept_clears _ ht).mono (fun _ _ => id) fun _ _ => .inl

theorem stamp_clears (hs : s.Locked) (kind : StampKind) :
    (stamp kind).Ends s (fun _ t => t.Cleared) fun e t => t.Cleared ∨ s.Breaks e := by
  unfold stamp
  refine Op.Ends.bind (hashFile_clears hs kind) fun hasher t ht => ?_
  -- Behind the hash nothing is left that could break off.
  refine Op.Ends.mono ?_ (fun _ _ => id) fun _ u (hu : u.Cleared) => .inl hu
  refine (loadStamp_clears ht.toLocked).attempt_bind fun loaded u hu => ?_
  refine Op.Ends.bind (ofExcept_clears _ hu) fun _ v hv => ?_
  refine Op.Ends.bind (ofExcept_clears _ hv) fun framed w hw => ?_
  exact withMetadata_clears hw.toLocked .writeExisting (writeStamp framed)

theorem checkStamp_clears (hs : s.Locked) (kind : StampKind) :
    (checkStamp kind).Ends s (fun _ t => t.Cleared) fun e t => t.Cleared ∨ s.Breaks e := by
  unfold checkStamp
  refine Op.Ends.bind ((loadStamp_setup.ends rfl).and (loadStamp_clears hs)
    |>.mono (fun _ _ => id) fun _ _ ht => .inl ht.2) ?_
  rintro stamp t ⟨hsetup, ht⟩
  have hconfig := config_of_setup hsetup
  dsimp only
  split
  · exact .inl ht
  · refine (verify_clears ht.toLocked kind _).mono (fun _ _ => id) fun e _ hu => hu.imp_right ?_
    exact fun hbroken => ⟨hbroken.1, hconfig ▸ hbroken.2⟩

end Container

/-- Is this done on a closed container by opening and closing it? -/
def Demand.isErrand : Demand → Bool
  | .ask (.truncate _ _) | .ask .contentSize | .ask .usedSize => true
  | .hash _ | .verify _ _ | .stamp _ | .checkStamp _ => true
  | _ => false

/-- How large a buffer is asked for at most, when this is the configured size of a block. A
truncation asks for one for zeros, and computing an integrity value for one to read into. -/
def Demand.buffer (block : Nat) : Demand → Nat
  | .ask (.truncate newSize _) => min newSize block
  | .hash _ | .verify _ _ | .stamp _ | .checkStamp _ => block
  | _ => 0

open Session Container

/-- An errand clears, unless it asks for a larger buffer than there can be and breaks off. -/
theorem Demand.run_clears {s : Session} (hs : s.Locked) {demand : Demand}
    (herrand : demand.isErrand = true) :
    demand.run.Ends s (fun _ t => t.Cleared) fun e t =>
      t.Cleared ∨ e = .brokenOff ∧ allocationLimit < demand.buffer s.config.maxProcessingSize := by
  have hanswer {α : Type} {x : Op α} {f : α → Answer} {err : Error → Session → Prop}
      (hx : x.Ends s (fun _ t => t.Cleared) err) :
      (discard (do return f (← x) : Op Answer)).Ends s (fun _ t => t.Cleared) err :=
    Op.Ends.discard (Op.Ends.bind hx fun _ _ ht => ht)
  -- asking for sizes never breaks off
  have hasked {x : Op Unit} (hx : x.Ends s (fun _ t => t.Cleared) fun _ t => t.Cleared) :
      x.Ends s (fun _ t => t.Cleared) fun e t =>
        t.Cleared ∨ e = .brokenOff ∧ allocationLimit < demand.buffer s.config.maxProcessingSize :=
    hx.mono (fun _ _ => id) fun _ _ => .inl
  cases demand with
  | openIn mode => simp [isErrand] at herrand
  | close => simp [isErrand] at herrand
  | ask call =>
    cases call with
    | truncate newSize backup =>
      refine hanswer ((truncate_clears hs newSize backup).mono (fun _ _ => id) fun _ _ ht => ?_)
      exact ht.imp_right fun ⟨hbroken, hlarge⟩ => ⟨hbroken.1, Nat.lt_min.mpr ⟨hlarge, hbroken.2⟩⟩
    | contentSize => exact hasked (hanswer (contentSize_clears hs))
    | usedSize => exact hasked (hanswer (Op.Ends.discard (usedSize_clears hs)))
    | _ => simp [isErrand] at herrand
  | hash kind => exact Op.Ends.discard (hashFile_clears hs kind)
  | verify kind expected => exact verify_clears hs kind expected
  | stamp kind => exact stamp_clears hs kind
  | checkStamp kind => exact checkStamp_clears hs kind

/-- **Whatever is done on a closed container closes it again.** A closed container, new or used for
anything before, is asked for its sizes, for an integrity value, to compare or to put one, or to
change the size of its content, with a backup copy or without. Whatever stands in its file, whatever
calls of the raw file fail, and whether it answers or reports an error: it is closed afterwards,
with no chunk in memory and no keys. Only a run that breaks off does neither. That happens only
where a block is configured that is larger than a buffer can be, and one of this size is asked for
to compute an integrity value or to add as many zeros. -/
theorem errand_closes_again {r s : Session} (hr : r.Made) (h : r.Becomes s)
    (hclosed : s.isOpen = false) {demand : Demand} (herrand : demand.isErrand = true) :
    ((demand.run.after s).isOpen = false ∧ (demand.run.after s).chunksInMemory = 0 ∧
      (demand.run.after s).processor.keys = none) ∨
    (demand.run.error? s = some .brokenOff ∧
      allocationLimit < demand.buffer s.config.maxProcessingSize) := by
  -- clearing is the same fact as the three that are asked of the container
  have hleaves {t : Session} (ht : t.Cleared) :
      t.isOpen = false ∧ t.chunksInMemory = 0 ∧ t.processor.keys = none :=
    ⟨ht.isOpen, ht.chunksInMemory, ht.keyless⟩
  have hruns := Demand.run_clears (h.locked hr hclosed) herrand
  cases hrun : demand.run s with
  | ok a t =>
    rw [Op.after_of_ok hrun]
    exact .inl (hleaves (hruns.of_ok hrun))
  | error e t =>
    rw [Op.after_of_error hrun]
    rcases hruns.of_error hrun with ht | ⟨rfl, hlarge⟩
    · exact .inl (hleaves ht)
    · refine .inr ⟨?_, hlarge⟩
      simp only [Op.error?, hrun]

/-- Putting an authentication code opens the container three times. The second time the descriptor
is not all read, and the third time closing fails. -/
theorem errand_closes_again_struck :
    ∃ r s : Session, r.Made ∧ r.Becomes s ∧ s.isOpen = false ∧
      (Demand.stamp .mac).run.succeeds s = false ∧
      ((Demand.stamp .mac).run.after s).isOpen = false ∧
      ((Demand.stamp .mac).run.after s).chunksInMemory = 0 ∧
      ((Demand.stamp .mac).run.after s).processor.keys = none := by
  let r : Session := pristine "vault" (Processor.ofConfig ⟨[7]⟩ { chunkMax := 2 }) {}
    (Random.seeded 0)
  let made : Session := Demand.close.run.after ((Demand.openIn .writeNew).run.after r)
  let s : Session := { made with faults := [⟨.read, 4, .short⟩, ⟨.close, 2, .fileError⟩] }
  have hr : r.Made := made_pristine rfl
  have hs : r.Becomes s := .around _ made.disk made.random (.asked _ (.asked _ .start))
  have hclosed : s.isOpen = false := by decide +kernel
  have hfails : (Demand.stamp .mac).run.succeeds s = false := by decide +kernel
  have hsmall : ¬allocationLimit < (Demand.stamp .mac).buffer s.config.maxProcessingSize := by
    decide +kernel
  exact ⟨r, s, hr, hs, hclosed, hfails,
    (errand_closes_again hr hs hclosed rfl).resolve_right fun hbroken => hsmall hbroken.2⟩

end Vault
