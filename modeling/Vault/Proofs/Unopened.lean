import Vault.Proofs.Clean
import Vault.Proofs.Resting

/-!
# `Vault/Proofs/Unopened.lean` — what is left when opening fails

Opening puts a container into another state bit by bit, and it can fail at each of them. Whatever
is reached by then is undone by closing. But the mode is settled before the raw file is opened, and
where that fails there is nothing to close. So **a container that could not be opened is the closed
one it was, but that it still tells the mode of the attempt if its raw file could not be opened**
(`failed_open_leaves`).

Nothing else comes of that mode. A closed container asks for it only to tell it, and opening
replaces it, so whatever is demanded of such a lookalike is answered as if it were the closed
container itself (`Lookalike.replyAll`).
-/

set_option autoImplicit false

namespace Vault

/-! ## What demands answer

`Demand.run` asks and forgets the answer. Here the answers matter, because they are what two
containers could be told apart by. -/

/-- Asks, and tells what is answered. -/
def Demand.reply : Demand → Op Answer
  | .openIn mode => do Container.openIn mode; return .done
  | .close => do Container.close; return .done
  | .ask .usedSize => do return .number (← Container.usedSize)
  | .ask call => call.run
  | .hash kind => do return .data (← Container.hashFile kind).finish
  | .verify kind expected => do Container.verify kind expected; return .done
  | .stamp kind => do Container.stamp kind; return .done
  | .checkStamp kind => do Container.checkStamp kind; return .done

/-- Asks for one thing after the other. -/
def Demand.replyAll : List Demand → Op (List (Except Error Answer))
  | [] => return []
  | demand :: demands => do
    let answer ← Op.attempt demand.reply
    return answer :: (← replyAll demands)

/-! ## Lookalikes

Two states are lookalikes if they are the same but for the mode of a closed container. `Op.Blind`
says of a computation that it answers both alike and leaves lookalikes; it goes through `bind`
and through a caught error. -/

namespace Session

/-- The container with another mode. -/
def inMode (s : Session) (mode : Mode) (useCache : Bool) : Session := { s with mode, useCache }

@[simp] theorem isOpen_inMode (s : Session) (mode : Mode) (useCache : Bool) :
    (s.inMode mode useCache).isOpen = s.isOpen := rfl

@[simp] theorem processor_inMode (s : Session) (mode : Mode) (useCache : Bool) :
    (s.inMode mode useCache).processor = s.processor := rfl

/-- A closed container in another mode, or just the same container. -/
inductive Lookalike (s : Session) : Session → Prop where
  | same : Lookalike s s
  | other (mode : Mode) (useCache : Bool) (closed : s.isOpen = false)
      (unpooled : s.pool.entries = []) : Lookalike s (s.inMode mode useCache)

/-- The world may change around both. -/
theorem Lookalike.around {s t : Session} (h : s.Lookalike t) (faults : List Fault) (disk : Disk)
    (random : Random) :
    Lookalike { s with faults, disk, random } { t with faults, disk, random } := by
  obtain _ | ⟨mode, useCache, hclosed, hunpooled⟩ := h
  · exact .same
  · exact .other mode useCache hclosed hunpooled

end Session

namespace Op

open Session

variable {α β : Type} {x : Op α} {f : α → Op β} {s t : Session}

/-- Two runs that come to the same, and what they leave are lookalikes. -/
inductive Same : (r r' : EStateM.Result Error Session α) → Prop where
  | ok (a : α) {s t : Session} (like : s.Lookalike t) :
      Same (EStateM.Result.ok a s) (EStateM.Result.ok a t)
  | error (e : Error) {s t : Session} (like : s.Lookalike t) :
      Same (EStateM.Result.error e s) (EStateM.Result.error e t)

section
variable {f : Session → Op α} {x y x' y' : Op α} {c c' : Prop} [Decidable c] [Decidable c']

theorem Same.get_bind (h : Same (f s s) (f t t)) :
    Same (((get : Op Session) >>= f) s) (((get : Op Session) >>= f) t) := h

theorem Same.pos (hc : c) (hc' : c') (h : Same (x s) (x' t)) :
    Same ((if c then x else y) s) ((if c' then x' else y') t) := by
  rwa [if_pos hc, if_pos hc']

theorem Same.neg (hc : ¬c) (hc' : ¬c') (h : Same (y s) (y' t)) :
    Same ((if c then x else y) s) ((if c' then x' else y') t) := by
  rwa [if_neg hc, if_neg hc']

end

/-- The computation does not tell one container from the other. -/
def Blind (x : Op α) (s t : Session) : Prop := Same (x s) (x t)

theorem Blind.of_eq (h : x t = x s) : x.Blind s t := by
  unfold Blind
  rw [h]
  cases x s with
  | ok a s' => exact .ok a .same
  | error e s' => exact .error e .same

theorem Blind.pure (h : s.Lookalike t) (a : α) : (Pure.pure a : Op α).Blind s t := .ok a h

theorem Blind.bind (hx : x.Blind s t)
    (hf : ∀ a s' t', s'.Lookalike t' → (f a).Blind s' t') : (x >>= f).Blind s t := by
  unfold Blind at hx ⊢
  simp only [Bind.bind, EStateM.bind]
  generalize x s = r, x t = r' at hx ⊢
  cases hx with
  | ok a hlike => exact hf a _ _ hlike
  | error e hlike => exact .error e hlike

theorem Blind.map (hx : x.Blind s t) (g : α → β) : (do return g (← x)).Blind s t :=
  hx.bind fun _ _ _ hlike => .pure hlike _

theorem Blind.attempt (hx : x.Blind s t) : (Op.attempt x).Blind s t := by
  simp only [Blind, Op.attempt] at hx ⊢
  generalize x s = r, x t = r' at hx ⊢
  cases hx with
  | ok a hlike => exact .ok (Except.ok a) hlike
  | error e hlike => exact .ok (Except.error e) hlike

theorem Blind.answer?_eq (hx : x.Blind s t) : x.answer? t = x.answer? s := by
  unfold Blind at hx
  unfold answer?
  generalize x s = r, x t = r' at hx ⊢
  cases hx with
  | ok a _ => rfl
  | error e _ => rfl

/-- Runs that begin as the same run go on as the same run. -/
theorem bind_eq_of_eq (h : x t = x s) : (x >>= f) t = (x >>= f) s := by
  simp only [Bind.bind, EStateM.bind, h]

end Op

namespace Container

open Session Op

variable {s t : Session} {mode : Mode} {useCache : Bool}

/-! ## What does not ask for the mode

The mode is read only where something is open, or after it was replaced. Each operation is looked
at once, up to the check that refuses it on a closed container. -/

/-- Opening replaces whatever is known of the content. -/
theorem launch_inMode (wanted : Mode) (metadataOnly : Bool) :
    launch wanted metadataOnly (s.inMode mode useCache) = launch wanted metadataOnly s := rfl

theorem openIn_blind (hclosed : s.isOpen = false) (hunpooled : s.pool.entries = [])
    (wanted : Mode) : (openIn wanted).Blind s (s.inMode mode useCache) := by
  have hlike : s.Lookalike (s.inMode mode useCache) := .other mode useCache hclosed hunpooled
  have hopen := ne_true_of_eq_false hclosed
  refine Same.get_bind (Same.neg hopen hopen ?_)
  by_cases hrefused : (s.processor.config.streaming && !wanted.allowsStreaming) = true
  · exact Same.pos hrefused hrefused (.error .streamMode hlike)
  · exact Same.neg hrefused hrefused (Blind.of_eq (launch_inMode wanted false))

theorem close_blind (hclosed : s.isOpen = false) (hunpooled : s.pool.entries = []) :
    close.Blind s (s.inMode mode useCache) := by
  have hopen := ne_true_of_eq_false hclosed
  exact Same.get_bind (Same.neg hopen hopen (.ok () (.other mode useCache hclosed hunpooled)))

theorem launchMetadata_inMode (hclosed : s.isOpen = false) (wanted : Mode) :
    launchMetadata wanted (s.inMode mode useCache) = launchMetadata wanted s := by
  simp [launchMetadata, bind, EStateM.bind, hclosed, launch_inMode]

theorem withMetadata_inMode (hclosed : s.isOpen = false) {α : Type} (wanted : Mode) (x : Op α) :
    withMetadata wanted x (s.inMode mode useCache) = withMetadata wanted x s :=
  bind_eq_of_eq (launchMetadata_inMode hclosed wanted)

theorem hashFile_inMode (hclosed : s.isOpen = false) (kind : StampKind) :
    hashFile kind (s.inMode mode useCache) = hashFile kind s :=
  bind_eq_of_eq (launchMetadata_inMode hclosed .scan)

theorem truncate_blind (hclosed : s.isOpen = false) (newSize : Nat) (backup : Bool) :
    (truncate newSize backup).Blind s (s.inMode mode useCache) := by
  have hopen := ne_true_of_eq_false hclosed
  exact Same.get_bind (Same.neg hopen hopen (Blind.of_eq (bind_eq_of_eq (launch_inMode _ false))))

theorem contentSize_blind (hclosed : s.isOpen = false) :
    contentSize.Blind s (s.inMode mode useCache) := by
  have hopen := ne_true_of_eq_false hclosed
  exact Same.get_bind (Same.neg hopen hopen (Blind.of_eq (withMetadata_inMode hclosed .scan _)))

theorem usedSize_blind (hclosed : s.isOpen = false) :
    usedSize.Blind s (s.inMode mode useCache) := by
  have hopen := ne_true_of_eq_false hclosed
  exact Same.get_bind (Same.neg hopen hopen (Blind.of_eq (withMetadata_inMode hclosed .scan _)))

/-- What is for open containers only is refused. -/
theorem ensureOpen_blind {α : Type} {x : Op α} (hclosed : s.isOpen = false)
    (hlike : s.Lookalike (s.inMode mode useCache)) :
    (show Op α from do ensureOpen; x).Blind s (s.inMode mode useCache) := by
  unfold ensureOpen Blind
  simp only [bind, EStateM.bind, get_run, isOpen_inMode, hclosed, Bool.not_false, if_true]
  exact .error .notOpen hlike

theorem setMaxCached_blind (hclosed : s.isOpen = false) (hunpooled : s.pool.entries = [])
    (count : Nat) : (setMaxCached count).Blind s (s.inMode mode useCache) := by
  have hevicted : (s.pool.setCapacity (max count 1)).1 = [] := by
    simp [Pool.setCapacity, hunpooled]
  have hempty : (s.pool.setCapacity (max count 1)).2.entries = [] := by
    simp [Pool.setCapacity, hunpooled]
  let t : Session := { s with
    config.maxCachedChunks := max count 1, pool := (s.pool.setCapacity (max count 1)).2 }
  have hlike : t.Lookalike (t.inMode mode useCache) := .other mode useCache hclosed hempty
  have hevicts : (flushEvicted (s.pool.setCapacity (max count 1)).1).Blind t
      (t.inMode mode useCache) := by
    rw [hevicted]
    exact .pure hlike ()
  exact Same.get_bind hevicts

theorem setCacheEnabled_blind (hclosed : s.isOpen = false) (hunpooled : s.pool.entries = [])
    (enabled : Bool) : (setCacheEnabled enabled).Blind s (s.inMode mode useCache) := by
  have hopen := ne_true_of_eq_false hclosed
  exact Same.neg hopen hopen (Same.ok () (.other mode useCache hclosed hunpooled))

end Container

open Session Container

theorem Call.run_blind {s : Session} {mode : Mode} {useCache : Bool} (hclosed : s.isOpen = false)
    (hunpooled : s.pool.entries = []) (call : Call) :
    call.run.Blind s (s.inMode mode useCache) := by
  have hlike : s.Lookalike (s.inMode mode useCache) := .other mode useCache hclosed hunpooled
  cases call with
  -- what is for open containers only is refused before the mode is asked for
  | seek pos => exact Op.Blind.map (ensureOpen_blind hclosed hlike) _
  | read n =>
    refine Op.Blind.map ?_ _
    unfold Container.read
    by_cases hn : n = 0
    · rw [if_pos hn]
      exact .pure hlike []
    · rw [if_neg hn]
      exact ensureOpen_blind hclosed hlike
  | write data =>
    refine Op.Blind.map ?_ _
    unfold Container.write
    by_cases hdata : data = []
    · rw [if_pos hdata]
      exact .pure hlike 0
    · rw [if_neg hdata]
      exact ensureOpen_blind hclosed hlike
  | truncate newSize backup => exact Op.Blind.map (truncate_blind hclosed newSize backup) _
  | contentSize => exact Op.Blind.map (contentSize_blind hclosed) _
  | position => exact Op.Same.ok _ hlike
  -- flushing does nothing on a closed container, in both
  | flush deep =>
    refine Op.Blind.map (Op.Same.get_bind (Op.Same.neg ?_ ?_ (.ok () hlike))) _
    · simp [hclosed]
    · simp [hclosed]
  | sync => exact Op.Blind.map (ensureOpen_blind hclosed hlike) _
  | fsync => exact Op.Blind.map (ensureOpen_blind hclosed hlike) _
  | usedSize => exact Op.Blind.map (Op.Blind.map (usedSize_blind hclosed) fun _ => ()) _
  | invalidate => exact Op.Blind.map (ensureOpen_blind hclosed hlike) _
  | setMaxCached count => exact Op.Blind.map (setMaxCached_blind hclosed hunpooled count) _
  | setCacheEnabled enabled =>
    exact Op.Blind.map (setCacheEnabled_blind hclosed hunpooled enabled) _
  | setBlock size => exact Op.Same.ok _ (.other mode useCache hclosed hunpooled)

/-- One demand. -/
theorem Demand.reply_blind {s t : Session} (h : s.Lookalike t) (demand : Demand) :
    demand.reply.Blind s t := by
  obtain _ | ⟨mode, useCache, hclosed, hunpooled⟩ := h
  · exact .of_eq rfl
  cases demand with
  | openIn wanted => exact Op.Blind.map (openIn_blind hclosed hunpooled wanted) _
  | close => exact Op.Blind.map (close_blind hclosed hunpooled) _
  | ask call =>
    cases call with
    | usedSize => exact Op.Blind.map (usedSize_blind hclosed) _
    | _ =>
      simp only [reply]
      exact Call.run_blind hclosed hunpooled _
  | hash kind => exact Op.Blind.map (.of_eq (hashFile_inMode hclosed kind)) _
  | verify kind expected =>
    exact Op.Blind.map (.of_eq (Op.bind_eq_of_eq (hashFile_inMode hclosed kind))) _
  | stamp kind =>
    exact Op.Blind.map (.of_eq (Op.bind_eq_of_eq (hashFile_inMode hclosed kind))) _
  | checkStamp kind =>
    exact Op.Blind.map (.of_eq (Op.bind_eq_of_eq (withMetadata_inMode hclosed .read _))) _

/-- **A lookalike answers everything as the container itself does.** Induction on the demands: what
one of them leaves are lookalikes again. -/
theorem Session.Lookalike.replyAll {s t : Session} (h : s.Lookalike t) (demands : List Demand) :
    (Demand.replyAll demands).Blind s t := by
  induction demands generalizing s t with
  | nil => exact .pure h []
  | cons demand demands ih =>
    refine Op.Blind.bind (Demand.reply_blind h demand).attempt fun answer s' t' hlike => ?_
    exact Op.Blind.map (ih hlike) _

/-! ## What a failed opening leaves

Where opening stops decides what is left. `Session.bars` names the one place that nothing is
undone behind: the mode is set, and `openAs` fails. -/

namespace Session

variable {s t : Session} {mode : Mode}

/-- The container in the world of another session, with what was noted of it there. -/
def amid (s t : Session) : Session :=
  { s with faults := t.faults, trace := t.trace, disk := t.disk, random := t.random }

/-- The container with something else known of its content. -/
def knowing (s : Session) (o : Opening) : Session := { s with toOpening := o }

/-- The container as it is when its raw file is about to be opened. -/
def tried (s : Session) (mode : Mode) : Session :=
  s.inMode mode (Container.cachePolicy { s.toContainer with mode })

/-- Is the mode allowed, but the raw file cannot be opened for it? -/
def bars (s : Session) (mode : Mode) : Bool :=
  (!s.processor.config.streaming || mode.allowsStreaming) && !s.admits mode

/-- A container that nobody uses: a new one, or one that was closed. The world may have changed. -/
inductive Unused : Session → Prop where
  | made {s : Session} (made : s.Made) : Unused s
  | closed {s t : Session} (isOpen : s.isOpen = true) (close : Container.close s = .ok () t) :
      Unused t
  | around {s : Session} (faults : List Fault) (disk : Disk) (random : Random)
      (before : Unused s) : Unused { s with faults, disk, random }

theorem Unused.atRest (h : s.Unused) : s.AtRest := by
  induction h with
  | made h => exact h.atRest
  | @closed s t hopen hclose =>
    have hshut : Container.close s = Container.shut true s := by
      simp [Container.close, bind, EStateM.bind, hopen]
    exact ((Container.shut_rests true s).of_ok (hshut ▸ hclose)).1
  | around _ _ _ _ ih => exact ⟨ih.closed, ih.forgotten, ih.unpooled, ih.processor⟩

/-- Closed containers that are set up alike differ in what they know of the content. -/
theorem eq_of_setup (hs : s.AtRest) (hclosed : t.handle = none) (hunpooled : t.pool.entries = [])
    (hprocessor : t.processor = s.processor) (hsetup : t.setup = s.setup) :
    t = (s.amid t).knowing t.toOpening := by
  have hpath : t.path = s.path := congrArg Setup.path hsetup
  have hconfig := config_of_setup hsetup
  have hpool : t.pool = s.pool := by
    have hcapacity : t.pool.capacity = s.pool.capacity := congrArg Setup.capacity hsetup
    have hentries : t.pool.entries = s.pool.entries := hunpooled.trans hs.unpooled.symm
    exact (Pool.mk.injEq ..).mpr ⟨hentries, hcapacity⟩
  have hhandle : t.handle = s.handle := hclosed.trans hs.closed.symm
  simp only [knowing, amid, ← hpath, ← hprocessor, ← hconfig, ← hpool, ← hhandle]

theorem AtRest.processor_eq (hs : s.AtRest) (ht : t.AtRest) (hsetup : t.setup = s.setup) :
    t.processor = s.processor := by
  rw [← ht.processor, ← hs.processor]
  exact congrArg Setup.processor hsetup

theorem AtRest.eq_amid (hs : s.AtRest) (ht : t.AtRest) (hsetup : t.setup = s.setup) :
    t = s.amid t := by
  refine (eq_of_setup hs ht.closed ht.unpooled (hs.processor_eq ht hsetup) hsetup).trans ?_
  rw [ht.forgotten, ← hs.forgotten]
  rfl

theorem Unopened.eq_tried (hs : s.AtRest) (ht : t.Unopened mode) (hsetup : t.setup = s.setup)
    (hprocessor : t.processor = s.processor) : t = (s.amid t).tried mode := by
  have hmode : t.mode = mode := congrArg Opening.mode ht.attempted
  have hconfig := config_of_setup hsetup
  have hpolicy : t.cachePolicy = Container.cachePolicy { s.toContainer with mode } := by
    simp only [Container.cachePolicy, hmode, hconfig, hprocessor]
  have htried : (s.amid t).tried mode = (s.amid t).knowing { s.toOpening with
    mode, useCache := Container.cachePolicy { s.toContainer with mode } } := rfl
  refine (eq_of_setup hs ht.closed ht.unpooled hprocessor hsetup).trans ?_
  rw [htried, ht.attempted, hpolicy, hs.forgotten]

theorem AtRest.lookalike_tried (hs : s.AtRest) (mode : Mode) (t : Session) :
    (s.amid t).Lookalike ((s.amid t).tried mode) :=
  .other mode _ (hs.cleared.isOpen) hs.unpooled

end Session

namespace Container

open Session

variable {s s' : Session} {mode : Mode} {e : Error}

/-- **A container that could not be opened is at rest, unless its raw file could not be.** -/
theorem openIn_fails (hs : s.AtRest) (mode : Mode) :
    (openIn mode).Ends s (fun _ _ => True) fun _ t =>
      t.setup = s.setup ∧
        if s.bars mode then t.Unopened mode ∧ t.processor = s.processor else t.AtRest := by
  have hclosed : ¬s.isOpen = true := by simp [hs.cleared.isOpen]
  unfold openIn
  refine Op.Ends.get_bind (Op.Ends.unless (fun hopen => absurd hopen hclosed) fun _ => ?_)
  refine Op.Ends.unless (fun hrefused => ?_) fun hallowed => ?_
  · -- the mode is refused first, and then nothing was done
    have hbars : s.bars mode = false := by
      simp only [Bool.and_eq_true, Bool.not_eq_true'] at hrefused
      simp [bars, hrefused]
    rw [hbars]
    exact ⟨rfl, hs⟩
  · have hbars : s.bars mode = !s.admits mode := by
      simp only [Bool.and_eq_true, Bool.not_eq_true', not_and, Bool.not_eq_false] at hallowed
      cases hstreaming : s.processor.config.streaming with
      | false => simp [bars, hstreaming]
      | true => simp [bars, hallowed hstreaming]
    rw [hbars]
    refine (launch_fails hs.closed mode false).mono (fun _ _ _ => trivial) fun _ t ht => ?_
    -- `launch_fails` draws the same line
    cases hadmits : s.admits mode with
    | true =>
      rw [hadmits] at ht
      exact ht
    | false =>
      rw [hadmits] at ht
      exact ht

/-- In a mode that makes no file, no file is changed. -/
theorem disk_of_openIn (hmode : mode.createsFile (s.disk.contains s.path) = false)
    (hrun : openIn mode s = .error e s') : s'.disk = s.disk := by
  have hopens : (openIn mode).Ends s (fun _ _ => True) fun _ t => t.disk = s.disk := by
    unfold openIn
    refine Op.Ends.get_bind (Op.Ends.unless (fun _ => rfl) fun _ => ?_)
    refine Op.Ends.unless (fun _ => rfl) fun _ => ?_
    refine (Op.Ends.self (launch mode false) s).mono (fun _ _ _ => trivial) fun _ t hlaunch => ?_
    have huntouched := launch_untouched hmode false
    rw [Op.after_of_error hlaunch] at huntouched
    exact huntouched.2.1
  exact hopens.of_error hrun

end Container

open Session Container

/-- **A container that could not be opened is the closed one it was, but for its mode.** A container
that is new, or was closed, is opened, in any mode, with whatever stands on the disk and whatever
calls fail, and that fails. Then it is closed and knows nothing of a content, no chunk is in memory,
and its processor is the one it was, without keys. Only if the mode was allowed and the raw file
could not be opened, the container still tells that mode. Whatever is demanded of it from then on is
answered as by the closed container it was. And if the mode makes no file, no file was changed. -/
theorem failed_open_leaves {s s' : Session} {mode : Mode} {e : Error} (h : s.Unused)
    (hrun : openIn mode s = .error e s') :
    s' = (if s.bars mode then (s.amid s').tried mode else s.amid s') ∧
      s'.isOpen = false ∧ s'.pos = 0 ∧ s'.size = 0 ∧ s'.ciphertextSize = 0 ∧
      s'.sizeDirty = false ∧ s'.chunksInMemory = 0 ∧
      s'.processor = s.processor ∧ s'.processor.keys = none ∧
      (s'.mode = .scan ↔ mode = .scan ∨ s.bars mode = false) ∧
      (mode.createsFile (s.disk.contains s.path) = false → s'.disk = s.disk) ∧
      ∀ (demands : List Demand) (faults : List Fault) (disk : Disk) (random : Random),
        (Demand.replyAll demands).answer? { s' with faults, disk, random }
          = (Demand.replyAll demands).answer? { s.amid s' with faults, disk, random } := by
  have hs := h.atRest
  obtain ⟨hsetup, hstate⟩ := (openIn_fails hs mode).of_error hrun
  obtain ⟨hleft, hlike, hprocessor, hcleared, hopening, hmode⟩ :
      s' = (if s.bars mode then (s.amid s').tried mode else s.amid s') ∧
      (s.amid s').Lookalike s' ∧ s'.processor = s.processor ∧ s'.Cleared ∧
      s'.toOpening = { mode := s'.mode, useCache := s'.useCache } ∧
      (s'.mode = .scan ↔ mode = .scan ∨ s.bars mode = false) := by
    -- both cases give the same list of facts, from the state that the attempt ended in
    cases hbars : s.bars mode with
    | true =>
      rw [hbars, if_pos rfl] at hstate
      obtain ⟨htried, hprocessor⟩ := hstate
      have hleft := htried.eq_tried hs hsetup hprocessor
      have hcleared := htried.cleared (hprocessor ▸ hs.cleared.keyless)
      have hmode : s'.mode = mode := congrArg Opening.mode htried.attempted
      have hcache : s'.useCache = s'.cachePolicy := congrArg Opening.useCache htried.attempted
      refine ⟨hleft, hleft ▸ hs.lookalike_tried mode s', hprocessor, hcleared, ?_, ?_⟩
      · rw [hmode, hcache]
        exact htried.attempted
      · rw [hmode]
        simp
    | false =>
      rw [hbars] at hstate
      have hrest : s'.AtRest := hstate
      have hleft := hs.eq_amid hrest hsetup
      have hmode : s'.mode = .scan := congrArg Opening.mode hrest.forgotten
      have hcache : s'.useCache = false := congrArg Opening.useCache hrest.forgotten
      refine ⟨hleft, hleft ▸ .same, hs.processor_eq hrest hsetup, hrest.cleared, ?_, ?_⟩
      · rw [hmode, hcache]
        exact hrest.forgotten
      · simp [hmode]
  refine ⟨hleft, hcleared.isOpen, congrArg Opening.seekCursor hopening,
    congrArg Opening.size hopening, congrArg Opening.ciphertextSize hopening,
    congrArg Opening.sizeDirty hopening, hcleared.chunksInMemory, hprocessor, hcleared.keyless,
    hmode, fun hmode => disk_of_openIn hmode hrun, fun demands faults disk random => ?_⟩
  -- the container before the attempt and after it are lookalikes in whatever world comes next
  exact ((hlike.around faults disk random).replyAll demands).answer?_eq

/-- A new container is opened for reading, and there is no file. -/
theorem failed_open_leaves_missing :
    ∃ s s' : Session, s.Unused ∧ openIn .read s = .error (.file .notFound) s' ∧
      s.mode = .scan ∧ s'.mode = .read ∧ s'.isOpen = false ∧ s'.disk = s.disk ∧
      s'.processor.keys = none := by
  let s : Session := pristine "vault" (Processor.ofConfig ⟨[7]⟩ { chunkMax := 2 }) {}
    (Random.seeded 0)
  have hs : s.Unused := .made (made_pristine rfl)
  have hrun : openIn .read s = .error (.file .notFound) ((openIn .read).after s) :=
    Op.error_of_error? (by decide +kernel)
  have hbars : s.bars .read = true := by decide +kernel
  obtain ⟨hleft, hclosed, -, -, -, -, -, -, hkeys, -, hdisk, -⟩ := failed_open_leaves hs hrun
  rw [hbars, if_pos rfl] at hleft
  exact ⟨s, _, hs, hrun, rfl, congrArg (fun t : Session => t.mode) hleft, hclosed, hdisk rfl, hkeys⟩

end Vault
