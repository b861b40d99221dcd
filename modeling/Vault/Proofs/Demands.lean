import Vault.Proofs.Calls
import Vault.Proofs.Thrift
import Vault.Container.Stamps

/-!
# `Vault/Proofs/Demands.lean` — the memory of a container in use

Everything that can be asked of a container, open or closed, as data (`Demand`). **Whatever is
asked, in whatever order, and wherever it fails, a container holds at most as many chunks in memory
as it may, none of them twice, and at most one where chunks are not kept** (`memory_is_bounded`).

Between demands a container is thrifty, or closed with nothing in memory (`Session.Fair`), and then
it has no keys but those that its processor came with. A closed container is opened and closed again
by some demands on the way; what was kept is forgotten then, so nothing has to be known about it.

Each function has a lemma here, named for what is kept: `_thrifty` for an open container, and
`_fair` where it may be closed before, afterwards or on the way. Most of them follow the text of the
function.
-/

set_option autoImplicit false

namespace Vault

namespace Session

/-- A closed container with nothing in memory, and with no keys but some that it came with. -/
structure Vacated (keys : Option WorkingKeys) (s : Session) : Prop where
  closed : s.handle = none
  empty : s.memory = []
  room : 0 < s.pool.capacity
  unkeyed : s.processor.keys = none ∨ s.processor.keys = keys

/-- A container between demands. -/
def Fair (keys : Option WorkingKeys) (s : Session) : Prop := s.Thrifty s.mode ∨ s.Vacated keys

variable {keys : Option WorkingKeys} {s : Session} {mode : Mode}

theorem Thrifty.fair (h : s.Thrifty mode) : s.Fair keys := .inl (h.mode ▸ h)

theorem Vacated.fair (h : s.Vacated keys) : s.Fair keys := .inr h

theorem Vacated.not_isOpen (h : s.Vacated keys) : s.isOpen = false := by
  simp [Container.isOpen, h.closed]

theorem Fair.thrifty (h : s.Fair keys) (hopen : s.isOpen = true) : s.Thrifty s.mode :=
  h.resolve_right fun hs => by simp [hs.not_isOpen] at hopen

theorem Fair.vacated (h : s.Fair keys) (hopen : ¬s.isOpen = true) : s.Vacated keys :=
  h.resolve_left fun hs => hopen hs.isOpen

/-- The world around a container may change. -/
theorem Fair.around (h : s.Fair keys) (faults : List Fault) (disk : Disk) (random : Random) :
    Fair keys { s with faults, disk, random } := by
  rcases h with h | h
  · exact .inl (h.beside rfl rfl rfl rfl h.isOpen)
  · exact .inr ⟨h.closed, h.empty, h.room, h.unkeyed⟩

theorem Thrifty.capacity_pos (h : s.Thrifty mode) : 0 < s.pool.capacity :=
  Nat.lt_of_le_of_lt (Nat.zero_le _) h.room

end Session

namespace Op

open Session

variable {α : Type} {keys : Option WorkingKeys} {x : Op α} {P : α → Prop} {s : Session}

/-- A demand that is for open containers only. -/
theorem Keeps.fair (hx : ∀ mode, x.Keeps (Thrifty mode) P s)
    (hclosed : s.isOpen = false → x.after s = s) : x.Keeps (Fair keys) (fun _ => True) s := by
  rintro (hs | hs)
  · exact Ends.mono (hx _ hs) (fun _ _ h => ⟨trivial, h.2.fair⟩) fun _ _ h => h.fair
  · have hsame := hclosed hs.not_isOpen
    cases hrun : x s with
    | ok a t => rw [after_of_ok hrun] at hsame; exact ⟨trivial, hsame ▸ hs.fair⟩
    | error e t => rw [after_of_error hrun] at hsame; exact hsame ▸ hs.fair

end Op

namespace Raw

open Session

variable {s : Session}

/-- The raw file is closed whatever happens. -/
theorem close_vacates {I : Session → Prop} (hI : Ambient I) (hout : Detached I) (hs : I s) :
    close.Ends s (fun _ t => t.handle = none ∧ I t) fun _ t => t.handle = none ∧ I t := by
  refine Op.Ends.keeping ?_ (close_keeps hI hout) hs
  unfold close
  refine Op.Ends.bind (P := fun _ _ => True) trivial fun _ t _ => ?_
  refine Op.Ends.bind (P := fun _ _ => True) ?_ fun met u _ => ?_
  · exact (Op.Ends.any _ t).attempt.mono (fun _ _ _ => trivial) fun _ _ => False.elim
  · refine Op.Ends.modify_bind (Op.Ends.discard ?_)
    exact Op.Ends.ofExcept (fun _ _ => rfl) fun _ _ => rfl

/-- A raw file is open if opening it answers, and not if it does not. -/
theorem openAs_opens (hclosed : s.handle = none) (mode : Mode) :
    (openAs mode).Ends s (fun _ t => t.isOpen = true) fun _ t => t.handle = none := by
  have hexisting (writable : Bool) {t : Session} (ht : t.handle = none) :
      (openExisting writable).Ends t (fun _ u => u.isOpen = true) fun _ u => u.handle = none := by
    unfold openExisting
    refine Op.Ends.get_bind ?_
    cases t.disk.find? t.path with
    | none => exact ht
    | some file => exact rfl
  have hcreated {t : Session} (ht : t.handle = none) :
      openCreated.Ends t (fun _ u => u.isOpen = true) fun _ u => u.handle = none := by
    unfold openCreated
    refine Op.Ends.get_bind ?_
    split
    · exact rfl
    · exact ht
  unfold openAs
  refine Op.Ends.bind (P := fun _ t => t.handle = none) hclosed fun _ t ht => ?_
  refine Op.Ends.bind (P := fun _ u => u.handle = none) (Op.Ends.mono
    ((meetFault_keeps_of id).discard ht) (fun _ _ h => h.2) fun _ _ => id) fun _ u hu => ?_
  refine Op.Ends.get_bind (Op.Ends.unless (fun _ => hu) fun _ => ?_)
  cases mode with
  | write =>
    dsimp only
    split
    · exact rfl
    · exact hcreated hu
  | writeNew =>
    dsimp only
    split
    · exact hu
    · exact hcreated hu
  | _ => exact hexisting _ hu

end Raw

namespace Container

open Session

variable {keys : Option WorkingKeys} {I : Session → Prop} {s : Session} {mode : Mode}

/-! ## Closing and opening

A closed container needs no more than room for one chunk, so that is all that has to be carried
through flushing, which may fail anywhere. -/

/-- The raw file of an open container is closed even if flushing fails. -/
theorem closeRaw_vacates {I : Session → Prop} (hI : Ambient I) (hout : Detached I) (flush : Bool)
    (hflush : s.isOpen = true →
      (flushAll (some false)).Ends s (fun _ t => I t) fun _ t => I t) (hs : I s) :
    (closeRaw flush).Ends s (fun _ t => t.handle = none ∧ I t)
      fun _ t => t.handle = none ∧ I t := by
  -- closing the raw file comes after flushing, and happens whatever came of that
  have hclose (flushed : Except Error Unit) {t : Session} (ht : I t) : Op.Ends (do
      let closed ← Op.attempt Raw.close
      Op.ofExcept flushed
      Op.ofExcept closed) t (fun _ u => u.handle = none ∧ I u)
        (fun _ u => u.handle = none ∧ I u) := by
    refine (Raw.close_vacates hI hout ht).attempt_bind fun closed u hu => ?_
    refine Op.Ends.bind (P := fun _ v => v.handle = none ∧ I v) ?_ fun _ v hv => ?_
    · exact Op.Ends.ofExcept (fun _ _ => hu) fun _ _ => hu
    · exact Op.Ends.ofExcept (fun _ _ => hv) fun _ _ => hv
  unfold closeRaw
  refine Op.Ends.get_bind (Op.Ends.ite (fun hopen => ?_) fun hclosed => ?_)
  · cases flush with
    | false => exact hclose (.ok ()) hs
    | true => exact (hflush hopen).attempt_bind fun flushed t ht => hclose flushed ht
  · exact ⟨by simpa [Container.isOpen] using hclosed, hs⟩

/-- **Closing leaves nothing in memory,** whatever fails. -/
theorem shut_vacates (flush : Bool) (hs : s.Fair keys) :
    (shut flush).Ends s (fun _ t => t.Vacated keys) fun _ t => t.Vacated keys := by
  let Room (t : Session) : Prop := 0 < t.pool.capacity
  have hroom : Ambient Room :=
    { faults := fun _ h => h, handle := fun _ h => h, noted := fun _ h => h }
  have hhas : Room s := by
    rcases hs with hs | hs
    · exact hs.capacity_pos
    · exact hs.room
  have hflush (hopen : s.isOpen = true) : (flushAll (some false)).Ends s
      (fun _ t => Room t) fun _ t => Room t := by
    have hkeeps : (flushAll (some false)).Keeps (Thrifty s.mode) (fun _ => True) s :=
      Op.Keeps.thrifty fun _ => flushAll_works _
    exact (hkeeps.ends (hs.thrifty hopen)).mono (fun _ _ h => h.capacity_pos)
      fun _ _ h => h.capacity_pos
  unfold shut
  refine (closeRaw_vacates hroom ⟨id, fun _ => id⟩ flush hflush hhas).attempt_bind
    fun closed t ht => ?_
  refine Op.Ends.bind (P := fun _ u => u.Vacated keys) ⟨ht.1, rfl, ht.2, .inl rfl⟩
    fun _ u hu => ?_
  exact Op.Ends.ofExcept (fun _ _ => hu) fun _ _ => hu

theorem createLayout_thrifty : createLayout.Keeps (Thrifty mode) (fun _ => True) s := by
  have hrest (made : Bytes × Processor) {t : Session}
      (hmade : made.2.config = t.processor.config) : Op.Keeps (do
        modify fun s => { s with processor := made.2 }
        writeAt 0 made.1
        modify fun s => { s with layout := made.2.layout made.1.length }
        moveTo 0 0
        flushActive
        writeSize) (Thrifty mode) (fun _ => True) t := by
    refine Op.Keeps.modify_bind (fun h => h.beside rfl rfl rfl hmade h.isOpen) ?_
    refine Op.Keeps.bind (Op.Keeps.thrifty fun _ => writeAt_works 0 _) fun _ _ _ => ?_
    refine Op.Keeps.modify_bind (fun h => h.opening rfl rfl rfl) ?_
    refine Op.Keeps.bind (moveTo_thrifty 0 0) fun _ _ _ => ?_
    refine Op.Keeps.bind (Op.Keeps.thrifty fun _ => flushActive_works) fun _ _ _ => ?_
    exact Op.Keeps.thrifty fun _ => writeSize_works
  intro hs
  have hdrawn (random : Random) : Thrifty mode { s with random } :=
    hs.beside rfl rfl rfl rfl hs.isOpen
  refine Op.Ends.get_bind (Op.Ends.bind
    (P := fun made t => t.Thrifty mode ∧ made.2.config = t.processor.config) ?_
    fun made t ht => hrest made ht.2 ht.1)
  refine Op.Ends.ofDraw (fun made random hdraw => ⟨hdrawn random, ?_⟩)
    fun _ random _ => hdrawn random
  exact Processor.config_of_reset (Processor.reset_of_packMetadata hdraw)

theorem loadLayout_thrifty (metadataOnly : Bool) :
    (loadLayout metadataOnly).Keeps (Thrifty mode) (fun _ => True) s := by
  have hambient := ambient_thrifty mode
  unfold loadLayout
  refine Op.Keeps.bind (Raw.seek_keeps hambient 0) fun _ _ _ => ?_
  refine Op.Keeps.bind (readExactly_keeps hambient _ _) fun _ _ _ => Op.Keeps.get_bind fun _ => ?_
  refine Op.Keeps.ofExcept_bind fun info _ => ?_
  refine Op.Keeps.bind (readExactly_keeps hambient _ _) fun data t _ => ?_
  refine Op.Keeps.get_bind fun _ => ?_
  refine Op.Keeps.ofExcept_bind fun p hp => ?_
  have hconfig := Processor.config_of_reset (Processor.reset_of_unpackDescriptor hp)
  refine Op.Keeps.modify_bind (fun h => h.beside rfl rfl rfl hconfig h.isOpen) ?_
  refine Op.Keeps.bind (P := fun _ => True) ?_ fun _ _ _ => ?_
  · unfold loadSizes
    refine Op.Keeps.modify_bind (fun h => h.opening rfl rfl rfl) (Op.Keeps.get_bind fun _ => ?_)
    refine Op.Keeps.bind (Raw.size_keeps hambient) fun _ _ _ => Op.Keeps.unless fun _ => ?_
    split
    · exact Op.Keeps.throw
    · refine Op.Keeps.modify_bind (fun h => h.opening rfl rfl rfl) ?_
      split
      · exact Op.Keeps.throw
      · exact Op.Keeps.ite (fun _ => Op.Keeps.throw) fun _ => Op.Keeps.pure trivial
  · refine Op.Keeps.ite (fun _ => Op.Keeps.get_bind fun _ => ?_) fun _ => Op.Keeps.pure trivial
    refine Op.Keeps.bind (moveTo_thrifty _ 0) fun _ _ _ => ?_
    exact Op.Keeps.modify (fun h => h.opening rfl rfl rfl) trivial

/-- **Opening makes a thrifty container,** or leaves a closed one with nothing in memory. -/
theorem launch_ends (mode : Mode) (metadataOnly : Bool) (hs : s.Vacated keys) :
    (launch mode metadataOnly).Ends s (fun _ t => t.Thrifty mode) fun _ t => t.Fair keys := by
  unfold launch
  refine Op.Ends.get_bind (Op.Ends.get_bind (Op.Ends.modify_bind ?_))
  -- What is settled before the raw file is opened does not change by opening it.
  let Set (t : Session) : Prop := t.mode = mode ∧ t.useCache = t.cachePolicy ∧ t.memory = [] ∧
    0 < t.pool.capacity ∧ t.processor = s.processor
  have hset : Ambient Set :=
    { faults := fun _ h => h, handle := fun _ h => h, noted := fun _ h => h }
  refine Op.Ends.bind (P := fun _ t => t.Thrifty mode) ?_ fun _ t ht => ?_
  · refine Op.Ends.mono ((Raw.openAs_opens (by exact hs.closed) _).keeping
      (Raw.openAs_keeps_of (I := Set) (fun _ h => h) hset _) ⟨rfl, rfl, rfl, hs.room, rfl⟩) ?_ ?_
    · rintro _ t ⟨hopen, hmode, huse, hempty, hroom, -⟩
      have hentries : t.pool.entries = [] := (List.append_eq_nil_iff.mp hempty).2
      refine ⟨hopen, hmode, ?_, by simp [hempty], fun _ => hentries, fun h => huse ▸ h⟩
      simpa [Pool.size, hentries] using hroom
    · rintro _ t ⟨hclosed, -, -, hempty, hroom, hprocessor⟩
      exact Vacated.fair ⟨hclosed, hempty, hroom, hprocessor ▸ hs.unkeyed⟩
  · have hread : (if mode.createsFile (s.disk.contains s.path) then createLayout
        else loadLayout metadataOnly).Keeps (Thrifty mode) (fun _ => True) t :=
      Op.Keeps.ite (fun _ => createLayout_thrifty) fun _ => loadLayout_thrifty metadataOnly
    refine (hread.ends ht).attempt_bind fun opened u hu => ?_
    cases opened with
    | ok _ => exact hu
    | error e =>
      refine Op.Ends.bind (P := fun _ v => v.Vacated keys) (Op.Ends.discard ?_) fun _ v hv =>
        hv.fair
      have hu : u.Fair keys := hu.fair
      refine (shut_vacates false hu).attempt.mono ?_ fun _ _ h => h
      rintro _ v (⟨_, _, hv⟩ | ⟨_, _, hv⟩)
      · exact hv
      · exact hv

theorem openIn_fair (mode : Mode) : (openIn mode).Keeps (Fair keys) (fun _ => True) s := by
  intro hs
  unfold openIn
  refine Op.Ends.get_bind (Op.Ends.unless (fun _ => hs) fun hopen => ?_)
  refine Op.Ends.unless (fun _ => hs) fun _ => ?_
  exact (launch_ends mode false (hs.vacated hopen)).mono (fun _ _ h => ⟨trivial, h.fair⟩)
    fun _ _ h => h

theorem close_fair : close.Keeps (Fair keys) (fun _ => True) s := by
  intro hs
  unfold close
  refine Op.Ends.get_bind ?_
  split
  · exact (shut_vacates true hs).mono (fun _ _ h => ⟨trivial, h.fair⟩) fun _ _ h => h.fair
  · exact ⟨trivial, hs⟩

theorem launchMetadata_ends (mode : Mode) (hs : s.Fair keys) :
    (launchMetadata mode).Ends s (fun _ t => t.Thrifty mode) fun _ t => t.Fair keys := by
  unfold launchMetadata
  refine Op.Ends.get_bind (Op.Ends.unless (fun _ => hs) fun hopen => ?_)
  exact launch_ends mode true (hs.vacated hopen)

theorem closeMetadata_fair {α : Type} (result : Except Error α) :
    (closeMetadata result).Keeps (Fair keys) (fun _ => True) s := by
  intro hs
  unfold closeMetadata
  refine (shut_vacates false hs).attempt_bind fun closed v hv => ?_
  -- The container is closed; what is left are two errors to report, and they change nothing.
  refine Op.Ends.bind (P := fun _ w => w.Fair keys) ?_ fun a w hw => ?_
  · exact Op.Ends.ofExcept (fun _ _ => hv.fair) fun _ _ => hv.fair
  · refine Op.Ends.bind (P := fun _ w => w.Fair keys) ?_ fun _ w hw => ⟨trivial, hw⟩
    exact Op.Ends.ofExcept (fun _ _ => hw) fun _ _ => hw

/-- A container that is opened as far as its metadata is closed again. -/
theorem withMetadata_fair {α : Type} {x : Op α} (mode : Mode)
    (hx : ∀ {t : Session}, x.Keeps (Thrifty mode) (fun _ => True) t) :
    (withMetadata mode x).Keeps (Fair keys) (fun _ => True) s := by
  intro hs
  refine Op.Ends.bind (launchMetadata_ends mode hs) fun _ t ht => ?_
  exact (hx.ends ht).attempt_bind fun result _ hu => closeMetadata_fair result hu.fair

/-! ## Backup copies

The container is closed and opened again on the way, each of which can fail. A container that is
opened in another mode keeps chunks if the old mode allowed it, so getting back its mode leaves
it thrifty. -/

/-- The container is closed and opened again, in a mode that allows as much as its own. -/
theorem takeBackup_ends (hallows : mode.allowsCache = true) (hs : s.Thrifty mode) :
    takeBackup.Ends s (fun _ t => t.Thrifty mode) fun _ t => t.Fair keys := by
  obtain rfl := hs.mode
  unfold takeBackup
  refine Op.Ends.get_bind (Op.Ends.bind ((shut_vacates true hs.fair).mono (fun _ _ h => h)
    fun _ _ h => h.fair) fun _ t ht => ?_)
  refine Op.Ends.get_bind (Op.Ends.bind (launch_ends .writeExisting false ht) fun _ u hu => ?_)
  have hback := hu.remode (o := { u.toOpening with mode := s.mode, seekCursor := s.seekCursor })
    (hallows.trans (hu.mode ▸ rfl)) rfl rfl
  refine Op.Ends.modify_bind ?_
  split
  · exact hback
  · exact hback.fair

theorem rollback_ends (hallows : mode.allowsCache = true) (backup : Bytes)
    (cursor seekCursor : Nat) (hs : s.Thrifty mode) :
    (rollback backup cursor seekCursor).Ends s (fun _ t => t.Thrifty mode)
      fun _ t => t.Fair keys := by
  obtain rfl := hs.mode
  unfold rollback
  refine Op.Ends.get_bind (Op.Ends.bind ((shut_vacates false hs.fair).mono (fun _ _ h => h)
    fun _ _ h => h.fair) fun _ t ht => ?_)
  refine Op.Ends.get_bind (Op.Ends.unless (fun _ => ht.fair) fun _ => ?_)
  refine Op.Ends.bind (P := fun _ u => u.Vacated keys)
    ⟨ht.closed, ht.empty, ht.room, ht.unkeyed⟩ fun _ u hu => ?_
  refine Op.Ends.bind (launch_ends .writeExisting false hu) fun _ v hv => ?_
  have hback := hv.remode (o := { v.toOpening with mode := s.mode })
    (hallows.trans (hv.mode ▸ rfl)) rfl rfl
  refine Op.Ends.modify_bind (Op.Ends.bind (((moveTo_thrifty cursor 0).ends hback).mono
    (fun _ _ h => h) fun _ _ h => h.fair) fun _ w hw => ?_)
  exact hw.opening rfl rfl rfl

/-- **A shrink that fails leaves a container within its bounds,** undone or not. -/
theorem shrinkWithBackup_ends (hallows : mode.allowsCache = true) (newSize : Nat)
    (hs : s.Thrifty mode) :
    (shrinkWithBackup newSize).Ends s (fun _ t => t.Thrifty mode) fun _ t => t.Fair keys := by
  unfold shrinkWithBackup
  refine Op.Ends.get_bind (Op.Ends.bind (takeBackup_ends hallows hs) fun backup t ht => ?_)
  refine ((shrink_thrifty newSize _ true).ends ht).attempt_bind fun shrunk u hu => ?_
  cases shrunk with
  | ok _ => exact hu
  | error e =>
    refine Op.Ends.attempt_bind (I := Fair keys) ((rollback_ends hallows backup _ _ hu).mono
      (fun _ _ h => h.fair) fun _ _ h => h) fun rolled v hv => ?_
    cases rolled with
    | ok _ => exact hv
    -- the copy is put on the disk, and the container is as rolling back left it
    | error e' =>
      exact hv.around v.faults (v.disk.keepBackup backup) v.random

/-! ## Changing the content

Shrinking, with or without a copy, is done only where data may be written at any place; appending
containers refuse it. On a closed container it goes between opening and closing. -/

/-- Only where the container is written at any place is it made shorter. -/
theorem resize_ends (hwrite : mode.isWrite = true) (newSize : Nat) (backup : Bool)
    (hs : s.Thrifty mode) :
    (resize newSize backup).Ends s (fun _ t => t.Thrifty mode) fun _ t => t.Fair keys := by
  have hfair {α : Type} {x : Op α} (hx : x.Keeps (Thrifty mode) (fun _ => True) s) :
      x.Ends s (fun _ t => t.Thrifty mode) fun _ t => t.Fair keys :=
    (hx.ends hs).mono (fun _ _ h => h) fun _ _ h => h.fair
  unfold resize
  refine Op.Ends.get_bind ?_
  split
  · exact hs
  split
  · exact hfair (grow_thrifty newSize)
  split
  · exact hs.fair
  · rename_i happend
    have hallows : mode.allowsCache = true := by
      rw [hs.mode] at happend
      cases mode <;> simp_all [Mode.isWrite, Mode.isAppend, Mode.allowsCache]
    split
    · exact shrinkWithBackup_ends hallows newSize hs
    · exact hfair (shrink_thrifty newSize _ false)

theorem truncate_fair (newSize : Nat) (backup : Bool) :
    (truncate newSize backup).Keeps (Fair keys) (fun _ => True) s := by
  intro hs
  have hresize {mode : Mode} {t : Session} (hwrite : mode.isWrite = true) (ht : t.Thrifty mode) :
      (resize newSize backup).Ends t (fun _ u => u.Fair keys) fun _ u => u.Fair keys :=
    (resize_ends hwrite newSize backup ht).mono (fun _ _ h => h.fair) fun _ _ h => h
  unfold truncate
  refine Op.Ends.get_bind ?_
  split
  · rename_i hopen
    refine Op.Ends.unless (fun _ => hs) fun hwrite => ?_
    exact (hresize (by simpa using hwrite) (hs.thrifty hopen)).mono (fun _ _ h => ⟨trivial, h⟩)
      fun _ _ h => h
  · rename_i hopen
    -- a closed container is opened for the call, and closed unless the program breaks off
    refine Op.Ends.bind (launch_ends _ false (hs.vacated hopen)) fun _ t ht => ?_
    refine Op.Ends.get_bind (Op.Ends.unless (fun _ => ht.fair) fun _ => ?_)
    refine Op.Ends.attempt_bind (hresize (by split <;> rfl) ht) fun result u hu => ?_
    refine (shut_vacates true hu).attempt_bind fun closed v hv => ?_
    refine Op.Ends.bind (P := fun _ w => w.Fair keys) ?_ fun _ w hw => ?_
    · exact Op.Ends.ofExcept (fun _ _ => hv.fair) fun _ _ => hv.fair
    · exact Op.Ends.ofExcept (fun _ _ => ⟨trivial, hw⟩) fun _ _ => hw

/-- What follows is about an open container. -/
theorem ensureOpen_bind {α : Type} {I : Session → Prop} {P : α → Prop} {x : Op α}
    (hx : s.isOpen = true → x.Keeps I P s) : (do ensureOpen; x).Keeps I P s := by
  unfold ensureOpen
  cases hopen : s.isOpen with
  | false =>
    intro hs
    simpa [bind, EStateM.bind, hopen] using hs
  | true =>
    intro hs
    simpa [bind, EStateM.bind, hopen] using hx hopen hs

/-- A closed container refuses what is for open ones, and nothing happens. -/
theorem after_ensureOpen {α : Type} {x : Op α} (hclosed : s.isOpen = false) :
    (show Op α from do ensureOpen; x).after s = s := by
  simp [Op.after, ensureOpen, bind, EStateM.bind, hclosed]

theorem write_fair (data : Bytes) : (write data).Keeps (Fair keys) (fun _ => True) s := by
  unfold write
  refine Op.Keeps.ite (fun _ => Op.Keeps.pure trivial) fun _ => ?_
  refine ensureOpen_bind fun hopen => Op.Keeps.get_bind fun hs => Op.Keeps.unless fun hwrite => ?_
  have hmode : s.mode.isWrite = true := by simpa using hwrite
  have hrest {t : Session} : Op.Keeps (do
      syncCursor
      writeAll data
      modify fun s => { s with seekCursor := s.cursor }
      return data.length) (Thrifty s.mode) (fun _ => True) t := by
    refine Op.Keeps.bind syncCursor_thrifty fun _ _ _ => ?_
    refine Op.Keeps.bind (writeAll_thrifty data) fun _ _ _ => ?_
    exact Op.Keeps.modify_bind (fun h => h.opening rfl rfl rfl) (Op.Keeps.pure trivial)
  have hs := hs.thrifty hopen
  have hdone {t : Session} (ht : t.Thrifty s.mode) : Op.Ends (do
      syncCursor
      writeAll data
      modify fun s => { s with seekCursor := s.cursor }
      return data.length) t (fun _ u => True ∧ u.Fair keys) fun _ u => u.Fair keys :=
    (hrest.ends ht).mono (fun _ _ h => ⟨trivial, h.fair⟩) fun _ _ h => h.fair
  refine Op.Keeps.get_bind fun _ => Op.Keeps.ite (fun _ _ => ?_) fun _ _ => hdone hs
  refine Op.Ends.bind (resize_ends hmode _ false hs) fun _ t ht => ?_
  exact Op.Ends.bind (((moveTo_thrifty _ 0).ends ht).mono (fun _ _ h => h) fun _ _ h => h.fair)
    fun _ u hu => hdone hu

theorem read_fair (n : Nat) : (read n).Keeps (Fair keys) (fun _ => True) s := by
  refine Op.Keeps.fair (fun _ => read_thrifty n) fun hclosed => ?_
  unfold read
  by_cases hn : n = 0
  · rw [if_pos hn]
    rfl
  · rw [if_neg hn]
    exact after_ensureOpen hclosed

/-! ## What is kept in memory

What is taken out of the pool is handed to be written. It is out of memory by then, so whether it
can be written does not matter for the bound. -/

theorem invalidate_thrifty : invalidate.Keeps (Thrifty mode) (fun _ => True) s := by
  have hreload (append : Bool) {t : Session} : Op.Keeps (do
      modify fun s => { s with pool := s.pool.clear }
      if !append then
        modify fun s => { s with current := none }
        moveTo (← get).cursor 0) (Thrifty mode) (fun _ => True) t := by
    refine Op.Keeps.modify_bind (fun h => h.fewer ?_ (List.nil_sublist _)) ?_
    · exact h.capacity_pos
    refine Op.Keeps.ite (fun _ => ?_) fun _ => Op.Keeps.pure trivial
    refine Op.Keeps.modify_bind (fun h => h.leave.1) (Op.Keeps.get_bind fun _ => ?_)
    exact moveTo_thrifty _ 0
  unfold invalidate
  refine Op.Keeps.bind ensureOpen_keeps fun _ s _ => Op.Keeps.get_bind fun _ => ?_
  refine Op.Keeps.ite (fun _ => ?_) fun _ => hreload _
  exact Op.Keeps.bind (Op.Keeps.thrifty fun _ => flushAll_works none) fun _ _ _ => hreload _

/-- A smaller pool hands back what had to make way, and keeps room for the current chunk. -/
theorem setMaxCached_thrifty (count : Nat) :
    (setMaxCached count).Keeps (Thrifty mode) (fun _ => True) s := by
  unfold setMaxCached
  refine Op.Keeps.get_bind fun _ => Op.Keeps.set_bind (fun hs => ?_)
    (Op.Keeps.thrifty fun _ => flushEvicted_works _)
  refine (hs.config { s.config with maxCachedChunks := max count 1 } rfl).fewer
    (s.pool.size_setCapacity_lt _) ?_
  exact (List.drop_sublist _ _).map _

theorem setMaxCached_fair (count : Nat) :
    (setMaxCached count).Keeps (Fair keys) (fun _ => True) s := by
  rintro (hs | hs)
  · exact ((setMaxCached_thrifty count).ends hs).mono (fun _ _ h => ⟨trivial, h.fair⟩) fun _ _ h =>
      h.fair
  · -- there is nothing in memory of a closed container, so no chunk has to make way
    have hnone : s.pool.entries = [] := (List.append_eq_nil_iff.mp hs.empty).2
    have hempty : (s.pool.setCapacity (max count 1)).2.entries = [] := by
      simp [Pool.setCapacity, hnone]
    have hvacated : Vacated keys { s with
        config.maxCachedChunks := max count 1, pool := (s.pool.setCapacity (max count 1)).2 } := by
      have hroom := Nat.lt_of_le_of_lt (Nat.zero_le _) (s.pool.size_setCapacity_lt (max count 1))
      refine ⟨hs.closed, ?_, hroom, hs.unkeyed⟩
      rw [memory, hempty, (List.append_eq_nil_iff.mp hs.empty).1]
      rfl
    have hevicted : (s.pool.setCapacity (max count 1)).1 = [] := by
      simp [Pool.setCapacity, hnone]
    unfold setMaxCached
    refine Op.Ends.get_bind ?_
    dsimp only
    rw [hevicted]
    exact ⟨trivial, hvacated.fair⟩

/-- Where chunks may no longer be kept, none is. -/
theorem setCacheEnabled_fair (enabled : Bool) :
    (setCacheEnabled enabled).Keeps (Fair keys) (fun _ => True) s := by
  intro hs
  let t : Session := { s with config.cacheEnabled := enabled }
  have hthrifty (hopen : s.isOpen = true) {pool : Pool} (hroom : pool.size < pool.capacity)
      (hdistinct : ((s.current.toList ++ pool.entries).map (·.seqnum)).Nodup)
      (hempty : t.cachePolicy = false → pool.entries = []) :
      Thrifty s.mode { t with useCache := t.cachePolicy, pool } :=
    ⟨hopen, rfl, hroom, hdistinct, hempty, id⟩
  unfold setCacheEnabled
  refine Op.Ends.modify_bind (Op.Ends.get_bind ?_)
  refine Op.Ends.ite (fun hopen => ?_) fun hclosed => ?_
  · have hs := hs.thrifty hopen
    refine Op.Ends.ite (fun hpolicy => ⟨trivial, ?_⟩) fun hpolicy => ?_
    · refine (hthrifty hopen hs.room hs.distinct fun h => ?_).fair
      exact absurd (hpolicy.symm.trans h) (by simp)
    · have hdrained : Thrifty s.mode { t with
          useCache := t.cachePolicy, pool := { s.pool with entries := [] } } := by
        refine hthrifty hopen hs.capacity_pos ?_ fun _ => rfl
        exact ((List.sublist_append_left _ _).map _).nodup (by simpa [memory] using hs.distinct)
      refine Op.Ends.bind (P := fun _ u => u.Thrifty s.mode) hdrained fun _ u hu => ?_
      exact ((Op.Keeps.thrifty fun _ => flushEvicted_works s.pool.entries).ends hu).mono
        (fun _ _ h => ⟨trivial, h.fair⟩) fun _ _ h => h.fair
  · have hs := hs.vacated hclosed
    exact ⟨trivial, Vacated.fair ⟨hs.closed, hs.empty, hs.room, hs.unkeyed⟩⟩

theorem contentSize_fair : contentSize.Keeps (Fair keys) (fun _ => True) s := by
  unfold contentSize
  refine Op.Keeps.get_bind fun _ => Op.Keeps.ite (fun _ => ?_) fun _ => withMetadata_fair .scan ?_
  · exact Op.Keeps.get_bind fun _ => Op.Keeps.pure trivial
  · exact Op.Keeps.get_bind fun _ => Op.Keeps.pure trivial

theorem usedSize_fair : usedSize.Keeps (Fair keys) (fun _ => True) s := by
  unfold usedSize
  refine Op.Keeps.get_bind fun hs => ?_
  refine Op.Keeps.ite (fun hopen => ?_) fun _ => withMetadata_fair .scan ?_
  · intro _
    refine Op.Ends.bind (((Op.Keeps.thrifty fun _ => flushLast_works).ends (hs.thrifty hopen)).mono
      (fun _ _ h => h.fair) fun _ _ h => h.fair) fun _ t ht => ⟨trivial, ht⟩
  · exact Op.Keeps.get_bind fun _ => Op.Keeps.pure trivial

/-- Flushing does nothing to a closed container. -/
theorem flush_fair (deep : Bool) : (flush deep).Keeps (Fair keys) (fun _ => True) s := by
  refine Op.Keeps.fair (fun mode => Op.Keeps.thrifty fun _ => flushAll_works (some deep))
    fun hclosed => ?_
  simp [flush, flushAll, Op.after, bind, EStateM.bind, hclosed]

/-- Both ways of making the file lasting. -/
theorem settled_fair {x : Op Unit}
    (hx : ∀ {t : Session} mode, x.Keeps (Thrifty mode) (fun _ => True) t) :
    Op.Keeps (do ensureOpen; flushAll none; x) (Fair keys) (fun _ => True) s := by
  refine Op.Keeps.fair (P := fun _ => True) (fun mode => ?_) after_ensureOpen
  refine Op.Keeps.bind ensureOpen_keeps fun _ _ _ => ?_
  exact Op.Keeps.bind (Op.Keeps.thrifty fun _ => flushAll_works none) fun _ _ _ => hx mode

/-! ## Integrity values

Hashing reads the raw file without any chunk. It is thrifty for the reason that it does not touch
what is in memory. -/

theorem hashBlocks_keeps (hI : Ambient I) (block turns left : Nat) (hasher : StampHasher) :
    (hashBlocks block turns left hasher).Keeps I (fun _ => True) s := by
  induction turns generalizing left hasher s with
  | zero => exact Op.Keeps.pure trivial
  | succ turns ih =>
    unfold hashBlocks
    refine Op.Keeps.ite (fun _ => Op.Keeps.pure trivial) fun _ => ?_
    exact Op.Keeps.bind (readExactly_keeps hI _ _) fun _ _ _ => ih _ _

theorem hashOpen_keeps (hI : Ambient I) (kind : StampKind) :
    (hashOpen kind).Keeps I (fun _ => True) s := by
  unfold hashOpen
  refine Op.Keeps.get_bind fun _ => Op.Keeps.ofExcept_bind fun hasher _ => ?_
  refine Op.Keeps.ite (fun _ => Op.Keeps.pure trivial) fun _ => ?_
  refine Op.Keeps.bind (Raw.seek_keeps hI 0) fun _ _ _ => ?_
  exact Op.Keeps.bind (hashBlocks_keeps hI _ _ _ _) fun _ _ _ => Op.Keeps.pure trivial

theorem readStamp_keeps (hI : Ambient I) : readStamp.Keeps I (fun _ => True) s := by
  unfold readStamp
  refine Op.Keeps.get_bind fun _ => Op.Keeps.bind (Raw.size_keeps hI) fun _ _ _ => ?_
  refine Op.Keeps.unless fun _ => Op.Keeps.bind (Raw.seek_keeps hI _) fun _ _ _ => ?_
  refine Op.Keeps.bind (readExactly_keeps hI _ _) fun _ _ _ => Op.Keeps.unless fun _ => ?_
  refine Op.Keeps.bind (readExactly_keeps hI _ _) fun _ _ _ => ?_
  exact Op.Keeps.ofExcept fun _ _ => trivial

/-- A run that breaks off leaves the container open, and within its bounds all the same. -/
theorem hashFile_fair (kind : StampKind) : (hashFile kind).Keeps (Fair keys) (fun _ => True) s := by
  intro hs
  refine Op.Ends.bind (launchMetadata_ends .scan hs) fun _ t ht => ?_
  have hhash := hashOpen_keeps (s := t) (ambient_thrifty .scan) kind
  refine Op.Ends.attempt_bind (hhash.ends ht) fun result u hu => ?_
  rcases result with e | _ | hasher
  · exact closeMetadata_fair (.error e) hu.fair
  · exact hu.fair
  · exact closeMetadata_fair (.ok hasher) hu.fair

theorem verify_fair (kind : StampKind) (expected : Bytes) :
    (verify kind expected).Keeps (Fair keys) (fun _ => True) s := by
  unfold verify
  exact Op.Keeps.bind (hashFile_fair kind) fun _ _ _ => Op.Keeps.ofExcept fun _ _ => trivial

theorem loadStamp_fair : loadStamp.Keeps (Fair keys) (fun _ => True) s :=
  withMetadata_fair .read (readStamp_keeps (ambient_thrifty .read))

theorem stamp_fair (kind : StampKind) : (stamp kind).Keeps (Fair keys) (fun _ => True) s := by
  unfold stamp
  refine Op.Keeps.bind (hashFile_fair kind) fun hasher _ _ => ?_
  refine Op.Keeps.bind loadStamp_fair.attempt fun loaded _ _ => ?_
  refine Op.Keeps.ofExcept_bind fun _ _ => Op.Keeps.ofExcept_bind fun framed _ => ?_
  refine withMetadata_fair .writeExisting fun {t} => ?_
  unfold writeStamp
  refine Op.Keeps.get_bind fun _ => Op.Keeps.bind (Op.Keeps.thrifty fun _ => writeAt_works _ _)
    fun _ _ _ => ?_
  refine Op.Keeps.bind (truncateRaw_thrifty _ false) fun _ _ _ => ?_
  exact Raw.flush_keeps (ambient_thrifty .writeExisting) false

theorem checkStamp_fair (kind : StampKind) :
    (checkStamp kind).Keeps (Fair keys) (fun _ => True) s := by
  unfold checkStamp
  refine Op.Keeps.bind loadStamp_fair fun stamp _ _ => ?_
  dsimp only
  split
  · exact Op.Keeps.throw
  · exact verify_fair kind _

end Container

/-! ## All demands

Calls and the other demands put together, and their runs. A run may break off anywhere; what is
kept is kept by every step, whether or not it answered. -/

open Session Container

/-- **A call on a container leaves it within its bounds,** open or closed, answered or not. -/
theorem Call.run_fair {keys : Option WorkingKeys} {s : Session} (call : Call) :
    call.run.Keeps (Fair keys) (fun _ => True) s := by
  have hdone {α : Type} {x : Op α} {f : α → Answer} (hx : x.Keeps (Fair keys) (fun _ => True) s) :
      Op.Keeps (do return f (← x)) (Fair keys) (fun _ => True) s :=
    Op.Keeps.bind hx fun _ _ _ => Op.Keeps.pure trivial
  cases call with
  | seek pos => exact hdone (Op.Keeps.fair (fun _ => seek_thrifty pos) after_ensureOpen)
  | read n => exact hdone (read_fair n)
  | write data => exact hdone (write_fair data)
  | truncate newSize backup => exact hdone (truncate_fair newSize backup)
  | contentSize => exact hdone contentSize_fair
  | position => exact Op.Keeps.get_bind fun _ => Op.Keeps.pure trivial
  | flush deep => exact hdone (flush_fair deep)
  | sync => exact hdone (settled_fair fun mode => Raw.sync_keeps (ambient_thrifty mode))
  | fsync => exact hdone (settled_fair fun mode => Raw.fsync_keeps (ambient_thrifty mode))
  | usedSize => exact hdone usedSize_fair.discard
  | invalidate => exact hdone (Op.Keeps.fair (fun _ => invalidate_thrifty) after_ensureOpen)
  | setMaxCached count => exact hdone (setMaxCached_fair count)
  | setCacheEnabled enabled => exact hdone (setCacheEnabled_fair enabled)
  | setBlock size =>
    refine Op.Keeps.modify_bind (fun hs => ?_) (Op.Keeps.pure trivial)
    rcases hs with hs | hs
    · exact (hs.config { s.config with maxProcessingSize := max size 1 } rfl).fair
    · exact Vacated.fair ⟨hs.closed, hs.empty, hs.room, hs.unkeyed⟩

/-- What can be asked of a container. -/
inductive Demand where
  | openIn (mode : Mode)
  | close
  | ask (call : Call)
  | hash (kind : StampKind)
  | verify (kind : StampKind) (expected : Bytes)
  | stamp (kind : StampKind)
  | checkStamp (kind : StampKind)
deriving DecidableEq

/-- Asks, and drops what is answered. -/
def Demand.run : Demand → Op Unit
  | .openIn mode => Container.openIn mode
  | .close => Container.close
  | .ask call => discard call.run
  | .hash kind => discard (Container.hashFile kind)
  | .verify kind expected => Container.verify kind expected
  | .stamp kind => Container.stamp kind
  | .checkStamp kind => Container.checkStamp kind

theorem Demand.run_fair {keys : Option WorkingKeys} {s : Session} (demand : Demand) :
    demand.run.Keeps (Fair keys) (fun _ => True) s := by
  cases demand with
  | openIn mode => exact openIn_fair mode
  | close => exact close_fair
  | ask call => exact (Call.run_fair call).discard
  | hash kind => exact (hashFile_fair kind).discard
  | verify kind expected => exact verify_fair kind expected
  | stamp kind => exact stamp_fair kind
  | checkStamp kind => exact checkStamp_fair kind

/-- The states of a container in use: made, asked for anything, answered or not, while other faults
are armed and others change the disk under it. -/
inductive Session.InUse : Session → Prop where
  | made {path : String} {processor : Processor} {config : ContainerConfig} {c : Container}
      (disk : Disk) (random : Random) (new : Container.new path processor config = .ok c) :
      InUse { toContainer := c, disk, random }
  | asked {s : Session} (demand : Demand) (before : InUse s) : InUse (demand.run.after s)
  | around {s : Session} (faults : List Fault) (disk : Disk) (random : Random) (before : InUse s) :
      InUse { s with faults, disk, random }

theorem Session.new_pristine {path : String} {processor : Processor} {config : ContainerConfig}
    (hvalid : config.validate = .ok ()) (random : Random) :
    Container.new path processor config
      = .ok (pristine path processor config random).toContainer := by
  simp only [Container.new, hvalid]
  rfl

theorem Session.inUse_pristine {path : String} {processor : Processor} {config : ContainerConfig}
    {random : Random} (hvalid : config.validate = .ok ()) :
    (pristine path processor config random).InUse :=
  .made {} random (new_pristine hvalid random)

theorem Session.fair_new {path : String} {processor : Processor} {config : ContainerConfig}
    {c : Container} (new : Container.new path processor config = .ok c) (disk : Disk)
    (random : Random) : Fair processor.keys { toContainer := c, disk, random } := by
  unfold Container.new at new
  split at new
  · exact absurd new (by simp)
  · obtain rfl := Except.ok.inj new
    have hroom : 0 < max config.maxCachedChunks 1 :=
      Nat.lt_of_lt_of_le Nat.zero_lt_one (Nat.le_max_right ..)
    exact Vacated.fair ⟨rfl, rfl, hroom, .inr rfl⟩

/-- Induction on how the state was reached. -/
theorem Session.InUse.fair {s : Session} (h : s.InUse) : ∃ keys, s.Fair keys := by
  induction h with
  | made disk random new => exact ⟨_, fair_new new disk random⟩
  | asked demand _ ih => exact ih.imp fun _ h => demand.run_fair.after h
  | around faults disk random _ ih => exact ih.imp fun _ h => h.around faults disk random

/-- **The memory of a container is bounded.** Whatever it was asked for and wherever that failed, it
holds at most as many chunks as it may, no two of them with the same number, and no more than one
when it does not keep chunks: in the modes that go through the content once, with streamed chunks,
and when keeping them is switched off. -/
theorem memory_is_bounded {s : Session} (h : s.InUse) :
    s.chunksInMemory ≤ s.pool.capacity ∧ (s.memory.map (·.seqnum)).Nodup ∧
      (s.mode = .scan ∨ s.mode = .append ∨ s.mode = .appendExisting ∨
        s.processor.config.streaming = true ∨ s.config.cacheEnabled = false →
          s.chunksInMemory ≤ 1) := by
  have hcount : s.chunksInMemory = s.memory.length := by
    rw [Container.chunksInMemory, memory, Pool.size, List.length_append]
    cases s.current <;> simp [Nat.add_comm]
  obtain ⟨_, h | h⟩ := h.fair
  · have hone : s.chunksInMemory ≤ s.pool.size + 1 := by
      rw [Container.chunksInMemory]
      split <;> omega
    refine ⟨Nat.le_trans hone h.room, h.distinct, fun hno => ?_⟩
    have hpolicy : s.cachePolicy = false := by
      rw [Container.cachePolicy]
      rcases hno with hmode | hmode | hmode | hstream | hoff
      · simp [hmode, Mode.allowsCache]
      · simp [hmode, Mode.allowsCache]
      · simp [hmode, Mode.allowsCache]
      · simp [hstream]
      · simp [hoff]
    have huse : s.useCache = false := by
      refine Bool.eq_false_iff.mpr fun huse => ?_
      exact absurd ((h.allowed huse).symm.trans hpolicy) (by simp)
    simpa [Pool.size, h.unpooled huse] using hone
  · simp [hcount, h.empty]

/-- Two chunks may be in memory. A third one is to be written, and the second of them, which holds
the end, cannot be written to the file. -/
theorem memory_is_bounded_full :
    ∃ s : Session, s.InUse ∧ s.chunksInMemory = 2 ∧ s.chunksInMemory ≤ s.pool.capacity ∧
      (s.memory.map (·.seqnum)).Nodup := by
  have hused (s : Session) (hs : s.InUse) (faults : List Fault) (demand : Demand) :
      (demand.run.after { s with faults }).InUse :=
    .asked demand (.around faults s.disk s.random hs)
  let s : Session := (Demand.ask (.setMaxCached 2)).run.after ((Demand.openIn .write).run.after
    (pristine "vault" (Processor.ofConfig ⟨[7]⟩ { chunkMax := 2 }) {} (Random.seeded 0)))
  have hs : s.InUse := .asked _ (.asked _ (inUse_pristine rfl))
  have h := hused s hs [⟨.write, 1, .fail⟩] (.ask (.write [1, 2, 3, 4, 5]))
  exact ⟨_, h, by decide +kernel, (memory_is_bounded h).1, (memory_is_bounded h).2.1⟩

end Vault
