import Vault.Proofs.Runs

/-!
# `Vault/Proofs/Raw.lean` — what the calls of a raw file do

Every call of a raw file wears faults down, most leave a line in the trace and some move the place
of the handle. None of that matters for what a container holds, so a run that does nothing else is
said to *pass by* (`Session.beside`), and **all that is said of a call is what it does to the
contents of its file.** A call on which a fault fires passes by.

The statements ask for an open handle (`s.handle = some h`) and not for the invariant of a
container, so that they can be used wherever the raw file is open: while the metadata is read,
before there is anything to be invariant, and after a file was put in the place of another one.
-/

set_option autoImplicit false

namespace Vault

/-! ## What is put into a file -/

namespace Disk

theorem contents_setContents {d : Disk} {file : Nat} (h : file < d.files.length) (data : Bytes) :
    (d.setContents file data).contents file = data := by
  simp [setContents, contents, h]

theorem setContents_contents (d : Disk) (file : Nat) :
    d.setContents file (d.contents file) = d := by
  have hfiles : d.files.set file (d.contents file) = d.files := by
    refine List.ext_getElem? fun i => ?_
    rw [List.getElem?_set]
    unfold contents
    grind
  rw [setContents, hfiles]

end Disk

/-! ## What does not matter

Leaving out what does not matter is what makes the statements about single calls short. A call
changes the surroundings in its own way, and the next one starts from surroundings that nothing
is known about but the place of the handle, where it counts. -/

/-- The parts of a session that say nothing about what a container holds. -/
structure Surroundings where
  faults : List Fault
  trace : List Event
  random : Random
  /-- The place of the handle in the raw file. -/
  position : Nat

namespace Session

/-- A session with other surroundings. -/
def beside (s : Session) (x : Surroundings) : Session :=
  { s with
    faults := x.faults
    trace := x.trace
    random := x.random
    handle := s.handle.map fun h => { h with position := x.position } }

section
variable (s : Session) (x y : Surroundings)

@[simp] theorem beside_beside : (s.beside x).beside y = s.beside y := by
  cases h : s.handle <;> simp [beside, h]

@[simp] theorem faults_beside : (s.beside x).faults = x.faults := rfl
@[simp] theorem random_beside : (s.beside x).random = x.random := rfl
@[simp] theorem disk_beside : (s.beside x).disk = s.disk := rfl
@[simp] theorem path_beside : (s.beside x).path = s.path := rfl
@[simp] theorem mode_beside : (s.beside x).mode = s.mode := rfl
@[simp] theorem useCache_beside : (s.beside x).useCache = s.useCache := rfl
@[simp] theorem layout_beside : (s.beside x).layout = s.layout := rfl
@[simp] theorem processor_beside : (s.beside x).processor = s.processor := rfl
@[simp] theorem config_beside : (s.beside x).config = s.config := rfl
@[simp] theorem pool_beside : (s.beside x).pool = s.pool := rfl
@[simp] theorem current_beside : (s.beside x).current = s.current := rfl
@[simp] theorem cursor_beside : (s.beside x).cursor = s.cursor := rfl
@[simp] theorem seekCursor_beside : (s.beside x).seekCursor = s.seekCursor := rfl
@[simp] theorem size_beside : (s.beside x).size = s.size := rfl
@[simp] theorem ciphertextSize_beside : (s.beside x).ciphertextSize = s.ciphertextSize := rfl
@[simp] theorem eofSeqnum_beside : (s.beside x).eofSeqnum = s.eofSeqnum := rfl
@[simp] theorem sizeDirty_beside : (s.beside x).sizeDirty = s.sizeDirty := rfl
@[simp] theorem tailCut_beside : (s.beside x).tailCut = s.tailCut := rfl
@[simp] theorem eofPos_beside : (s.beside x).eofPos = s.eofPos := rfl

@[simp] theorem isOpen_beside : (s.beside x).isOpen = s.isOpen := by
  simp [Container.isOpen, beside]

end

theorem handle_beside {s : Session} {h : Handle} (hh : s.handle = some h) (x : Surroundings) :
    (s.beside x).handle = some { h with position := x.position } := by
  simp [beside, hh]

/-- Nothing changed that matters. -/
def PassesBy (s s' : Session) : Prop := ∃ x, s' = s.beside x

theorem PassesBy.refl (s : Session) : s.PassesBy s := by
  refine ⟨⟨s.faults, s.trace, s.random, (s.handle.map (·.position)).getD 0⟩, ?_⟩
  -- a closed file has no place, so any number will do
  have hsame : (s.handle.map fun h =>
      { h with position := (s.handle.map (·.position)).getD 0 }) = s.handle := by
    cases s.handle <;> rfl
  simp only [beside, hsame]

theorem PassesBy.trans {s s₁ s₂ : Session} (h : s.PassesBy s₁) (h' : s₁.PassesBy s₂) :
    s.PassesBy s₂ := by
  obtain ⟨x, rfl⟩ := h
  obtain ⟨y, rfl⟩ := h'
  exact ⟨y, s.beside_beside x y⟩

/-- Passing by starts anywhere on the way. -/
theorem passesBy_beside (s : Session) (x : Surroundings) : (s.beside x).PassesBy = s.PassesBy := by
  funext s'
  simp [PassesBy]

/-- A session with other faults and another trace. -/
theorem beside_of_handle {s : Session} {h : Handle} (hh : s.handle = some h) (faults : List Fault)
    (trace : List Event) (random : Random) :
    { s with faults, trace, random } = s.beside ⟨faults, trace, random, h.position⟩ := by
  simp [beside, hh]

/-- The session with other contents in a file. -/
def withContents (s : Session) (file : Nat) (data : Bytes) : Session :=
  { s with disk := s.disk.setContents file data }

theorem withContents_self (s : Session) (file : Nat) :
    s.withContents file (s.disk.contents file) = s := by
  rw [withContents, Disk.setContents_contents]

end Session

namespace Raw

open Session

variable {s : Session} {h : Handle} {full : Prop}

theorem note_does (hh : s.handle = some h) (event : Event) :
    (note event).Does full s (fun _ s' => ∃ x, x.position = h.position ∧ s' = s.beside x)
      s.PassesBy :=
  Op.Does.modify rfl
    ⟨⟨s.faults, event :: s.trace, s.random, h.position⟩, rfl,
      beside_of_handle hh s.faults (event :: s.trace) s.random⟩

/-- A call that meets tame faults fails with the error of one of them, or goes through whole. -/
theorem meetFault_wears (s : Session) (call : RawCall) :
    (meetFault call).Does full s (fun short s' => short = false ∧ ∃ faults, s' = { s with faults })
      (fun s' => ∃ faults, s' = { s with faults }) := by
  intro ht
  have hmeet := Fault.meet_spares_or_strikes call ht
  generalize hm : Fault.meet call s.faults = met at hmeet
  obtain ⟨effect, after⟩ := met
  cases effect with
  | none =>
    have hrun : meetFault call s = .ok false { s with faults := after } := by
      simp [meetFault, bind, EStateM.bind, hm]
    rw [hrun]
    exact ⟨hmeet, rfl, after, rfl⟩
  | some effect =>
    obtain ⟨hne, hstrikes⟩ := hmeet
    -- a call that would fall short is excluded by the faults being tame
    have hrun : meetFault call s = .error (effect.error call) { s with faults := after } := by
      cases effect with
      | short => exact absurd rfl hne
      | fail =>
        simp [meetFault, bind, EStateM.bind, hm, FaultEffect.error]
      | fileError =>
        simp [meetFault, bind, EStateM.bind, hm, FaultEffect.error]
    rw [hrun]
    exact ⟨.inl hstrikes, after, rfl⟩

theorem meetFault_does (hh : s.handle = some h) (call : RawCall) :
    (meetFault call).Does full s
      (fun short s' => short = false ∧ ∃ x, x.position = h.position ∧ s' = s.beside x)
      s.PassesBy := by
  have hbeside (faults : List Fault) : ({ s with faults } : Session)
      = s.beside ⟨faults, s.trace, s.random, h.position⟩ :=
    beside_of_handle hh faults s.trace s.random
  refine (meetFault_wears s call).mono ?_ ?_
  · rintro short - ⟨hshort, faults, rfl⟩
    exact ⟨hshort, _, rfl, hbeside faults⟩
  · rintro - ⟨faults, rfl⟩
    exact ⟨_, hbeside faults⟩

theorem handle_does (hh : s.handle = some h) (err : Session → Prop) :
    handle.Does full s (fun h' s' => h' = h ∧ s' = s) err := by
  unfold handle
  refine Op.Does.get_bind ?_
  rw [hh]
  exact Op.Does.pure ⟨rfl, rfl⟩

/-- A call that transfers nothing is spared or fails. -/
theorem met_does (hh : s.handle = some h) (call : RawCall) :
    (discard (meetFault call)).Does full s
      (fun _ s' => ∃ x, x.position = h.position ∧ s' = s.beside x) s.PassesBy :=
  Op.Does.discard ((meetFault_does hh call).mono (fun _ _ hmet => hmet.2) fun _ => id)

theorem seek_does (hh : s.handle = some h) (position : Nat) :
    (seek position).Does full s (fun _ s' => ∃ x, x.position = position ∧ s' = s.beside x)
      s.PassesBy := by
  unfold seek
  refine Op.Does.bind (met_does hh .seek) ?_
  rintro - - ⟨x, -, rfl⟩
  refine Op.Does.bind (handle_does (handle_beside hh x) _) ?_
  rintro _ - ⟨rfl, rfl⟩
  refine Op.Does.modify rfl ⟨⟨x.faults, x.trace, x.random, position⟩, rfl, ?_⟩
  simp [beside, hh]

theorem read_does (hh : s.handle = some h) (n : Nat) :
    (read n).Does full s
      (fun data s' => data = (s.disk.contents h.file).slice h.position n ∧
        ∃ x, x.position = h.position + data.length ∧ s' = s.beside x)
      s.PassesBy := by
  unfold read
  refine Op.Does.bind (meetFault_does hh .read) ?_
  rintro _ - ⟨rfl, x, hx, rfl⟩
  refine Op.Does.bind (handle_does (handle_beside hh x) _) ?_
  rintro _ - ⟨rfl, rfl⟩
  refine Op.Does.get_bind ?_
  -- the call was not struck, so it reads all of what was asked for, as far as there is any
  simp only [disk_beside, hx, Bool.false_eq_true, if_false]
  generalize hdata : (s.disk.contents h.file).slice h.position n = data
  refine Op.Does.modify_bind rfl (Op.Does.modify_bind rfl (Op.Does.pure ⟨rfl, ?_⟩))
  exact ⟨⟨x.faults, .read h.position data.length :: x.trace, x.random, h.position + data.length⟩,
    rfl, by simp [beside, hh]⟩

theorem write_does (hh : s.handle = some h) (hw : h.writable = true) {data : Bytes}
    (hdata : data ≠ []) :
    (write data).Does full s
      (fun n s' => n = data.length ∧ (s.withContents h.file
        ((s.disk.contents h.file).overlay h.position data)).PassesBy s')
      s.PassesBy := by
  unfold write
  refine Op.Does.bind (meetFault_does hh .write) ?_
  rintro _ - ⟨rfl, x, hx, rfl⟩
  refine Op.Does.bind (handle_does (handle_beside hh x) _) ?_
  rintro _ - ⟨rfl, rfl⟩
  simp only [Bool.false_eq_true, if_false, ne_eq, hdata, not_false_eq_true, if_true, hx]
  rw [hw]
  simp only [Bool.not_true, Bool.false_eq_true, if_false]
  -- the contents, the place and the trace are three steps; only the first one matters
  refine Op.Does.modify_bind rfl
    (Op.Does.modify_bind rfl (Op.Does.modify_bind rfl (Op.Does.pure ⟨rfl, ?_⟩)))
  exact ⟨⟨x.faults, .wrote h.position data.length :: x.trace, x.random, h.position + data.length⟩,
    by simp [beside, withContents, hh, hw]⟩

theorem truncate_does (hh : s.handle = some h) (hw : h.writable = true) (size : Nat)
    (durable : Bool) :
    (truncate size durable).Does full s
      (fun _ s' => (s.withContents h.file ((s.disk.contents h.file).resize size)).PassesBy s')
      s.PassesBy := by
  unfold truncate
  refine Op.Does.bind (note_does hh _) ?_
  rintro - - ⟨x, -, rfl⟩
  -- what passes by from the changed surroundings passes by from the start
  refine Op.Does.bind (s.passesBy_beside x ▸ met_does (handle_beside hh x) .truncate) ?_
  rintro - - ⟨y, -, rfl⟩
  rw [beside_beside]
  refine Op.Does.bind (handle_does (handle_beside hh y) _) ?_
  rintro _ - ⟨rfl, rfl⟩
  simp only [hw, Bool.not_true, Bool.false_eq_true, if_false]
  refine Op.Does.modify rfl ⟨y, ?_⟩
  simp [beside, withContents, hh]

theorem size_does (hh : s.handle = some h) :
    size.Does full s
      (fun n s' => n = (s.disk.contents h.file).length ∧ s.PassesBy s')
      s.PassesBy := by
  unfold size
  refine Op.Does.bind (met_does hh .size) ?_
  rintro - - ⟨x, -, rfl⟩
  refine Op.Does.bind (handle_does (handle_beside hh x) _) ?_
  rintro _ - ⟨rfl, rfl⟩
  exact Op.Does.get_bind (Op.Does.pure ⟨rfl, x, rfl⟩)

/-- A call that asks for nothing but to be made lasting. -/
theorem settle_does (hh : s.handle = some h) (event : Event) (call : RawCall) :
    (do note event; discard (meetFault call); discard handle : Op Unit).Does full s
      (fun _ s' => s.PassesBy s') s.PassesBy := by
  refine Op.Does.bind (note_does hh event) ?_
  rintro - - ⟨x, -, rfl⟩
  refine Op.Does.bind (s.passesBy_beside x ▸ met_does (handle_beside hh x) call) ?_
  rintro - - ⟨y, -, rfl⟩
  rw [beside_beside]
  refine Op.Does.discard ((handle_does (handle_beside hh y) _).mono ?_ fun _ => id)
  rintro _ _ ⟨-, rfl⟩
  exact ⟨y, rfl⟩

theorem flush_does (hh : s.handle = some h) (deep : Bool) :
    (flush deep).Does full s (fun _ s' => s.PassesBy s') s.PassesBy :=
  settle_does hh (.flushed deep) .flush

theorem sync_does (hh : s.handle = some h) :
    sync.Does full s (fun _ s' => s.PassesBy s') s.PassesBy :=
  settle_does hh .synced .sync

theorem fsync_does (hh : s.handle = some h) :
    fsync.Does full s (fun _ s' => s.PassesBy s') s.PassesBy :=
  settle_does hh .fsynced .fsync

end Raw

end Vault
