import Vault.Container.Resize
import Vault.Proofs.Frames
import Vault.Proofs.Raw

/-!
# `Vault/Proofs/Ledger.lean` — what a trace tells of the encryption

The trace names every call that encrypts and every place that was written. Read from its start it is
a ledger (`Ledger.ofTrace`): where the key stream stands, which bytes of which chunk were encrypted
with it, and which offsets of the chunk data were written, all in their order. **Nothing but
preparing a stream, encrypting and writing chunk data makes an entry,** so moving, flushing and
closing a container with streamed chunks leave the ledger as it is (`ledger_frame`).
-/

set_option autoImplicit false

namespace Vault

/-- The entries that a trace makes. -/
structure Ledger where
  /-- The chunk and the offset that the key stream stands at. -/
  pen : Option (Nat × Nat) := none
  /-- The chunks and offsets of the bytes that were encrypted. -/
  inked : List (Nat × Nat) := []
  /-- The raw offsets at which chunk data was written. -/
  written : List Nat := []
deriving DecidableEq

namespace Ledger

/-- The entry that one line of the trace makes. -/
def enter (dataOffset : Nat) : Event → Ledger → Ledger
  | .streamStarted seqnum, l => { l with pen := some (seqnum, 0) }
  | .streamResumed seqnum offset, l => { l with pen := some (seqnum, offset) }
  | .streamed n, l =>
    match l.pen with
    | some (seqnum, offset) => { l with
        pen := some (seqnum, offset + n)
        inked := l.inked ++ (List.range n).map fun k => (seqnum, offset + k) }
    | none => l
  | .wrote offset n, l =>
    if dataOffset ≤ offset then { l with written := l.written ++ List.range' offset n } else l
  | _, l => l

/-- The ledger of a trace, whose last line comes first. -/
def ofTrace (dataOffset : Nat) (trace : List Event) : Ledger := trace.foldr (enter dataOffset) {}

theorem enter_of_isPlain {dataOffset : Nat} {event : Event} (h : event.isPlain = true)
    (l : Ledger) : l.enter dataOffset event = l := by
  cases event <;> first | rfl | simp [Event.isPlain] at h

/-- Encrypting moves the pen. -/
theorem enter_streamed {dataOffset seqnum offset : Nat} {l : Ledger}
    (h : l.pen = some (seqnum, offset)) (n : Nat) :
    l.enter dataOffset (.streamed n) = { l with
      pen := some (seqnum, offset + n)
      inked := l.inked ++ (List.range n).map fun k => (seqnum, offset + k) } := by
  simp only [enter, h]

/-- Writing chunk data is entered. -/
theorem enter_wrote {dataOffset offset : Nat} (h : dataOffset ≤ offset) (l : Ledger) (n : Nat) :
    l.enter dataOffset (.wrote offset n) = { l with
      written := l.written ++ List.range' offset n } :=
  if_pos h

end Ledger

namespace Session

/-- The ledger of what a container did. -/
def ledger (s : Session) (dataOffset : Nat) : Ledger := Ledger.ofTrace dataOffset s.trace

/-- A container with streamed chunks whose trace makes these entries. -/
def Books (dataOffset : Nat) (l : Ledger) (s : Session) : Prop :=
  s.ledger dataOffset = l ∧ s.processor.config.streaming = true

end Session

open Session

/-! ## What makes no entry

Most of what a container does leaves only lines that are no entries, and each operation inherits
that from the frame lemmas. Two writes need a word of their own: the header lies in front of the
chunk data, and packing a streamed chunk gives nothing to write. -/

theorem ledger_ambient (dataOffset : Nat) (l : Ledger) : Ambient (Books dataOffset l) where
  faults := fun _ h => h
  handle := fun _ h => h
  noted := fun hplain h => ⟨(Ledger.enter_of_isPlain hplain _).trans h.1, h.2⟩

namespace Raw

variable {s : Session} {h : Handle} {dataOffset : Nat} {l : Ledger}

/-- Writing in front of the chunk data makes no entry. -/
theorem write_books (hh : s.handle = some h) (hoffset : h.position < dataOffset) (data : Bytes) :
    (write data).Keeps (Books dataOffset l) (fun _ => True) s := by
  intro hs
  have hmeets : (meetFault .write).Keeps (fun t => Books dataOffset l t ∧ t.handle = some h)
      (fun _ => True) s := meetFault_keeps_of id
  -- a fault that strikes leaves the ledger, and one that cuts the write short still notes its place
  have hmet := hmeets ⟨hs, hh⟩
  have hI := ledger_ambient dataOffset l
  have hnoted (n : Nat) {t : Session} : Op.Keeps (do
      moveTo h (h.position + n)
      note (.wrote h.position n)
      return n) (Books dataOffset l) (fun _ => True) t := by
    refine Op.Keeps.bind (moveTo_keeps hI _ _) fun _ _ _ => ?_
    refine Op.Keeps.modify_bind (fun ht => ⟨?_, ht.2⟩) (Op.Keeps.pure trivial)
    -- the line is entered only if its place is chunk data
    exact (if_neg (Nat.not_le.mpr hoffset)).trans ht.1
  unfold write
  simp only [bind, EStateM.bind]
  cases hx : meetFault .write s with
  | error e t => rw [hx] at hmet; exact hmet.1
  | ok short t =>
    rw [hx] at hmet
    obtain ⟨-, ht, hh'⟩ := hmet
    have hhandle : handle t = .ok h t := by
      simp [handle, bind, EStateM.bind, hh']
    simp only [hhandle]
    refine Op.Keeps.ite (fun _ => ?_) (fun _ => hnoted _) ht
    exact Op.Keeps.unless fun _ => Op.Keeps.modify_bind (fun h => h) (hnoted _)

/-- Opening a raw file makes no entry, nor does making one. -/
theorem openAs_books (mode : Mode) :
    (openAs mode).Keeps (Books dataOffset l) (fun _ => True) s :=
  openAs_keeps_of (fun _ h => h) (ledger_ambient dataOffset l) mode

end Raw

namespace Container

variable {s : Session} {h : Handle} {x : Chunk} {dataOffset offset : Nat} {l : Ledger} {full : Prop}

/-- Writing in front of the chunk data makes no entry. -/
theorem writeAt_books (hoffset : offset < dataOffset) (data : Bytes) :
    (writeAt offset data).Keeps (Books dataOffset l) (fun _ => True) s := by
  intro hs
  have hseek := Raw.seek_keeps (ledger_ambient dataOffset l) offset hs
  have hplace (t : Session) (ht : Raw.seek offset s = .ok () t) :
      ∃ h, t.handle = some h ∧ h.position = offset := by
    -- seeking tells where the next write begins
    simp only [Raw.seek, bind, EStateM.bind] at ht
    split at ht
    · split at ht
      · obtain ⟨-, rfl⟩ := (EStateM.Result.ok.injEq _ _ _ _).mp ht
        exact ⟨_, rfl, rfl⟩
      · simp at ht
    · simp at ht
  unfold writeAt
  simp only [bind, EStateM.bind]
  cases hx : Raw.seek offset s with
  | error e t => rw [hx] at hseek; exact hseek
  | ok _ t =>
    rw [hx] at hseek
    obtain ⟨h, hh, hposition⟩ := hplace t hx
    refine Op.Keeps.bind (Raw.write_books hh (hposition ▸ hoffset) data) (fun _ _ _ => ?_) hseek.2
    exact Op.Keeps.ite (fun _ => Op.Keeps.throw) fun _ => Op.Keeps.pure trivial

/-- Packing a streamed chunk gives nothing to write. -/
theorem flushChunk_books (x : Chunk) :
    (flushChunk x).Keeps (Books dataOffset l) (fun _ => True) s := by
  unfold flushChunk packChunk
  refine Op.Keeps.bind (P := (· = [])) ?_ fun data _ hdata => ?_
  · refine Op.Keeps.bind (Raw.note_keeps (ledger_ambient dataOffset l) rfl) fun _ _ _ => ?_
    -- the run of the draw shows that nothing was packed
    refine Op.Keeps.get_bind fun ht => Op.Keeps.ofDraw (fun _ h => h) fun data random hrun => ?_
    simp only [Processor.packChunk, ht.2, if_true] at hrun
    exact ((EStateM.Result.ok.injEq _ _ _ _).mp hrun).1.symm
  · rw [if_pos hdata]
    exact Op.Keeps.pure trivial

/-- **A container with streamed chunks makes no entries but by streaming.** Packing a chunk gives
nothing to write, and the sizes lie in the header. -/
theorem ledger_frame (hoffset : Header.size ≤ dataOffset) (l : Ledger) :
    Frame (Books dataOffset l) fun _ => True where
  toAmbient := ledger_ambient dataOffset l
  processor := fun _ hreset h => ⟨h.1, Processor.config_of_reset hreset ▸ h.2⟩
  opening := fun _ _ _ h => h
  current := fun _ h => h
  pool := fun _ _ h => h
  sized := fun h => h
  safe_current := fun _ _ => trivial
  safe_pool := fun _ _ => trivial
  clean := fun _ => trivial
  place := fun _ _ => trivial
  flushChunk := fun _ _ => flushChunk_books _
  writeSize := by
    intro s
    have hsize : Header.size = 22 := rfl
    have hplain : Header.plaintextAt < dataOffset := Nat.lt_of_lt_of_le (by decide) hoffset
    have hcipher : Header.ciphertextAt < dataOffset := Nat.lt_of_lt_of_le (by decide) hoffset
    unfold writeSize
    refine Op.Keeps.get_bind fun _ => Op.Keeps.ite (fun _ => ?_) fun _ => Op.Keeps.pure trivial
    refine Op.Keeps.bind (writeAt_books hplain _) fun _ _ _ => ?_
    refine Op.Keeps.bind (writeAt_books hcipher _) fun _ _ _ => ?_
    exact Op.Keeps.modify (fun h => h) trivial

theorem ledger_detached (dataOffset : Nat) (l : Ledger) : Detached (Books dataOffset l) where
  closed := fun h => h
  mode := fun _ h => h

/-- The metadata of a new container lie in front of the chunk data too. -/
theorem createLayout_books (hoffset : Header.size ≤ dataOffset) :
    createLayout.Keeps (Books dataOffset l) (fun _ => True) s :=
  createLayout_keeps (ledger_frame hoffset l) (fun _ h => h)
    (fun _ => writeAt_books (Nat.lt_of_lt_of_le (by decide) hoffset) _)
    fun x _ => flushChunk_books x

/-- Opening makes no entry, whether the file is there or not. -/
theorem launch_books (hoffset : Header.size ≤ dataOffset) (mode : Mode) (metadataOnly : Bool) :
    (launch mode metadataOnly).Keeps (Books dataOffset l) (fun _ => True) s := by
  have hF := ledger_frame hoffset l
  have hout := ledger_detached dataOffset l
  unfold launch
  refine Op.Keeps.get_bind fun _ => Op.Keeps.get_bind fun _ => ?_
  refine Op.Keeps.modify_bind (fun hs => forget_keeps hF hout hs _ rfl rfl) ?_
  refine Op.Keeps.bind (Raw.openAs_books _) fun _ _ _ => ?_
  exact launched_keeps hF hout (Op.Keeps.ite (fun _ => createLayout_books hoffset)
    fun _ => loadLayout_keeps hF metadataOnly)

theorem openIn_books (hoffset : Header.size ≤ dataOffset) (mode : Mode) :
    (openIn mode).Keeps (Books dataOffset l) (fun _ => True) s := by
  unfold openIn
  exact Op.Keeps.get_bind fun _ => Op.Keeps.unless fun _ => Op.Keeps.unless fun _ =>
    launch_books hoffset mode false

theorem close_books (hoffset : Header.size ≤ dataOffset) :
    close.Keeps (Books dataOffset l) (fun _ => True) s := by
  unfold close
  refine Op.Keeps.get_bind fun _ => Op.Keeps.ite (fun _ => ?_) fun _ => Op.Keeps.pure trivial
  exact shut_keeps (ledger_frame hoffset l) (ledger_detached dataOffset l) true

end Container

/-! ## What makes an entry

A write that succeeds names its place and its length, and both are what was asked for: a shorter
write is taken for a failure before it can be counted. -/

namespace Raw

variable {s : Session} {h : Handle} {full : Prop}

theorem write_notes (hh : s.handle = some h) (hw : h.writable = true) (data : Bytes) :
    (write data).Does full s
      (fun _ s' => s'.trace = .wrote h.position data.length :: s.trace) (fun _ => True) := by
  unfold write
  refine Op.Does.bind ((meetFault_wears s .write).mono (fun _ _ => id) fun _ _ => trivial) ?_
  rintro _ - ⟨rfl, faults, rfl⟩
  refine Op.Does.bind (handle_does (s := { s with faults }) hh _) ?_
  rintro _ - ⟨rfl, rfl⟩
  simp only [Bool.false_eq_true, if_false]
  by_cases hdata : data = []
  · -- an empty write is noted as well, and enters no offset
    simp only [hdata, ne_eq, not_true_eq_false, if_false]
    exact Op.Does.modify_bind rfl (Op.Does.modify_bind rfl (Op.Does.pure rfl))
  · simp only [ne_eq, hdata, not_false_eq_true, if_true, hw, Bool.not_true, Bool.false_eq_true,
      if_false]
    exact Op.Does.modify_bind rfl (Op.Does.modify_bind rfl
      (Op.Does.modify_bind rfl (Op.Does.pure rfl)))

end Raw

namespace Container

variable {s : Session} {h : Handle} {offset : Nat} {full : Prop}

/-- Writing is entered if it is chunk data that is written. -/
theorem writeAt_enters (dataOffset : Nat) (hh : s.handle = some h) (hw : h.writable = true)
    (hstream : s.processor.config.streaming = true) (data : Bytes) :
    (writeAt offset data).Does True s
      (fun _ s' => s'.ledger dataOffset
        = (s.ledger dataOffset).enter dataOffset (.wrote offset data.length)) (fun _ => True) := by
  have hI := ledger_ambient dataOffset (s.ledger dataOffset)
  unfold writeAt
  refine Op.Does.bind (((Raw.seek_does hh offset).keeping (Raw.seek_keeps hI offset)
    ⟨rfl, hstream⟩).mono (fun _ _ => id) fun _ _ => trivial) ?_
  rintro - - ⟨⟨x, hx, rfl⟩, hledger, -⟩
  refine Op.Does.bind (Raw.write_notes (handle_beside hh x) hw data) ?_
  intro n t ht
  have hdone : t.ledger dataOffset
      = (s.ledger dataOffset).enter dataOffset (.wrote offset data.length) := by
    rw [← hledger, ← hx, ledger, ht]
    rfl
  by_cases hn : n ≠ data.length
  · rw [if_pos hn]
    -- the device took fewer bytes, so there is no success to account for
    exact fun _ => ⟨.inr ⟨Fault.Worn.refl _, trivial⟩, trivial⟩
  · rw [if_neg hn]
    exact Op.Does.pure hdone

end Container

end Vault
