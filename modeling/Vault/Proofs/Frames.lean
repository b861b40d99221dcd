import Vault.Container.Upkeep
import Vault.Proofs.Pool
import Vault.Proofs.Runs

/-!
# `Vault/Proofs/Frames.lean` — what a run leaves alone

Some facts about a session survive whatever a computation does, faults or not: that the disk is
what it was, or that nothing new was encrypted. `Op.Keeps` says so of a run without asking why it
failed. **A fact that is not about the surroundings of a container and that writing does not touch
is a frame** (`Frame`), and moving, flushing, closing and opening keep every frame. What counts as
writing is left to the frame: it says which chunks are safe to have in memory and shows that
writing one of those, or the sizes, keeps the fact.

Most facts that a proof carries along are of this kind, and each of them takes the fields of `Frame`
and nothing about moving or closing. The statements about single operations (`Op.Does`) say what an
operation is for. Those here say what it is not for, so the two are put together where both are
needed (`Does.keeping`).
-/

set_option autoImplicit false

namespace Vault

/-! ## Runs that keep a fact -/

namespace Op

variable {α β : Type} {I : Session → Prop} {P : α → Prop} {Q : β → Prop} {s : Session}

/-- Whatever comes of the run, what held before it holds after it. An answer is one of these. -/
def Keeps (x : Op α) (I : Session → Prop) (P : α → Prop) (s : Session) : Prop :=
  I s → match x s with
    | .ok a s' => P a ∧ I s'
    | .error _ s' => I s'

theorem Keeps.pure {a : α} (h : P a) : (Pure.pure a : Op α).Keeps I P s := fun hs => ⟨h, hs⟩

theorem Keeps.throw {e : Error} : (throw e : Op α).Keeps I P s := fun hs => hs

theorem Keeps.bind {x : Op α} {f : α → Op β} (h : x.Keeps I P s)
    (hf : ∀ a s', P a → (f a).Keeps I Q s') : (x >>= f).Keeps I Q s := by
  intro hs
  have h := h hs
  simp only [Bind.bind, EStateM.bind]
  cases hx : x s with
  | error e s' => rw [hx] at h; exact h
  | ok a s' => rw [hx] at h; exact hf a s' h.1 h.2

theorem Keeps.mono {P' : α → Prop} {x : Op α} (h : x.Keeps I P s) (hP : ∀ a, P a → P' a) :
    x.Keeps I P' s := by
  intro hs
  have h := h hs
  cases hx : x s with
  | error e s' => rw [hx] at h; exact h
  | ok a s' => rw [hx] at h; exact ⟨hP a h.1, h.2⟩

theorem Keeps.get_bind {f : Session → Op β} (h : I s → (f s).Keeps I Q s) :
    ((get : Op Session) >>= f).Keeps I Q s := fun hs => h hs hs

theorem Keeps.set_bind {s' : Session} {f : PUnit → Op β} (hs' : I s → I s')
    (h : (f ()).Keeps I Q s') : ((set s' : Op PUnit) >>= f).Keeps I Q s := fun hs => h (hs' hs)

theorem Keeps.modify_bind {g : Session → Session} {f : PUnit → Op β} (hg : I s → I (g s))
    (h : (f ()).Keeps I Q (g s)) : ((modify g : Op PUnit) >>= f).Keeps I Q s :=
  fun hs => h (hg hs)

theorem Keeps.set {s' : Session} {P : PUnit → Prop} (hs' : I s → I s') (h : P ()) :
    (MonadStateOf.set s' : Op PUnit).Keeps I P s := fun hs => ⟨h, hs' hs⟩

theorem Keeps.modify {g : Session → Session} {P : PUnit → Prop} (hg : I s → I (g s)) (h : P ()) :
    (modify g : Op PUnit).Keeps I P s := fun hs => ⟨h, hg hs⟩

theorem Keeps.ofExcept {x : Except Error α} (h : ∀ a, x = .ok a → P a) :
    (Op.ofExcept x).Keeps I P s := by
  cases x with
  | ok a => exact Keeps.pure (h a rfl)
  | error e => exact Keeps.throw

theorem Keeps.ofExcept_bind {x : Except Error α} {f : α → Op β}
    (h : ∀ a, x = .ok a → (f a).Keeps I Q s) : (Op.ofExcept x >>= f).Keeps I Q s := by
  cases x with
  | ok a => exact h a rfl
  | error e => exact fun hs => hs

theorem Keeps.ofDraw {x : Draw α} (hI : ∀ random, I s → I { s with random })
    (h : ∀ a random, x s.random = .ok a random → P a) : (Op.ofDraw x).Keeps I P s := by
  intro hs
  unfold Op.ofDraw
  cases hx : x s.random with
  | ok a random => exact ⟨h a random hx, hI random hs⟩
  | error e random => exact hI random hs

theorem Keeps.discard {x : Op α} (h : x.Keeps I P s) :
    (Functor.discard x).Keeps I (fun _ => True) s := by
  intro hs
  have h := h hs
  simp only [Functor.discard, Functor.mapConst, Function.comp, EStateM.map]
  cases hx : x s with
  | error e s' => rw [hx] at h; exact h
  | ok a s' => rw [hx] at h; exact ⟨trivial, h.2⟩

/-- A failure that is looked at. -/
theorem Keeps.attempt {x : Op α} (h : x.Keeps I P s) :
    (Op.attempt x).Keeps I (fun r => ∀ a, r = .ok a → P a) s := by
  intro hs
  have h := h hs
  unfold Op.attempt
  cases hx : x s with
  | error e s' => rw [hx] at h; exact ⟨by simp, h⟩
  | ok a s' => rw [hx] at h; exact ⟨by rintro _ ⟨⟩; exact h.1, h.2⟩

theorem Keeps.ite {c : Prop} [Decidable c] {x y : Op α} (hx : c → x.Keeps I P s)
    (hy : ¬c → y.Keeps I P s) : (if c then x else y).Keeps I P s := by
  by_cases hc : c
  · rw [if_pos hc]; exact hx hc
  · rw [if_neg hc]; exact hy hc

/-- A check in front of the rest. -/
theorem Keeps.unless {c : Prop} [Decidable c] {e : Error} {f : α → Op β} {y : Op β}
    (hy : ¬c → y.Keeps I Q s) : (if c then MonadExcept.throw e >>= f else y).Keeps I Q s :=
  Keeps.ite (fun _ => Keeps.bind (P := fun _ => False) (fun hs => hs) fun _ _ => False.elim) hy

/-- What is kept holds after the run. -/
theorem Keeps.after {x : Op α} (h : x.Keeps I P s) (hs : I s) : I (x.after s) := by
  have h := h hs
  cases hx : x s with
  | error e s' => rw [hx] at h; rw [after_of_error hx]; exact h
  | ok a s' => rw [hx] at h; rw [after_of_ok hx]; exact h.2

/-- What is kept can be said with the rest. -/
theorem Does.keeping {full : Prop} {x : Op α} {ok : α → Session → Prop} {err : Session → Prop}
    (h : x.Does full s ok err) (hx : x.Keeps I P s) (hs : I s) :
    x.Does full s (fun a s' => ok a s' ∧ I s') (fun s' => err s' ∧ I s') := by
  intro ht
  have h := h ht
  have hx := hx hs
  cases hrun : x s with
  | ok a s' => rw [hrun] at h hx; exact ⟨h.1, h.2, hx.2⟩
  | error e s' => rw [hrun] at h hx; exact ⟨h.1, h.2, hx⟩

/-- What is kept holds after an answer and after an error. -/
theorem Keeps.ends {x : Op α} (h : x.Keeps I P s) (hs : I s) :
    x.Ends s (fun _ s' => I s') fun _ s' => I s' :=
  Ends.mono (h hs) (fun _ _ h => h.2) fun _ _ => id

/-- What is kept together with something else that held. -/
theorem Keeps.beside {x : Op α} {J : Session → Prop} (hJ : J s)
    (h : x.Keeps (fun t => I t ∧ J t) P s) : x.Keeps I P s := by
  intro hs
  have h := h ⟨hs, hJ⟩
  cases hx : x s with
  | ok a t => rw [hx] at h; exact ⟨h.1, h.2.1⟩
  | error e t => rw [hx] at h; exact h.1

theorem Ends.keeping {x : Op α} {ok : α → Session → Prop} {err : Error → Session → Prop}
    (h : x.Ends s ok err) (hx : x.Keeps I P s) (hs : I s) :
    x.Ends s (fun a s' => ok a s' ∧ I s') (fun e s' => err e s' ∧ I s') := by
  unfold Ends at h ⊢
  have hx := hx hs
  cases hrun : x s with
  | ok a s' => rw [hrun] at h hx; exact ⟨h, hx.2⟩
  | error e s' => rw [hrun] at h hx; exact ⟨h, hx⟩

end Op

/-! ## Frames

What may be left to the frame has to be what every operation does in the same way. Looking at the
raw file, moving its handle and putting lines into the trace are such things. Which chunks are in
memory is not: a frame about clean containers has to know that no dirty chunk comes in, which is
what `Safe` is for. -/

/-- Does the line say nothing about what was written or encrypted? -/
def Event.isPlain : Event → Bool
  | .wrote _ _ | .streamStarted _ | .streamResumed _ _ | .streamed _ => false
  | _ => true

/-- Does the call change what is in the raw file? -/
def RawCall.alters : RawCall → Bool
  | .write | .truncate => true
  | _ => false

/-- A fact that is not about the surroundings of a container. The armed faults may be among what it
is about, but only those that wait for a change of the raw file. So may be the source of randomness,
which only writing draws from, and whether the raw file is open. -/
structure Ambient (I : Session → Prop) : Prop where
  faults : ∀ {s} {call : RawCall}, call.alters = false → I s →
    I { s with faults := (Fault.meet call s.faults).2 }
  handle : ∀ {s} (h : Handle), I s → I { s with handle := some h }
  noted : ∀ {s} {event : Event}, event.isPlain = true → I s →
    I { s with trace := event :: s.trace }

theorem Ambient.and {I J : Session → Prop} (hI : Ambient I) (hJ : Ambient J) :
    Ambient fun s => I s ∧ J s where
  faults hcall h := ⟨hI.faults hcall h.1, hJ.faults hcall h.2⟩
  handle t h := ⟨hI.handle t h.1, hJ.handle t h.2⟩
  noted hevent h := ⟨hI.noted hevent h.1, hJ.noted hevent h.2⟩

/-- A fact that is not about the surroundings of a container either, and that survives as long as
only safe chunks are in memory. -/
structure Frame (I : Session → Prop) (Safe : Chunk → Prop) : Prop extends Ambient I where
  /-- The processor may be another one with the same master key and configuration. -/
  processor : ∀ {s} (processor : Processor), processor.reset = s.processor.reset → I s →
    I { s with processor }
  /-- Sizes and positions may be others. -/
  opening : ∀ {s} {o : Opening}, o.mode = s.mode → o.current = s.current →
    o.sizeDirty = s.sizeDirty → I s → I { s with toOpening := o }
  current : ∀ {s} {x : Option Chunk}, (∀ y, x = some y → Safe y) → I s → I { s with current := x }
  pool : ∀ {s} {pool : Pool}, pool.capacity = s.pool.capacity → (∀ y ∈ pool.entries, Safe y) →
    I s → I { s with pool }
  sized : ∀ {s}, I s → I { s with sizeDirty := false }
  /-- Only safe chunks are in memory. -/
  safe_current : ∀ {s : Session} {y}, I s → s.current = some y → Safe y
  safe_pool : ∀ {s : Session} {y}, I s → y ∈ s.pool.entries → Safe y
  clean : ∀ {x : Chunk}, x.dirty = false → Safe x
  place : ∀ {x : Chunk} offset, Safe x → Safe { x with offset }
  /-- Writing keeps the fact. -/
  flushChunk : ∀ {s} {x : Chunk}, Safe x → x.dirty = true →
    (Container.flushChunk x).Keeps I Safe s
  writeSize : ∀ {s}, Container.writeSize.Keeps I (fun _ => True) s

/-- A fact that is the same of an open container and of a closed one, whatever the mode. Opening and
closing keep such a frame. -/
structure Detached (I : Session → Prop) : Prop where
  closed : ∀ {s}, I s → I { s with handle := none }
  mode : ∀ {s} mode, I s → I { s with mode }

/-- Where the mode does not matter either, all that is known may be replaced. -/
theorem Frame.reopening {I : Session → Prop} {Safe : Chunk → Prop} {s : Session} {o : Opening}
    (hI : Frame I Safe) (hout : Detached I) (hcurrent : o.current = s.current)
    (hsized : o.sizeDirty = s.sizeDirty) (hs : I s) : I { s with toOpening := o } :=
  hI.opening (s := { s with mode := o.mode }) rfl hcurrent hsized (hout.mode o.mode hs)

namespace Raw

variable {I : Session → Prop} {s : Session}

theorem note_keeps (hI : Ambient I) {event : Event} (hevent : event.isPlain = true) :
    (note event).Keeps I (fun _ => True) s :=
  Op.Keeps.modify (hI.noted hevent) trivial

/-- Meeting the faults changes nothing else. -/
theorem meetFault_keeps_of {call : RawCall}
    (hmeet : ∀ {s : Session}, I s → I { s with faults := (Fault.meet call s.faults).2 }) :
    (meetFault call).Keeps I (fun _ => True) s := by
  unfold meetFault
  refine Op.Keeps.get_bind fun _ => ?_
  refine Op.Keeps.set_bind hmeet ?_
  split
  · exact Op.Keeps.pure trivial
  · exact Op.Keeps.pure trivial
  · exact Op.Keeps.throw
  · exact Op.Keeps.throw

theorem meetFault_keeps (hI : Ambient I) {call : RawCall} (hcall : call.alters = false) :
    (meetFault call).Keeps I (fun _ => True) s :=
  meetFault_keeps_of (hI.faults hcall)

theorem handle_keeps : handle.Keeps I (fun _ => True) s := by
  unfold handle
  refine Op.Keeps.get_bind fun _ => ?_
  split
  · exact Op.Keeps.pure trivial
  · exact Op.Keeps.throw

theorem moveTo_keeps (hI : Ambient I) (h : Handle) (position : Nat) :
    (moveTo h position).Keeps I (fun _ => True) s :=
  Op.Keeps.modify (hI.handle _) trivial

theorem seek_keeps (hI : Ambient I) (position : Nat) :
    (seek position).Keeps I (fun _ => True) s := by
  unfold seek
  refine Op.Keeps.bind (meetFault_keeps hI rfl).discard fun _ _ _ => ?_
  exact Op.Keeps.bind handle_keeps fun h _ _ => moveTo_keeps hI h position

theorem read_keeps (hI : Ambient I) (n : Nat) : (read n).Keeps I (fun _ => True) s := by
  unfold read
  refine Op.Keeps.bind (meetFault_keeps hI rfl) fun _ _ _ => ?_
  refine Op.Keeps.bind handle_keeps fun _ _ _ => Op.Keeps.get_bind fun _ => ?_
  refine Op.Keeps.bind (moveTo_keeps hI _ _) fun _ _ _ => ?_
  exact Op.Keeps.bind (note_keeps hI rfl) fun _ _ _ => Op.Keeps.pure trivial

theorem size_keeps (hI : Ambient I) : size.Keeps I (fun _ => True) s := by
  unfold size
  refine Op.Keeps.bind (meetFault_keeps hI rfl).discard fun _ _ _ => ?_
  exact Op.Keeps.bind handle_keeps fun _ _ _ => Op.Keeps.get_bind fun _ => Op.Keeps.pure trivial

/-- A call that asks for nothing but to be made lasting. -/
theorem settle_keeps (hI : Ambient I) {event : Event} (hevent : event.isPlain = true)
    {call : RawCall} (hcall : call.alters = false) :
    Op.Keeps (do note event; discard (meetFault call); discard handle) I (fun _ => True) s :=
  Op.Keeps.bind (note_keeps hI hevent) fun _ _ _ =>
    Op.Keeps.bind (meetFault_keeps hI hcall).discard fun _ _ _ => handle_keeps.discard

theorem flush_keeps (hI : Ambient I) (deep : Bool) : (flush deep).Keeps I (fun _ => True) s :=
  settle_keeps hI rfl rfl

theorem sync_keeps (hI : Ambient I) : sync.Keeps I (fun _ => True) s := settle_keeps hI rfl rfl

theorem fsync_keeps (hI : Ambient I) : fsync.Keeps I (fun _ => True) s :=
  settle_keeps hI rfl rfl

theorem close_keeps (hI : Ambient I) (hclosed : Detached I) : close.Keeps I (fun _ => True) s := by
  unfold close
  refine Op.Keeps.bind (note_keeps hI rfl) fun _ _ _ => ?_
  refine Op.Keeps.bind (meetFault_keeps hI rfl).attempt fun _ _ hmet => ?_
  exact Op.Keeps.modify_bind hclosed.closed (Op.Keeps.ofExcept hmet).discard

theorem openExisting_keeps (hI : Ambient I) (writable : Bool) :
    (openExisting writable).Keeps I (fun _ => True) s := by
  unfold openExisting
  refine Op.Keeps.get_bind fun _ => ?_
  split
  · exact Op.Keeps.set (hI.handle _) trivial
  · exact Op.Keeps.throw

section
variable (hdisk : ∀ {s : Session} disk, I s → I { s with disk })
include hdisk

/-- Cutting a file keeps what is not about the disk. -/
theorem truncate_keeps (hI : Ambient I)
    (hcut : ∀ {s : Session}, I s → I { s with faults := (Fault.meet .truncate s.faults).2 })
    (size : Nat) (durable : Bool) : (truncate size durable).Keeps I (fun _ => True) s := by
  unfold truncate
  refine Op.Keeps.bind (note_keeps hI rfl) fun _ _ _ => ?_
  refine Op.Keeps.bind (meetFault_keeps_of hcut).discard fun _ _ _ => ?_
  refine Op.Keeps.bind handle_keeps fun _ _ _ => Op.Keeps.unless fun _ => ?_
  exact Op.Keeps.modify (hdisk _) trivial

/-- Writing keeps what is about neither the disk nor the trace. -/
theorem write_keeps (hI : Ambient I)
    (hwrite : ∀ {s : Session}, I s → I { s with faults := (Fault.meet .write s.faults).2 })
    (htrace : ∀ {s : Session} trace, I s → I { s with trace }) (data : Bytes) :
    (write data).Keeps I (fun _ => True) s := by
  unfold write
  refine Op.Keeps.bind (meetFault_keeps_of hwrite) fun _ _ _ => ?_
  refine Op.Keeps.bind handle_keeps fun h _ _ => ?_
  -- the handle and the trace move on whether or not there was anything to write
  have hdone {n : Nat} {s : Session} : Op.Keeps (do
      moveTo h (h.position + n)
      note (.wrote h.position n)
      return n) I (fun _ => True) s := by
    refine Op.Keeps.bind (moveTo_keeps hI _ _) fun _ _ _ => ?_
    exact Op.Keeps.modify_bind (htrace _) (Op.Keeps.pure trivial)
  refine Op.Keeps.ite (fun _ => ?_) fun _ => hdone
  exact Op.Keeps.unless fun _ => Op.Keeps.modify_bind (hdisk _) hdone

/-- So does opening, whether or not a file is made. -/
theorem openAs_keeps_of (hI : Ambient I) (mode : Mode) :
    (openAs mode).Keeps I (fun _ => True) s := by
  -- a file that is made comes with its handle
  have hmade {s : Session} (disk : Disk) (h : Handle) (hs : I s) :
      I { s with disk, handle := some h } := hdisk disk (hI.handle h hs)
  have hcreated {s : Session} : openCreated.Keeps I (fun _ => True) s := by
    unfold openCreated
    refine Op.Keeps.get_bind fun _ => Op.Keeps.ite (fun _ => ?_) fun _ => Op.Keeps.throw
    exact Op.Keeps.set (hmade _ _) trivial
  unfold openAs
  refine Op.Keeps.bind (note_keeps hI rfl) fun _ _ _ => ?_
  refine Op.Keeps.bind (meetFault_keeps hI rfl).discard fun _ _ _ => ?_
  refine Op.Keeps.get_bind fun _ => Op.Keeps.unless fun _ => ?_
  cases mode with
  | write =>
    dsimp only
    split
    · exact Op.Keeps.set (hmade _ _) trivial
    · exact hcreated
  | writeNew => exact Op.Keeps.ite (fun _ => Op.Keeps.throw) fun _ => hcreated
  | _ => exact openExisting_keeps hI _

end

/-- A raw file that is not made is opened as it is. -/
theorem openAs_keeps (hI : Ambient I) {mode : Mode} {there : Bool}
    (hmode : mode.createsFile there = false) :
    (openAs (mode.raw there)).Keeps I (fun _ => True) s := by
  unfold openAs
  refine Op.Keeps.bind (note_keeps hI rfl) fun _ _ _ => ?_
  refine Op.Keeps.bind (meetFault_keeps hI rfl).discard fun _ _ _ => ?_
  refine Op.Keeps.get_bind fun _ => Op.Keeps.unless fun _ => ?_
  -- the modes that make the file are excluded, and what is left opens the one that is there
  cases mode with
  | write => simp [Mode.createsFile] at hmode
  | writeNew => simp [Mode.createsFile] at hmode
  | append =>
    obtain rfl : there = true := by simpa [Mode.createsFile] using hmode
    exact openExisting_keeps hI true
  | _ => exact openExisting_keeps hI _

end Raw

/-! ## What a processor keeps -/

namespace Processor

/-- The same master key and configuration. -/
theorem config_of_reset {p p' : Processor} (h : p'.reset = p.reset) : p'.config = p.config := by
  have hconfig : p'.reset.config = p.reset.config := congrArg config h
  exact hconfig

/-- Keys and capacities come from the descriptor, master key and configuration do not. -/
theorem reset_of_unpackDescriptor {p p' : Processor} {data : Bytes}
    (h : p.unpackDescriptor data = .ok p') : p'.reset = p.reset := by
  unfold unpackDescriptor at h
  simp only [bind, Except.bind, pure, Except.pure] at h
  repeat' split at h
  all_goals first | (obtain rfl := Except.ok.inj h; rfl) | exact absurd h (by simp)

/-- Making metadata does not change them either. -/
theorem reset_of_packMetadata {p : Processor} {initialSize : UInt64} {random random' : Random}
    {made : Bytes × Processor} (h : p.packMetadata initialSize random = .ok made random') :
    made.2.reset = p.reset := by
  unfold packMetadata at h
  simp only [bind, EStateM.bind] at h
  repeat' split at h
  all_goals first
    | (obtain ⟨rfl, -⟩ := (EStateM.Result.ok.injEq _ _ _ _).mp h; rfl)
    | exact absurd h (by simp)

end Processor

/-! ## The streams of a processor -/

namespace Processor

variable {p p' : Processor} {seqnum offset : Nat} {random random' : Random} {data : Bytes}

/-- A stream that is started begins with a nonce. Nothing but the stream changes. -/
theorem stream_of_startStream {made : Bytes × Processor}
    (h : p.startStream seqnum random = .ok made random') :
    made.1.length = Salsa20.nonceSize ∧ ∃ stream, made.2 = { p with stream } := by
  have hdraw : Draw.bytes Salsa20.nonceSize random
      = .ok (random.draw Salsa20.nonceSize).1 (random.draw Salsa20.nonceSize).2 := rfl
  simp only [startStream, bind, EStateM.bind, hdraw] at h
  repeat' split at h
  all_goals first
    | (obtain ⟨rfl, -⟩ := (EStateM.Result.ok.injEq _ _ _ _).mp h)
    | exact absurd h (by simp)
  exact ⟨random.length_draw _, _, rfl⟩

theorem stream_of_resumeStream (h : p.resumeStream data seqnum offset = .ok p') :
    ∃ stream, p' = { p with stream } := by
  unfold resumeStream at h
  simp only [bind, Except.bind, pure, Except.pure] at h
  repeat' split at h
  all_goals first | (obtain rfl := Except.ok.inj h; exact ⟨_, rfl⟩) | exact absurd h (by simp)

/-- As much comes out of the stream as goes in. -/
theorem stream_of_encryptStream {made : Bytes × Processor} (h : p.encryptStream data = .ok made) :
    made.1.length = data.length ∧ ∃ stream, made.2 = { p with stream } := by
  unfold encryptStream at h
  split at h
  · exact absurd h (by simp)
  · rename_i stream _
    obtain rfl := Except.ok.inj h
    exact ⟨stream.length_apply data, _, rfl⟩

end Processor

/-! ## What is in the pool -/

namespace Pool

variable {p : Pool} {x y : Chunk} {Safe : Chunk → Prop}

/-- Inserting hands back and keeps nothing but what was there and what came. -/
theorem mem_insert (h : y ∈ (p.insert x).1.toList ++ (p.insert x).2.entries) :
    y ∈ p.entries ∨ y = x := by
  have hmem : y ∈ p.entries.filter (fun z => z.seqnum != x.seqnum) ++ [x] := by
    simp only [insert] at h
    split at h
    · rcases hentries : p.entries.filter (fun z => z.seqnum != x.seqnum) ++ [x] with _ | ⟨z, zs⟩
      · simp at hentries
      · simpa [hentries] using h
    · simpa using h
  simp only [List.mem_append, List.mem_filter, List.mem_singleton] at hmem
  exact hmem.imp And.left id

theorem mem_take {i : Nat} (h : y ∈ (p.take i).1.toList ++ (p.take i).2.entries) :
    y ∈ p.entries :=
  (p.perm_take i).mem_iff.mp h

theorem mem_refresh (h : y ∈ (p.refresh x).entries) : y ∈ p.entries ∨ y = x := by
  simp only [refresh, List.mem_map] at h
  obtain ⟨z, hz, rfl⟩ := h
  split
  · exact .inr rfl
  · exact .inl hz

end Pool

namespace Container

variable {I : Session → Prop} {Safe : Chunk → Prop} {s : Session} {x : Chunk}

/-! ## Chunks

Of chunks, all that is needed is that the safe ones stay in memory. Chunks from the file are
clean, and clean ones are safe; so it is the chunks that leave memory at which a frame has to
look, since those are written. -/

theorem ensureOpen_keeps : ensureOpen.Keeps I (fun _ => True) s := by
  unfold ensureOpen
  exact Op.Keeps.get_bind fun _ =>
    Op.Keeps.ite (fun _ => Op.Keeps.throw) fun _ => Op.Keeps.pure trivial

theorem setCurrent_keeps (hI : Frame I Safe) (hx : Safe x) :
    (setCurrent x).Keeps I (fun _ => True) s :=
  Op.Keeps.modify (hI.current (by rintro _ ⟨⟩; exact hx)) trivial

theorem active_keeps (hI : Frame I Safe) : active.Keeps I Safe s := by
  unfold active
  refine Op.Keeps.get_bind fun hs => ?_
  cases hx : s.current with
  | some x => exact Op.Keeps.pure (hI.safe_current hs hx)
  | none => exact Op.Keeps.throw

theorem unpackChunk_keeps (hI : Ambient I) (data : Bytes) (seqnum : Nat) :
    (unpackChunk data seqnum).Keeps I (fun _ => True) s := by
  unfold unpackChunk
  refine Op.Keeps.bind (Raw.note_keeps hI rfl) fun _ _ _ => Op.Keeps.get_bind fun _ => ?_
  exact Op.Keeps.ofExcept fun _ _ => trivial

/-- Packing draws from the source of randomness and changes nothing else. -/
theorem packChunk_keeps (hI : Ambient I)
    (hrandom : ∀ {s : Session} random, I s → I { s with random }) (x : Chunk) :
    (packChunk x).Keeps I (fun _ => True) s := by
  unfold packChunk
  refine Op.Keeps.bind (Raw.note_keeps hI rfl) fun _ _ _ => Op.Keeps.get_bind fun _ => ?_
  exact Op.Keeps.ofDraw hrandom fun _ _ _ => trivial

theorem rawPosOf_keeps (hI : Ambient I) (seqnum : Nat) :
    (rawPosOf seqnum).Keeps I (fun _ => True) s := by
  unfold rawPosOf
  refine Op.Keeps.get_bind fun _ => Op.Keeps.bind (Raw.size_keeps hI) fun _ _ _ => ?_
  refine Op.Keeps.unless fun _ => Op.Keeps.get_bind fun _ => Op.Keeps.unless fun _ => ?_
  exact Op.Keeps.pure trivial

theorem flushActive_keeps (hI : Frame I Safe) (hdirty : ∀ y, s.current = some y → y.dirty = true) :
    flushActive.Keeps I (fun _ => True) s := by
  have hactive : active.Keeps I (fun x => Safe x ∧ x.dirty = true) s := by
    unfold active
    refine Op.Keeps.get_bind fun hs => ?_
    cases hx : s.current with
    | none => exact Op.Keeps.throw
    | some x => exact Op.Keeps.pure ⟨hI.safe_current hs hx, hdirty x hx⟩
  unfold flushActive
  refine Op.Keeps.bind hactive fun x _ hx => ?_
  exact Op.Keeps.bind (hI.flushChunk hx.1 hx.2) fun _ _ => setCurrent_keeps hI

theorem flushLast_keeps (hI : Frame I Safe) : flushLast.Keeps I (fun _ => True) s := by
  unfold flushLast
  refine Op.Keeps.get_bind fun _ => ?_
  cases hx : s.current with
  | none => exact Op.Keeps.pure trivial
  | some x =>
    refine Op.Keeps.ite (fun hc => ?_) fun _ => Op.Keeps.pure trivial
    refine flushActive_keeps hI fun y hy => ?_
    obtain rfl := Option.some.inj (hx.symm.trans hy)
    exact (by simpa using hc : _ ∧ _).1

/-- Writing chunks that have left the pool keeps what writing each of them keeps. -/
theorem flushEvicted_keeps_of {P : Chunk → Prop} {xs : List Chunk}
    (hflush : ∀ x ∈ xs, x.dirty = true → ∀ t : Session, (Container.flushChunk x).Keeps I P t) :
    (flushEvicted xs).Keeps I (fun _ => True) s := by
  induction xs generalizing s with
  | nil => exact Op.Keeps.pure trivial
  | cons x xs ih =>
    have ih {t : Session} := ih (s := t) fun y hy => hflush y (List.mem_cons_of_mem x hy)
    unfold flushEvicted
    refine Op.Keeps.ite (fun hdirty => ?_) fun _ => ih
    exact Op.Keeps.bind (hflush x List.mem_cons_self hdirty s).discard fun _ _ _ => ih

theorem flushEvicted_keeps (hI : Frame I Safe) {xs : List Chunk} (hxs : ∀ x ∈ xs, Safe x) :
    (flushEvicted xs).Keeps I (fun _ => True) s :=
  flushEvicted_keeps_of fun x hx hdirty _ => hI.flushChunk (hxs x hx) hdirty

/-- Writing pooled chunks keeps what writing each of them and putting it back keeps. -/
theorem flushPooled_keeps_of {P : Chunk → Prop} {xs : List Chunk}
    (hflush : ∀ x ∈ xs, x.dirty = true → ∀ t : Session, (Container.flushChunk x).Keeps I P t)
    (hrefresh : ∀ (t : Session) y, P y → I t → I { t with pool := t.pool.refresh y }) :
    (flushPooled xs).Keeps I (fun _ => True) s := by
  induction xs generalizing s with
  | nil => exact Op.Keeps.pure trivial
  | cons x xs ih =>
    have ih {t : Session} := ih (s := t) fun y hy => hflush y (List.mem_cons_of_mem x hy)
    unfold flushPooled
    refine Op.Keeps.ite (fun hdirty => ?_) fun _ => ih
    refine Op.Keeps.bind (hflush x List.mem_cons_self hdirty s) fun y t hy => ?_
    exact Op.Keeps.modify_bind (hrefresh t y hy) ih

theorem flushPooled_keeps (hI : Frame I Safe) {xs : List Chunk} (hxs : ∀ x ∈ xs, Safe x) :
    (flushPooled xs).Keeps I (fun _ => True) s := by
  refine flushPooled_keeps_of (fun x hx hdirty _ => hI.flushChunk (hxs x hx) hdirty)
    fun t y hy ht => hI.pool rfl (fun z hz => ?_) ht
  rcases Pool.mem_refresh hz with hz | rfl
  · exact hI.safe_pool ht hz
  · exact hy

theorem retire_keeps (hI : Frame I Safe) (hx : Safe x) :
    (retire x).Keeps I (fun _ => True) s := by
  unfold retire
  refine Op.Keeps.get_bind fun hs => Op.Keeps.ite (fun _ => ?_) fun _ => ?_
  · -- what makes way for the chunk, and what stays, was in the pool or is the chunk itself
    have hmem (y : Chunk) (hy : y ∈ (s.pool.insert x).1.toList ++ (s.pool.insert x).2.entries) :
        Safe y := by
      rcases Pool.mem_insert hy with hy | rfl
      · exact hI.safe_pool hs hy
      · exact hx
    refine Op.Keeps.set_bind
      (hI.pool (s.pool.capacity_insert x) fun y hy => hmem y (List.mem_append_right _ hy)) ?_
    exact flushEvicted_keeps hI fun y hy => hmem y (List.mem_append_left _ hy)
  · exact Op.Keeps.ite (fun hdirty => (hI.flushChunk hx hdirty).discard) fun _ =>
      Op.Keeps.pure trivial

theorem takePooled_keeps (hI : Frame I Safe) (seqnum : Nat) :
    (takePooled seqnum).Keeps I (fun found => ∀ y, found = some y → Safe y) s := by
  unfold takePooled
  refine Op.Keeps.get_bind fun hs => Op.Keeps.ite (fun _ => ?_) fun _ => ?_
  · have hmem (y : Chunk)
        (hy : y ∈ (s.pool.take seqnum).1.toList ++ (s.pool.take seqnum).2.entries) : Safe y :=
      hI.safe_pool hs (Pool.mem_take hy)
    refine Op.Keeps.set_bind
      (hI.pool rfl fun y hy => hmem y (List.mem_append_right _ hy)) (Op.Keeps.pure fun y hy => ?_)
    exact hmem y (List.mem_append_left _ (Option.mem_toList.mpr hy))
  · exact Op.Keeps.pure (by simp)

/-- A chunk from the file is the one asked for, and clean. -/
theorem loadChunk_keeps_of (hI : Ambient I) (seqnum offset overwrite : Nat) :
    (loadChunk seqnum offset overwrite).Keeps I
      (fun y => y.dirty = false ∧ y.seqnum = seqnum) s := by
  unfold loadChunk
  refine Op.Keeps.get_bind fun _ => Op.Keeps.bind (rawPosOf_keeps hI seqnum) fun raw _ _ => ?_
  refine Op.Keeps.get_bind fun _ => ?_
  refine Op.Keeps.ite (fun _ => Op.Keeps.pure ⟨rfl, rfl⟩) fun _ => ?_
  refine Op.Keeps.ite (fun _ => Op.Keeps.pure ⟨rfl, rfl⟩) fun _ => ?_
  refine Op.Keeps.bind (Raw.seek_keeps hI raw) fun _ _ _ => ?_
  refine Op.Keeps.bind (Raw.read_keeps hI _) fun data _ _ => Op.Keeps.unless fun _ => ?_
  exact Op.Keeps.bind (unpackChunk_keeps hI data seqnum) fun _ _ _ => Op.Keeps.pure ⟨rfl, rfl⟩

theorem loadChunk_keeps (hI : Frame I Safe) (seqnum offset overwrite : Nat) :
    (loadChunk seqnum offset overwrite).Keeps I Safe s :=
  (loadChunk_keeps_of hI.toAmbient seqnum offset overwrite).mono fun _ h => hI.clean h.1

/-- Making another chunk current, from memory or from the file. -/
theorem arrive_keeps (hI : Frame I Safe) (seqnum offset overwrite pos : Nat) :
    Op.Keeps (do
      let chunk ← match ← takePooled seqnum with
        | some chunk => pure chunk
        | none => loadChunk seqnum offset overwrite
      modify fun s => { s with
        current := some { chunk with offset }
        cursor := pos
        eofSeqnum := max s.eofSeqnum seqnum }) I (fun _ => True) s := by
  -- on both ways the chunk is safe, and it is put to its place
  have hset (y : Chunk) (hy : Safe y) {w : Session} : Op.Keeps (modify fun s => { s with
      current := some { y with offset }
      cursor := pos
      eofSeqnum := max s.eofSeqnum seqnum } : Op Unit) I (fun _ => True) w := by
    refine Op.Keeps.modify (fun hw => ?_) trivial
    exact hI.opening (s := { w with current := some { y with offset } }) rfl rfl rfl
      (hI.current (by rintro _ ⟨⟩; exact hI.place offset hy) hw)
  refine Op.Keeps.bind (takePooled_keeps hI seqnum) fun found v hfound => ?_
  cases found with
  | some y => exact Op.Keeps.bind (Op.Keeps.pure (hfound y rfl)) fun y _ hy => hset y hy
  | none =>
    exact Op.Keeps.bind (loadChunk_keeps hI seqnum offset overwrite) fun y _ hy => hset y hy

/-- **Moving keeps every frame.** -/
theorem moveTo_keeps (hI : Frame I Safe) (pos overwrite : Nat) :
    (moveTo pos overwrite).Keeps I (fun _ => True) s := by
  unfold moveTo
  refine Op.Keeps.bind ensureOpen_keeps fun _ s _ => Op.Keeps.get_bind fun hs => ?_
  refine Op.Keeps.unless fun _ => ?_
  split
  · exact Op.Keeps.throw
  · rename_i seqnum offset _
    refine Op.Keeps.ite (fun _ => ?_) fun _ => ?_
    · refine Op.Keeps.modify (fun hs => ?_) trivial
      -- within the same chunk only its place changes
      have hplaced : ∀ y, s.current.map (fun x => { x with offset }) = some y → Safe y := by
        intro y hy
        obtain ⟨x, hx, rfl⟩ := Option.map_eq_some_iff.mp hy
        exact hI.place offset (hI.safe_current hs hx)
      exact hI.opening (s := { s with current := s.current.map fun x => { x with offset } })
        rfl rfl rfl (hI.current hplaced hs)
    · refine Op.Keeps.bind (flushLast_keeps hI) fun _ t _ => Op.Keeps.get_bind fun ht => ?_
      refine Op.Keeps.modify_bind (hI.current (by simp)) ?_
      cases hx : t.current with
      | none => exact arrive_keeps hI seqnum offset overwrite pos
      -- the chunk that was current is put away, which writes it if no pool is used
      | some x =>
        exact Op.Keeps.bind (retire_keeps hI (hI.safe_current ht hx)) fun _ _ _ =>
          arrive_keeps hI seqnum offset overwrite pos

/-- Adding up the chunks that are cut off reads them. -/
theorem extentBefore_keeps (hI : Frame I Safe) (x : Chunk) (later : Nat) (extent : Extent) :
    (extentBefore x later extent).Keeps I (fun _ => True) s := by
  induction later generalizing s x extent with
  | zero => exact Op.Keeps.ofExcept fun _ _ => trivial
  | succ later ih =>
    refine Op.Keeps.ofExcept_bind fun _ _ => ?_
    exact Op.Keeps.bind (loadChunk_keeps hI _ 0 0) fun next _ _ => ih next _

/-! ## Writing what is not about the disk

The statements of this section are for facts that are not frames, since they do not survive every
kind of writing, and for showing that a fact is one. Each of them asks for what it needs: the
disk, the counts, the trace and the faults may be replaced. -/

section
variable (hcounts : ∀ {s : Session} (ciphertextSize : Nat) (sizeDirty tailCut : Bool),
    I s → I { s with ciphertextSize, sizeDirty, tailCut })
  (hdisk : ∀ {s : Session} disk, I s → I { s with disk })
  (htrace : ∀ {s : Session} trace, I s → I { s with trace })
  (hwrite : ∀ {s : Session}, I s → I { s with faults := (Fault.meet .write s.faults).2 })
include hdisk

theorem cutTail_keeps (hI : Ambient I)
    (hcut : ∀ {s : Session}, I s → I { s with faults := (Fault.meet .truncate s.faults).2 })
    (hcut' : ∀ {s : Session}, I s → I { s with tailCut := true }) (rawEnd : Nat) :
    (cutTail rawEnd).Keeps I (fun _ => True) s := by
  have hdone {s : Session} : Op.Keeps (modify fun s => { s with tailCut := true }) I
      (fun _ => True) s := Op.Keeps.modify hcut' trivial
  unfold cutTail
  refine Op.Keeps.get_bind fun _ => Op.Keeps.ite (fun _ => ?_) fun _ => Op.Keeps.pure trivial
  refine Op.Keeps.bind (Raw.size_keeps hI) fun _ _ _ => Op.Keeps.ite (fun _ => ?_) fun _ => hdone
  exact Op.Keeps.bind (Raw.truncate_keeps hdisk hI hcut _ false) fun _ _ _ => hdone

include htrace hwrite

theorem writeAt_keeps (hI : Ambient I) (offset : Nat) (data : Bytes) :
    (writeAt offset data).Keeps I (fun _ => True) s := by
  unfold writeAt
  refine Op.Keeps.bind (Raw.seek_keeps hI offset) fun _ _ _ => ?_
  refine Op.Keeps.bind (Raw.write_keeps hdisk hI hwrite htrace data) fun _ _ _ => ?_
  exact Op.Keeps.ite (fun _ => Op.Keeps.throw) fun _ => Op.Keeps.pure trivial

include hcounts

theorem writeSize_keeps (hI : Ambient I) : writeSize.Keeps I (fun _ => True) s := by
  unfold writeSize
  refine Op.Keeps.get_bind fun _ => Op.Keeps.ite (fun _ => ?_) fun _ => Op.Keeps.pure trivial
  refine Op.Keeps.bind (writeAt_keeps hdisk htrace hwrite hI _ _) fun _ _ _ => ?_
  refine Op.Keeps.bind (writeAt_keeps hdisk htrace hwrite hI _ _) fun _ _ _ => ?_
  exact Op.Keeps.modify (hcounts _ _ _) trivial

/-- A chunk that was written is clean. -/
theorem flushChunk_keeps (hI : Ambient I)
    (hcut : ∀ {s : Session}, I s → I { s with faults := (Fault.meet .truncate s.faults).2 })
    (hrandom : ∀ {s : Session} random, I s → I { s with random }) (x : Chunk) :
    (flushChunk x).Keeps I (fun y => y.dirty = false ∧ y.seqnum = x.seqnum) s := by
  unfold flushChunk
  refine Op.Keeps.bind (packChunk_keeps hI hrandom x) fun data _ _ => ?_
  refine Op.Keeps.ite (fun _ => Op.Keeps.pure ⟨rfl, rfl⟩) fun _ => ?_
  refine Op.Keeps.bind (rawPosOf_keeps hI x.seqnum) fun raw _ _ => ?_
  refine Op.Keeps.bind (cutTail_keeps hdisk hI hcut (hcounts _ _ _) _) fun _ _ _ => ?_
  refine Op.Keeps.bind (writeAt_keeps hdisk htrace hwrite hI raw data) fun _ _ _ => ?_
  refine Op.Keeps.ite (fun _ => ?_) fun _ => Op.Keeps.pure ⟨rfl, rfl⟩
  exact Op.Keeps.modify_bind (hcounts _ _ _) (Op.Keeps.pure ⟨rfl, rfl⟩)

end

/-! ## Flushing and closing -/

/-- Writing the sizes and flushing the raw file. -/
theorem settle_keeps (hI : Frame I Safe) (raw : Option Bool) :
    Op.Keeps (do
      writeSize
      match raw with
      | some deep => Raw.flush deep
      | none => pure ()) I (fun _ => True) s := by
  refine Op.Keeps.bind hI.writeSize fun _ _ _ => ?_
  cases raw with
  | none => exact Op.Keeps.pure trivial
  | some deep => exact Raw.flush_keeps hI.toAmbient deep

theorem flushAll_keeps (hI : Frame I Safe) (raw : Option Bool) :
    (flushAll raw).Keeps I (fun _ => True) s := by
  unfold flushAll
  refine Op.Keeps.get_bind fun hs =>
    Op.Keeps.ite (fun _ => ?_) fun _ => Op.Keeps.pure trivial
  refine Op.Keeps.bind (flushPooled_keeps hI fun x hx => hI.safe_pool hs hx) fun _ t _ => ?_
  refine Op.Keeps.get_bind fun ht => Op.Keeps.ite (fun hdirty => ?_) fun _ =>
    settle_keeps hI raw
  refine Op.Keeps.bind (flushActive_keeps hI fun y hy => ?_) fun _ _ _ => settle_keeps hI raw
  simpa [hy] using hdirty

/-- The container forgets what it knew. -/
theorem forget_keeps (hI : Frame I Safe) (hout : Detached I) (hs : I s) (o : Opening)
    (hcurrent : o.current = none) (hsized : o.sizeDirty = false) :
    I { s with toOpening := o, pool := s.pool.clear } := by
  have hempty : I { s with pool := s.pool.clear } := hI.pool rfl (by simp [Pool.clear]) hs
  have hnone : I { s with pool := s.pool.clear, current := none } := hI.current (by simp) hempty
  exact hI.reopening hout hcurrent hsized (hI.sized hnone)

theorem forgetAll_keeps (hI : Frame I Safe) (hout : Detached I) :
    forgetAll.Keeps I (fun _ => True) s := by
  refine Op.Keeps.modify (fun hs => ?_) trivial
  refine hI.processor s.processor.reset ?_ (forget_keeps hI hout hs {} rfl rfl)
  rfl

theorem closeRaw_keeps (hI : Frame I Safe) (hout : Detached I) (flush : Bool) :
    (closeRaw flush).Keeps I (fun _ => True) s := by
  unfold closeRaw
  refine Op.Keeps.get_bind fun _ => Op.Keeps.ite (fun _ => ?_) fun _ => Op.Keeps.pure trivial
  -- what was flushed before does not matter for closing the raw file
  have hclose {flushed : Except Error Unit} {s : Session} : Op.Keeps (do
      let closed ← Op.attempt Raw.close
      Op.ofExcept flushed
      Op.ofExcept closed) I (fun _ => True) s := by
    refine Op.Keeps.bind (Raw.close_keeps hI.toAmbient hout).attempt fun _ _ _ => ?_
    exact Op.Keeps.bind (P := fun _ => True) (Op.Keeps.ofExcept fun _ _ => trivial) fun _ _ _ =>
      Op.Keeps.ofExcept fun _ _ => trivial
  cases flush with
  | true => exact Op.Keeps.bind (flushAll_keeps hI (some false)).attempt fun _ _ _ => hclose
  | false => exact Op.Keeps.bind (P := fun _ => True) (Op.Keeps.pure trivial) fun _ _ _ => hclose

/-- **Closing keeps every frame.** -/
theorem shut_keeps (hI : Frame I Safe) (hout : Detached I) (flush : Bool) :
    (shut flush).Keeps I (fun _ => True) s := by
  unfold shut
  refine Op.Keeps.bind (closeRaw_keeps hI hout flush).attempt fun _ _ _ => ?_
  exact Op.Keeps.bind (forgetAll_keeps hI hout) fun _ _ _ => Op.Keeps.ofExcept fun _ _ => trivial

/-! ## Opening a file that is there

Opening for writing a file that is not there makes one, which is writing; that is why the
statements ask for a mode that makes none. `createLayout_keeps` is for the frames that survive
it. -/

theorem readExactly_keeps (hI : Ambient I) (n : Nat) (short : Nat → Error) :
    (readExactly n short).Keeps I (fun _ => True) s := by
  unfold readExactly
  refine Op.Keeps.bind (Raw.read_keeps hI n) fun _ _ _ => Op.Keeps.unless fun _ => ?_
  exact Op.Keeps.pure trivial

/-- What comes in front of a chunk's ciphertext is the nonce of a new chunk, or nothing. -/
theorem prepareStream_keeps (hI : Ambient I)
    (hrandom : ∀ {s : Session} random, I s → I { s with random })
    (htrace : ∀ {s : Session} trace, I s → I { s with trace })
    (hstream : ∀ {s : Session} stream, I s →
      I { s with processor := { s.processor with stream } }) (x : Chunk) (raw : Nat) :
    (prepareStream x raw).Keeps I
      (fun lead => lead.length = if x.ciphertextSize = 0 then Salsa20.nonceSize else 0) s := by
  intro hs
  -- The processor is looked at first and replaced later, by one that has another stream.
  let J (t : Session) : Prop := I t ∧ ∃ stream, t.processor = { s.processor with stream }
  have hJ : Ambient J := hI.and
    { faults := fun _ h => h, handle := fun _ h => h, noted := fun _ h => h }
  have hset {t : Session} {p : Processor} (hp : ∃ stream, p = { s.processor with stream })
      (ht : J t) : J { t with processor := p } := by
    obtain ⟨e, rfl⟩ := hp
    obtain ⟨ht, e', he'⟩ := ht
    have ht' := hstream e ht
    rw [he'] at ht'
    exact ⟨ht', e, rfl⟩
  have hnote (event : Event) {t : Session} :
      (Raw.note event).Keeps J (fun _ => True) t :=
    Op.Keeps.modify (fun h => ⟨htrace _ h.1, h.2⟩) trivial
  have hall : (prepareStream x raw).Keeps J
      (fun lead => lead.length = if x.ciphertextSize = 0 then Salsa20.nonceSize else 0) s := by
    unfold prepareStream
    refine Op.Keeps.get_bind fun _ => Op.Keeps.ite (fun hnew => ?_) fun hold => ?_
    · refine Op.Keeps.bind (hnote _) fun _ _ _ => ?_
      refine Op.Keeps.bind (P := fun made => made.1.length = Salsa20.nonceSize ∧
        ∃ stream, made.2 = { s.processor with stream }) ?_ fun made _ hmade => ?_
      · exact Op.Keeps.ofDraw (fun random h => ⟨hrandom random h.1, h.2⟩) fun _ _ =>
          Processor.stream_of_startStream
      · exact Op.Keeps.modify_bind (hset hmade.2) (Op.Keeps.pure (by rw [if_pos hnew, hmade.1]))
    · have hdone {t : Session} : (pure [] : Op Bytes).Keeps J
          (fun lead => lead.length = if x.ciphertextSize = 0 then Salsa20.nonceSize else 0) t :=
        Op.Keeps.pure (by rw [if_neg hold]; rfl)
      refine Op.Keeps.ite (fun _ => ?_) fun _ => hdone
      refine Op.Keeps.bind (Raw.seek_keeps hJ raw) fun _ _ _ => ?_
      refine Op.Keeps.bind (readExactly_keeps hJ _ _) fun _ _ _ => ?_
      refine Op.Keeps.bind (hnote _) fun _ _ _ => ?_
      refine Op.Keeps.ofExcept_bind fun p hp => ?_
      exact Op.Keeps.modify_bind (hset (Processor.stream_of_resumeStream hp)) hdone
  exact Op.Keeps.beside (J := fun t => ∃ stream, t.processor = { s.processor with stream })
    ⟨s.processor.stream, rfl⟩ hall hs

theorem loadSizes_keeps (hI : Frame I Safe) (info : HeaderInfo) :
    (loadSizes info).Keeps I (fun _ => True) s := by
  unfold loadSizes
  refine Op.Keeps.modify_bind (hI.opening rfl rfl rfl) (Op.Keeps.get_bind fun _ => ?_)
  refine Op.Keeps.bind (Raw.size_keeps hI.toAmbient) fun _ _ _ => Op.Keeps.unless fun _ => ?_
  split
  · exact Op.Keeps.throw
  · refine Op.Keeps.modify_bind (hI.opening rfl rfl rfl) ?_
    split
    · exact Op.Keeps.throw
    · exact Op.Keeps.ite (fun _ => Op.Keeps.throw) fun _ => Op.Keeps.pure trivial

theorem loadLayout_keeps (hI : Frame I Safe) (metadataOnly : Bool) :
    (loadLayout metadataOnly).Keeps I (fun _ => True) s := by
  unfold loadLayout
  refine Op.Keeps.bind (Raw.seek_keeps hI.toAmbient 0) fun _ _ _ => ?_
  refine Op.Keeps.bind (readExactly_keeps hI.toAmbient _ _) fun _ _ _ => ?_
  refine Op.Keeps.get_bind fun _ => Op.Keeps.ofExcept_bind fun info _ => ?_
  refine Op.Keeps.bind (readExactly_keeps hI.toAmbient _ _) fun data t _ => ?_
  refine Op.Keeps.get_bind fun _ => Op.Keeps.ofExcept_bind fun p hp => ?_
  refine Op.Keeps.modify_bind (hI.processor p (Processor.reset_of_unpackDescriptor hp)) ?_
  refine Op.Keeps.bind (loadSizes_keeps hI info) fun _ _ _ => ?_
  refine Op.Keeps.ite (fun _ => Op.Keeps.get_bind fun _ => ?_) fun _ => Op.Keeps.pure trivial
  refine Op.Keeps.bind (moveTo_keeps hI _ 0) fun _ _ _ => ?_
  exact Op.Keeps.modify (hI.opening rfl rfl rfl) trivial

/-- When the content cannot be read in, the raw file is closed again. -/
theorem launched_keeps (hI : Frame I Safe) (hout : Detached I) {x : Op Unit}
    (hx : x.Keeps I (fun _ => True) s) :
    Op.Keeps (do
        let opened ← Op.attempt x
        match opened with
        | .ok () => pure ()
        | .error e =>
          discard (Op.attempt (shut false))
          throw e) I (fun _ => True) s := by
  refine Op.Keeps.bind hx.attempt fun opened t _ => ?_
  -- a container that could not be read in is closed, and closing keeps the fact too
  cases opened with
  | ok _ => exact Op.Keeps.pure trivial
  | error e =>
    exact Op.Keeps.bind (shut_keeps hI hout false).attempt.discard fun _ _ _ => Op.Keeps.throw

/-- Making a container keeps a frame that drawing keeps, and writing at the start of the file and in
its first chunk. -/
theorem createLayout_keeps (hI : Frame I Safe)
    (hrandom : ∀ {s : Session} random, I s → I { s with random })
    (hwrite : ∀ {s : Session} data, (writeAt 0 data).Keeps I (fun _ => True) s)
    (hflush : ∀ {s : Session} x, Safe x → (flushChunk x).Keeps I Safe s) :
    createLayout.Keeps I (fun _ => True) s := by
  -- the processor that was drawn is a parameter, since the rest of the run cannot look at what was
  -- drawn for it
  have hmade (made : Bytes × Processor) {t : Session} (hreset : made.2.reset = t.processor.reset) :
      Op.Keeps (do
        modify fun s => { s with processor := made.2 }
        writeAt 0 made.1
        modify fun s => { s with layout := made.2.layout made.1.length }
        moveTo 0 0
        flushActive
        writeSize) I (fun _ => True) t := by
    refine Op.Keeps.modify_bind (hI.processor made.2 hreset) ?_
    refine Op.Keeps.bind (hwrite made.1) fun _ _ _ => ?_
    refine Op.Keeps.modify_bind (hI.opening rfl rfl rfl) ?_
    refine Op.Keeps.bind (moveTo_keeps hI 0 0) fun _ _ _ => ?_
    refine Op.Keeps.bind (P := fun _ => True) ?_ fun _ _ _ => hI.writeSize
    refine Op.Keeps.bind (active_keeps hI) fun x _ hx => ?_
    exact Op.Keeps.bind (hflush x hx) fun _ _ => setCurrent_keeps hI
  intro hs
  refine Op.Ends.get_bind (Op.Ends.bind
    (P := fun made t => I t ∧ made.2.reset = t.processor.reset) ?_
    fun made t ht => hmade made ht.2 ht.1)
  exact Op.Ends.ofDraw
    (fun made random hdraw => ⟨hrandom random hs, Processor.reset_of_packMetadata hdraw⟩)
    fun _ random _ => hrandom random hs

/-- **Opening a file that is there keeps every frame.** -/
theorem launch_keeps (hI : Frame I Safe) (hout : Detached I) {mode : Mode}
    (hmode : mode.createsFile (s.disk.contains s.path) = false) (metadataOnly : Bool) :
    (launch mode metadataOnly).Keeps I (fun _ => True) s := by
  unfold launch
  refine Op.Keeps.get_bind fun _ => Op.Keeps.get_bind fun _ => ?_
  refine Op.Keeps.modify_bind (fun hs => forget_keeps hI hout hs _ rfl rfl) ?_
  refine Op.Keeps.bind (Raw.openAs_keeps hI.toAmbient hmode) fun _ _ _ => ?_
  simp only [hmode, Bool.false_eq_true, if_false]
  exact launched_keeps hI hout (loadLayout_keeps hI metadataOnly)

/-- What a container knew before it is opened does not matter: a fact that holds without that is
kept. -/
theorem launch_keeps_of_forgotten (hI : Frame I Safe) (hout : Detached I) {mode : Mode}
    (hmode : mode.createsFile (s.disk.contains s.path) = false) (metadataOnly : Bool)
    (hs : I { s with
      toOpening := { mode, useCache := Container.cachePolicy { s.toContainer.forget with mode } }
      pool := s.pool.clear }) : I ((launch mode metadataOnly).after s) :=
  (launch_keeps (s := { s with
    toOpening := { mode, useCache := Container.cachePolicy { s.toContainer.forget with mode } }
    pool := s.pool.clear }) hI hout hmode metadataOnly).after hs

end Container

end Vault
