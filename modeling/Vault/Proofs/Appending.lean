import Vault.Proofs.StreamReading

/-!
# `Vault/Proofs/Appending.lean` — every byte is encrypted once

A container with streamed chunks is added to in one session after the other, and a key stream must
never be used twice for different bytes. **Whatever is written, grown, flushed, closed and opened
again: each byte of the content is encrypted exactly once,** with the key stream of its chunk at its
place in the chunk, and what was written of the chunk data is never written again.

A history is a list of acts (`Act`): opening, the calls of the session, closing. One act keeps what
is said of the container (`Lasts.act`), and so does a history (`Lasts.run`).

Three things are told of the same history: a string of bytes (`Flat`) says what is answered, an ink
(`Ink`) says which nonce each chunk has, and the ledger of the trace says what was encrypted and
written where. The ink of a later time has more nonces and never other ones, which is why what was
stored stays as it is.
-/

set_option autoImplicit false

namespace Vault

/-! ## One session after the other

The acts of a history and what they do to the string. Whether an act can be done depends on
nothing but whether the container is open, so it is decided before anything is run. -/

/-- What users do with a container that is added to. -/
inductive Act where
  | opens (mode : Mode)
  | asks (call : Call)
  | closes
  /-- Another container with the same master key takes the place of the closed one. -/
  | replaces (settings : ProcessorConfig) (config : ContainerConfig)
deriving DecidableEq

namespace Act

/-- Acts. -/
def run : Act → Op Answer
  | opens mode => do Container.openIn mode; return .done
  | asks call => call.run
  | closes => do Container.close; return .done
  | replaces settings config => do
    modify fun s => { s with
      toOpening := {}, config
      processor := Processor.ofConfig s.processor.master settings
      pool := Pool.new config.maxCachedChunks }
    return .done

/-- Acts one after the other. -/
def runAll : List Act → Op (List (Except Error Answer))
  | [] => return []
  | act :: acts => do
    let answer ← Op.attempt act.run
    return answer :: (← runAll acts)

/-- Whether the container is open after an act that can be done then: a closed container is opened
for appending or replaced by one for streamed chunks, an open one is asked or closed. -/
def leads (isOpen : Bool) : Act → Option Bool
  | opens mode => if !isOpen && mode.isAppend then some true else none
  | asks _ => if isOpen then some true else none
  | closes => if isOpen then some false else none
  | replaces settings _ => if !isOpen && settings.streaming then some false else none

/-- Can each act be done after those before it? -/
def orderly : (isOpen : Bool) → List Act → Bool
  | _, [] => true
  | isOpen, act :: acts => (act.leads isOpen).any fun next => orderly next acts

theorem orderly_cons {isOpen : Bool} {act : Act} {acts : List Act} :
    orderly isOpen (act :: acts) = true ↔
      ∃ next, act.leads isOpen = some next ∧ orderly next acts = true := by
  simp only [orderly, Option.any_eq_true]

end Act

namespace Flat

/-- What an act is answered, and the string after it. -/
def act (f : Flat) : Act → Except Error Answer × Flat
  | .opens mode => (.ok .done, opened mode f.content)
  | .asks call => f.step call
  | .closes | .replaces _ _ => (.ok .done, f)

/-- What a history is answered, and the string after it. -/
def acts (f : Flat) : List Act → List (Except Error Answer) × Flat
  | [] => ([], f)
  | a :: rest =>
    let later := (f.act a).2.acts rest
    ((f.act a).1 :: later.1, later.2)

/-- The strings on the way of a history. -/
def lived (f : Flat) : List Act → List Flat
  | [] => [f]
  | a :: rest => f :: (f.act a).2.lived rest

theorem self_mem_lived (f : Flat) (history : List Act) : f ∈ f.lived history := by
  cases history <;> exact List.mem_cons_self

theorem acts_append (f : Flat) (past more : List Act) :
    (f.acts (past ++ more)).2 = ((f.acts past).2.acts more).2 := by
  induction past generalizing f with
  | nil => rfl
  | cons act past ih => exact ih (f.act act).2

theorem acts_mem_lived (f : Flat) (past future : List Act) :
    (f.acts past).2 ∈ f.lived (past ++ future) := by
  induction past generalizing f with
  | nil => exact f.self_mem_lived future
  | cons act past ih => exact List.mem_cons_of_mem f (ih (f.act act).2)

/-- While it is open, the string is only added to. -/
def Adding (f : Flat) (isOpen : Bool) : Prop := isOpen = true → f.appending = true ∧ f.AtEnd

theorem adding_opened {mode : Mode} (h : mode.isAppend = true) (content : Bytes) :
    (opened mode content).Adding true := fun _ => ⟨h, atEnd_opened mode content⟩

/-- Bytes that were added stay. -/
theorem content_step {f : Flat} (happ : f.appending = true) (hend : f.AtEnd) (call : Call) :
    (f.step call).2.appending = true ∧ f.content <+: (f.step call).2.content := by
  -- all calls but writing and growing leave the bytes alone
  have hsame : f.appending = true ∧ f.content <+: f.content := ⟨happ, List.prefix_refl _⟩
  cases call with
  | seek pos => simp only [step]; split <;> exact hsame
  | read n =>
    simp only [step, happ, if_true]
    split <;> exact hsame
  | write data =>
    simp only [step, hend happ, Bytes.overlay_length]
    split
    · exact hsame
    · exact ⟨happ, List.prefix_append _ _⟩
  | truncate newSize backup =>
    simp only [step]
    split
    · exact hsame
    · next hallowed =>
      have hle : f.content.length ≤ newSize := Nat.le_of_not_lt fun hlt => hallowed ⟨happ, hlt⟩
      exact ⟨happ, Bytes.resize_of_ge hle ▸ List.prefix_append _ _⟩
  | _ => exact hsame

theorem Adding.act {f : Flat} {isOpen next : Bool} (h : f.Adding isOpen) {act : Act}
    (hleads : act.leads isOpen = some next) :
    (f.act act).2.Adding next ∧ f.content <+: (f.act act).2.content := by
  cases act with
  | opens mode =>
    obtain ⟨⟨rfl, happ⟩, rfl⟩ : (isOpen = false ∧ mode.isAppend = true) ∧ true = next := by
      simpa [Act.leads] using hleads
    exact ⟨adding_opened happ f.content, List.prefix_refl _⟩
  | asks call =>
    obtain ⟨rfl, rfl⟩ : isOpen = true ∧ true = next := by simpa [Act.leads] using hleads
    obtain ⟨happ, hend⟩ := h rfl
    have hstep := content_step happ hend call
    exact ⟨fun _ => ⟨hstep.1, hend.step call⟩, hstep.2⟩
  | closes =>
    obtain ⟨-, rfl⟩ : isOpen = true ∧ false = next := by simpa [Act.leads] using hleads
    exact ⟨fun hbad => absurd hbad (by simp), List.prefix_refl _⟩
  | replaces settings config =>
    obtain ⟨-, rfl⟩ : (isOpen = false ∧ settings.streaming = true) ∧ false = next := by
      simpa [Act.leads] using hleads
    exact ⟨fun hbad => absurd hbad (by simp), List.prefix_refl _⟩

/-- **A history only adds to the string.** -/
theorem Adding.acts {f : Flat} {isOpen : Bool} (h : f.Adding isOpen) {past future : List Act}
    (horderly : Act.orderly isOpen (past ++ future) = true) :
    f.content <+: (f.acts past).2.content ∧
      ∃ next, (f.acts past).2.Adding next ∧ Act.orderly next future = true := by
  -- on the acts before; the string of the first act is what the others start from
  induction past generalizing f isOpen with
  | nil => exact ⟨List.prefix_refl _, isOpen, h, horderly⟩
  | cons act past ih =>
    obtain ⟨next, hleads, hrest⟩ := Act.orderly_cons.mp horderly
    obtain ⟨hadding, hgrows⟩ := h.act hleads
    obtain ⟨hgrows', hlater⟩ := ih hadding hrest
    exact ⟨hgrows.trans hgrows', hlater⟩

end Flat

namespace Session

open Container

variable {s s' : Session} {g : Channel} {m : Metadata} {file : Nat} {path : String}
  {ink ink' : Ink} {f : Flat} {c d : Bytes}

/-! ## One call

What a call adds flows to the end of the chunk data. Reading and going back are refused in this
mode, so cursor and end never part, and the stream that the processor has stands at the end of
the content (`Session.InStep`). -/

/-- The container is open and adds to the string: all of it is stored. -/
structure Adds (s : Session) (g : Channel) (ink : Ink) (f : Flat) : Prop where
  appending : f.appending = true
  streams : s.Streams g ink f.content f.content
  inStep : s.InStep
  pos : s.seekCursor = f.pos
  atEnd : f.pos = f.content.length

/-- On the way the string grew, in the ink of what was there, and if the trace said that all of it
was encrypted once it still does. -/
def AddsOn (s s' : Session) (g : Channel) (ink : Ink) (f f' : Flat) : Prop :=
  ∃ ink', ink.AgreesUpTo ink' (g.layout.chunksFor f.content.length) ∧ s'.Adds g ink' f' ∧
    (s.Logged g f.content → s'.Logged g f'.content)

namespace Adds

theorem addsOn (h : s.Adds g ink f) : s.AddsOn s g ink f f :=
  ⟨ink, Ink.AgreesUpTo.refl ink _, h, id⟩

/-- What flows is added. -/
theorem flows (h : s.Adds g ink f) {content : Bytes}
    (hflows : s.Flows s' g ink f.content content) (hseek : s'.seekCursor = content.length) :
    s.AddsOn s' g ink f { f with content, pos := content.length } :=
  let ⟨ink', hagrees, hdone⟩ := hflows.streams
  ⟨ink', hagrees, ⟨h.appending, hdone, hflows.inStep, hseek, rfl⟩, hflows.logged⟩

/-- Nothing is added. -/
theorem rests (h : s.Adds g ink f) (hs : s'.Streams g ink f.content f.content)
    (hrests : s.Rests s' g f.content) (hseek : s'.seekCursor = s.seekCursor) :
    s.AddsOn s' g ink f f :=
  ⟨ink, Ink.AgreesUpTo.refl ink _,
    ⟨h.appending, hs, hrests.inStep h.inStep, hseek.trans h.pos, h.atEnd⟩, hrests.logged⟩

theorem idles (h : s.Adds g ink f) (hidles : s.Idles s' g ink f.content f.content) :
    s.AddsOn s' g ink f f :=
  h.rests hidles.streams hidles.rests hidles.seekCursor

/-- The end is the one place that can be gone to. -/
theorem answers_seek (h : s.Adds g ink f) (hfaults : s.faults = [])
    (hroom : g.layout.seqnumOf? f.content.length ≠ none) (pos : Nat) :
    s.Answers (Call.seek pos).run (f.step (.seek pos)).1
      fun s' => s.AddsOn s' g ink f (f.step (.seek pos)).2 := by
  simp only [Flat.step]
  by_cases hpos : pos = f.content.length
  · subst hpos
    rw [if_neg fun hbad => hbad.2 rfl]
    refine answers_of_does hfaults h.streams.seek_does (by simpa using hroom) ?_
    rintro _ s' ⟨h', hrests, hseek⟩
    have hdone : s'.Adds g ink { f with pos := f.content.length } :=
      ⟨h.appending, h', hrests.inStep h.inStep, hseek, rfl⟩
    exact ⟨rfl, ink, Ink.AgreesUpTo.refl ink _, hdone, hrests.logged⟩
  · rw [if_pos ⟨h.appending, hpos⟩]
    exact answers_of_error hfaults (h.streams.seek_refused hpos) h.addsOn

/-- Data are written behind what there is. -/
theorem answers_write (h : s.Adds g ink f) (hfaults : s.faults = []) {data : Bytes}
    (hroom : g.layout.seqnumOf? (f.step (.write data)).2.content.length ≠ none) :
    s.Answers (Call.write data).run (f.step (.write data)).1
      fun s' => s.AddsOn s' g ink f (f.step (.write data)).2 := by
  simp only [Flat.step, h.atEnd, Bytes.overlay_length] at hroom ⊢
  by_cases hdata : data = []
  · rw [if_pos hdata]
    exact answers_of_pure hfaults (if_pos hdata) h.addsOn
  · rw [if_neg hdata] at hroom ⊢
    rw [List.length_append] at hroom
    refine answers_of_does hfaults (h.streams.write_does h.inStep hdata) ?_ ?_
    · rintro (hne | hne | hnone)
      · exact hne (h.pos.trans h.atEnd)
      · exact hne rfl
      · exact hroom hnone
    · rintro _ s' ⟨rfl, hflows, hseek⟩
      rw [← List.length_append] at hseek ⊢
      exact ⟨rfl, h.flows hflows hseek⟩

/-- The string can be made longer, and is not made shorter. -/
theorem answers_truncate (h : s.Adds g ink f) (hfaults : s.faults = []) {newSize : Nat}
    {backup : Bool}
    (hroom : Layout.Roomy g.metadata.firstMax g.metadata.chunkMax
      (f.step (.truncate newSize backup)).2.content.length) :
    s.Answers (Call.truncate newSize backup).run (f.step (.truncate newSize backup)).1
      fun s' => s.AddsOn s' g ink f (f.step (.truncate newSize backup)).2 := by
  simp only [Flat.step] at hroom ⊢
  by_cases hlt : newSize < f.content.length
  · rw [if_pos ⟨h.appending, hlt⟩]
    exact answers_of_error hfaults (h.streams.truncate_refused hlt backup) h.addsOn
  · rw [if_neg fun hbad => hlt hbad.2] at hroom ⊢
    rw [if_pos h.appending]
    simp only [Bytes.length_resize] at hroom
    refine answers_of_does hfaults
      (h.streams.truncate_does h.inStep (Nat.le_of_not_lt hlt) backup) ?_ ?_
    · rintro (hne | hnone | hlarge)
      · exact hne rfl
      · exact hroom.2 hnone
      · exact Nat.not_lt.mpr (zerosAtOnce_le_limit hroom.1 s) hlarge
    · rintro _ s' (⟨heq, rfl⟩ | ⟨hflows, hseek⟩)
      · have hkept :
            ({ f with content := f.content.resize newSize, pos := newSize } : Flat) = f := by
          rw [heq, Bytes.resize_of_le (Nat.le_refl _), List.take_length, ← h.atEnd]
        exact ⟨rfl, hkept.symm ▸ h.addsOn⟩
      · have hlength : (f.content.resize newSize).length = newSize := Bytes.length_resize _ _
        have hadded := h.flows hflows (hseek.trans hlength.symm)
        rw [hlength] at hadded
        exact ⟨rfl, hadded⟩

/-- **Every call is answered as by a string of bytes,** and what it adds is encrypted once. -/
theorem step (h : s.Adds g ink f) (hfaults : s.faults = []) (call : Call)
    (hroom : Layout.Roomy g.metadata.firstMax g.metadata.chunkMax f.content.length)
    (hroom' : Layout.Roomy g.metadata.firstMax g.metadata.chunkMax
      (f.step call).2.content.length) :
    s.Answers call.run (f.step call).1
      fun s' => s.AddsOn s' g ink f (f.step call).2 := by
  have hsame := h.addsOn
  have hs := h.streams
  have hquiet {α : Type} {x : Op α} {k : α → Answer}
      (hx : x.Does False s (fun _ s' => s.Idles s' g ink f.content f.content)
        (fun s' => s'.Streams g ink f.content f.content)) (hk : ∀ a, k a = .done) :
      s.Answers (do return k (← x)) (.ok .done) fun s' => s.AddsOn s' g ink f f :=
    answers_of_does hfaults hx not_false fun a _ hidles => ⟨hk a, h.idles hidles⟩
  -- Only writing and growing add something; what else is answered lets the ink be.
  cases call with
  | seek pos => exact h.answers_seek hfaults hroom.2 pos
  | read n =>
    simp only [Flat.step, h.appending, if_true]
    by_cases hn : n = 0
    · rw [if_pos hn]
      exact answers_of_pure hfaults (if_pos hn) hsame
    · rw [if_neg hn]
      exact answers_of_error hfaults (hs.read_refused hn) hsame
  | write data => exact h.answers_write hfaults hroom'.2
  | truncate newSize backup => exact h.answers_truncate hfaults hroom'
  | contentSize =>
    refine ⟨s, ?_, hfaults, hsame⟩
    simp only [Call.run, Op.attempt, bind, EStateM.bind, hs.contentSize_eq, Op.pure_run, Flat.step]
  | position =>
    refine ⟨s, ?_, hfaults, hsame⟩
    have hseek : s.pos = f.pos := h.pos
    simp [Call.run, Op.attempt, Flat.step, bind, EStateM.bind, hseek]
  | flush deep =>
    exact hquiet ((hs.flushAll_does (some deep)).mono (fun _ _ h' => h'.1) fun _ => id) fun _ => rfl
  | sync => exact hquiet hs.sync_does fun _ => rfl
  | fsync => exact hquiet hs.fsync_does fun _ => rfl
  | usedSize =>
    exact hquiet ((hs.usedSize_does.mono (fun _ _ h' => h'.2) fun _ => id).discard) fun _ => rfl
  | invalidate => exact hquiet hs.invalidate_does fun _ => rfl
  | setMaxCached count => exact hquiet (hs.setMaxCached_does count) fun _ => rfl
  | setCacheEnabled enabled => exact hquiet (hs.setCacheEnabled_does enabled) fun _ => rfl
  | setBlock size => exact ⟨_, rfl, hfaults, h.idles (hs.idles_setBlock size)⟩

/-- **A list of calls is answered as by a string of bytes.** -/
theorem run (h : s.Adds g ink f) (hfaults : s.faults = []) (calls : List Call)
    (hroom : ∀ r ∈ f.reached calls,
      Layout.Roomy g.metadata.firstMax g.metadata.chunkMax r.content.length) :
    ∃ s' ink', Call.runAll calls s = .ok (f.run calls).1 s' ∧ s'.faults = [] ∧
      s'.Adds g ink' (f.run calls).2 := by
  induction calls generalizing s ink f with
  | nil => exact ⟨s, ink, rfl, hfaults, h⟩
  | cons call calls ih =>
    have hrest : ∀ r ∈ (f.step call).2.reached calls,
        Layout.Roomy g.metadata.firstMax g.metadata.chunkMax r.content.length :=
      fun r hr => hroom r (List.mem_cons_of_mem f hr)
    obtain ⟨t, hstep, hfaults', ink₁, -, ht, -⟩ := h.step hfaults call
      (hroom f (f.self_mem_reached _)) (hrest _ (Flat.self_mem_reached _ calls))
    obtain ⟨s', ink', hrun, hdone⟩ := ih ht hfaults' hrest
    refine ⟨s', ink', ?_, hdone⟩
    simp only [Call.runAll, bind, EStateM.bind, hstep, hrun]
    rfl

end Adds

/-! ## Between two acts

While the container is closed the processor has no stream, and what is said of the last chunk is
gone with it. What is left are the file and the trace (`Booked`); opening finds the stream again
from the nonce that the file has. -/

/-- The trace says that all of a content was encrypted and written once. -/
structure Booked (s : Session) (m : Metadata) (ink : Ink) (content : Bytes) : Prop where
  inked : (s.ledger m.dataOffset).inked.map some
    = (List.range content.length).map m.layout.locate?
  written : (s.ledger m.dataOffset).written
    = List.range' m.dataOffset (m.layout.ciphertext ink content).length

theorem Logged.booked (h : s.Logged g c) (hs : s.Stocks g ink c) : s.Booked g.metadata ink c :=
  ⟨h.inked, h.written.trans (by rw [hs.ciphertextSize])⟩

theorem Booked.logged (h : s.Booked g.metadata ink c) (hs : s.Stocks g ink c)
    (hstream : s.processor.stream = none) : s.Logged g c :=
  ⟨h.inked, h.written.trans (by rw [hs.ciphertextSize]), by simp [hstream]⟩

theorem Booked.of_ledger (h : s.Booked m ink c)
    (hledger : s'.ledger m.dataOffset = s.ledger m.dataOffset) : s'.Booked m ink c :=
  ⟨hledger ▸ h.inked, hledger ▸ h.written⟩

/-- What is said of a container between two acts: it is open and adds to the string, or it is closed
and its file tells the string. -/
def Lasts (s : Session) (m : Metadata) (file : Nat) (path : String) (ink : Ink) (f : Flat) :
    (isOpen : Bool) → Prop
  | true => ∃ g : Channel, g.metadata = m ∧ g.file = file ∧ g.path = path ∧ s.Adds g ink f ∧
      s.Logged g f.content
  | false => s.path = path ∧ s.Shelved m file ink f.content ∧ s.Booked m ink f.content

/-- A container that was just opened goes on with the string. -/
theorem Poised.adds {mode : Mode} (h : s.Poised g ink c) (happ : mode.isAppend = true) :
    s.Adds g ink (Flat.opened mode c) where
  appending := happ
  streams := h.streams
  inStep := h.inStep
  pos := h.seekCursor.trans (if_pos happ).symm
  atEnd := if_pos happ

/-- **An act is answered as by the string,** and nothing that was there is encrypted with other ink.
-/
theorem Lasts.act {isOpen next : Bool} (h : s.Lasts m file path ink f isOpen)
    (hfaults : s.faults = []) {act : Act} (hleads : act.leads isOpen = some next)
    (hroom : Layout.Roomy m.firstMax m.chunkMax f.content.length)
    (hroom' : Layout.Roomy m.firstMax m.chunkMax (f.act act).2.content.length) :
    s.Answers act.run (f.act act).1 fun s' =>
      ∃ ink', ink.AgreesUpTo ink' (m.layout.chunksFor f.content.length) ∧
        s'.Lasts m file path ink' (f.act act).2 next := by
  have hoffset : Header.size ≤ m.dataOffset := Nat.le_add_right _ _
  cases act with
  | opens mode =>
    obtain ⟨⟨rfl, happ⟩, rfl⟩ : (isOpen = false ∧ mode.isAppend = true) ∧ true = next := by
      -- opening writes nothing to the chunk data, so the books go through it as they are
      simpa [Act.leads] using hleads
    obtain ⟨rfl, hshelved, hbooked⟩ := h
    have hopened := (openStream_does hshelved happ hroom.1).keeping
      (openIn_books hoffset mode (l := s.ledger m.dataOffset)) ⟨rfl, hshelved.kind⟩
    refine answers_of_does (k := fun _ => .done) hfaults hopened hroom.2 ?_
    rintro _ s' ⟨hpoised, hledger, -⟩
    exact ⟨rfl, ink, Ink.AgreesUpTo.refl _ _, hshelved.channel mode, rfl, rfl, rfl,
      hpoised.adds happ, (hbooked.of_ledger hledger).logged hpoised.streams.stocks hpoised.stream⟩
  | asks call =>
    obtain ⟨rfl, rfl⟩ : isOpen = true ∧ true = next := by simpa [Act.leads] using hleads
    obtain ⟨g, rfl, rfl, rfl, hadds, hlogged⟩ := h
    obtain ⟨s', hrun, hfaults', ink', hagrees, hadds', hlogs⟩ :=
      hadds.step hfaults call hroom hroom'
    exact ⟨s', hrun, hfaults', ink', hagrees, g, rfl, rfl, rfl, hadds', hlogs hlogged⟩
  | closes =>
    obtain ⟨rfl, rfl⟩ : isOpen = true ∧ false = next := by simpa [Act.leads] using hleads
    obtain ⟨g, rfl, rfl, rfl, hadds, hlogged⟩ := h
    -- closing has written all that there was before, so the books go through it as well
    refine answers_of_does (k := fun _ => .done) hfaults ((closeStream_does hadds.streams).keeping
      (close_books hoffset (l := s.ledger g.metadata.dataOffset))
        ⟨rfl, hadds.streams.streaming⟩) not_false ?_
    rintro _ s' ⟨⟨hpath, hshelved, -⟩, hledger, -⟩
    exact ⟨rfl, ink, Ink.AgreesUpTo.refl _ _, hpath, hshelved,
      (hlogged.booked hadds.streams.stocks).of_ledger hledger⟩
  | replaces settings config =>
    obtain ⟨⟨rfl, hkind⟩, rfl⟩ : (isOpen = false ∧ settings.streaming = true) ∧ false = next := by
      simpa [Act.leads] using hleads
    obtain ⟨rfl, hshelved, hbooked⟩ := h
    exact ⟨_, rfl, hfaults, ink, Ink.AgreesUpTo.refl _ _, rfl,
      { hshelved with master := hshelved.master, kind := hkind }, hbooked.of_ledger rfl⟩

theorem Lasts.adding {isOpen : Bool} (h : s.Lasts m file path ink f isOpen) : f.Adding isOpen := by
  rintro rfl
  obtain ⟨g, -, -, -, hadds, -⟩ := h
  exact ⟨hadds.appending, fun _ => hadds.atEnd⟩

/-! ## Histories -/

/-- **A history is answered as by the string.** One ink is enough for all of it: what there is after
a part of the history is there in the ink of the end. -/
theorem Lasts.run {isOpen : Bool} (h : s.Lasts m file path ink f isOpen) (hfaults : s.faults = [])
    {acts : List Act} (horderly : Act.orderly isOpen acts = true)
    (hroom : ∀ r ∈ f.lived acts, Layout.Roomy m.firstMax m.chunkMax r.content.length) :
    ∃ last, ink.AgreesUpTo last (m.layout.chunksFor f.content.length) ∧
      ∀ past future, acts = past ++ future → ∃ t ink' now,
        Act.runAll past s = .ok (f.acts past).1 t ∧ t.faults = [] ∧
        t.Lasts m file path ink' (f.acts past).2 now ∧
        ink'.AgreesUpTo last (m.layout.chunksFor (f.acts past).2.content.length) := by
  -- On the acts. The ink of the end is the one that the induction hypothesis gives, and it agrees
  -- with all earlier ones as far as those were used.
  induction acts generalizing s ink f isOpen with
  | nil =>
    refine ⟨ink, Ink.AgreesUpTo.refl _ _, fun past future hsplit => ?_⟩
    obtain ⟨rfl, rfl⟩ := List.nil_eq_append_iff.mp hsplit
    exact ⟨s, ink, isOpen, rfl, hfaults, h, Ink.AgreesUpTo.refl _ _⟩
  | cons act acts ih =>
    obtain ⟨next, hleads, hrest⟩ := Act.orderly_cons.mp horderly
    have hroom₀ := hroom f List.mem_cons_self
    have hroom₁ := hroom _ (List.mem_cons_of_mem f (Flat.self_mem_lived _ acts))
    obtain ⟨s₁, hrun, hfaults₁, ink₁, hagrees, h₁⟩ := h.act hfaults hleads hroom₀ hroom₁
    obtain ⟨last, hagrees₁, hlater⟩ := ih h₁ hfaults₁ hrest fun r hr =>
      hroom r (List.mem_cons_of_mem f hr)
    -- the first act used the nonces of the chunks that there were; the others begin with no fewer
    have hgrows := (h.adding.act hleads).2
    obtain ⟨i, hi⟩ := Option.ne_none_iff_exists'.mp hroom₁.2
    have hmono : m.layout.chunksFor f.content.length
        ≤ m.layout.chunksFor (f.act act).2.content.length :=
      (Layout.EndsIn.of_seqnumOf? hi).chunksFor_mono hgrows.length_le
    have hends := hagrees.trans hagrees₁ hmono
    refine ⟨last, hends, fun past future hsplit => ?_⟩
    cases past with
    | nil => exact ⟨s, ink, isOpen, rfl, hfaults, h, hends⟩
    | cons first past =>
      obtain ⟨rfl, hsplit'⟩ := List.cons.inj hsplit
      obtain ⟨t, ink', now, hrun', hfaults', h', hagrees'⟩ := hlater past future hsplit'
      refine ⟨t, ink', now, ?_, hfaults', h', hagrees'⟩
      simp only [Act.runAll, bind, EStateM.bind, hrun, hrun', Op.pure_run, Flat.acts]

/-- What can be said of a container that is added to, at any time: the chunk data of the content is
stored, its bytes were encrypted and written once and in their order, and the sizes and the bytes
are told. -/
structure Records (s : Session) (m : Metadata) (path : String) (ink : Ink) (content : Bytes) :
    Prop where
  stored : ∃ raw, s.disk.read? path = some raw ∧
    m.layout.ciphertext ink content <+: raw.drop m.dataOffset
  /-- Byte after byte was encrypted, each at its offset in its chunk. -/
  inked : (s.ledger m.dataOffset).inked.map some
    = (List.range content.length).map m.layout.locate?
  /-- Place after place was written. -/
  written : (s.ledger m.dataOffset).written = List.range' m.dataOffset
    (content.length + Salsa20.nonceSize * m.layout.chunksFor content.length)
  contentSize : ∃ s', Container.contentSize s = .ok content.length s'
  usedSize : ∃ s', Container.usedSize s = .ok (m.dataOffset + content.length
    + Salsa20.nonceSize * m.layout.chunksFor content.length) s'
  scanned : s.isOpen = false → ∀ r : Session, r.Visits m.master path s.disk →
    ∃ r', openIn .scan r = .ok () r' ∧ r'.mode = .scan ∧ r'.Tells content

/-- The chunk data of a file, in the ink of a later time. -/
theorem stored_of_carries {raw told rest : Bytes} {last : Ink}
    (h : m.Carries raw ink told c rest) (hread : s.disk.read? path = some raw)
    (hagrees : ink.AgreesUpTo last (m.layout.chunksFor c.length)) :
    ∃ raw, s.disk.read? path = some raw ∧ m.layout.ciphertext last c <+: raw.drop m.dataOffset := by
  refine ⟨raw, hread, ?_⟩
  rw [Layout.ciphertext_congr hagrees, h.drop_eq]
  exact List.prefix_append _ _

theorem Lasts.records {isOpen : Bool} {last : Ink} (h : s.Lasts m file path ink f isOpen)
    (hfaults : s.faults = []) (hroom : Layout.Roomy m.firstMax m.chunkMax f.content.length)
    (hagrees : ink.AgreesUpTo last (m.layout.chunksFor f.content.length)) :
    s.Records m path last f.content := by
  obtain ⟨i, hi⟩ := Option.ne_none_iff_exists'.mp hroom.2
  have hends : m.layout.EndsIn i f.content.length := Layout.EndsIn.of_seqnumOf? hi
  have hlength (hstreaming : m.streaming = true) :
      (m.layout.ciphertext ink f.content).length
        = f.content.length + Salsa20.nonceSize * m.layout.chunksFor f.content.length :=
    hends.length_ciphertext_eq (Metadata.packs_of_streaming hstreaming)
  cases isOpen with
  | true =>
    obtain ⟨g, rfl, rfl, rfl, hadds, hlogged⟩ := h
    have hs := hadds.streams
    have hbooked := hlogged.booked hs.stocks
    obtain ⟨told, rest, hcarries, -⟩ := hs.carries
    obtain ⟨_, s', hused, -, rfl, -⟩ := hs.usedSize_does.answers hfaults not_false
    exact
      { stored := stored_of_carries hcarries hs.read? hagrees
        inked := hbooked.inked
        written := hbooked.written.trans (by rw [hlength g.streaming])
        contentSize := ⟨s, hs.contentSize_eq⟩
        usedSize := ⟨s', hused⟩
        scanned := fun hclosed => absurd (hs.isOpen.symm.trans hclosed) (by simp) }
  | false =>
    obtain ⟨rfl, hshelved, hbooked⟩ := h
    obtain ⟨rest, hcarries⟩ := hshelved.carries
    obtain ⟨_, s₁, hsize, -, rfl⟩ := (hshelved.contentSize_does hroom.1).answers hfaults hroom.2
    obtain ⟨_, s₂, hused, -, rfl⟩ := (hshelved.usedSize_does hroom.1).answers hfaults hroom.2
    exact
      { stored := stored_of_carries hcarries hshelved.read? hagrees
        inked := hbooked.inked
        written := hbooked.written.trans (by rw [hlength hshelved.streaming])
        contentSize := ⟨s₁, hsize⟩
        usedSize := ⟨s₂, hused⟩
        scanned := fun _ r hr => (hshelved.visit hr).scanned hr.faults hroom.1 hroom.2 }

end Session

open Session

/-- **Each byte that is appended is encrypted once.** A new container with streamed chunks is opened
for appending, and then in any order asked, closed, replaced and opened again for appending, without
faults and with room for its content. All is answered as by a string of bytes; and there is one
nonce for each chunk such that at any time the content is stored and told (`Session.Records`). What
was stored of it stays as it is. -/
theorem appended_encrypted_once {s : Session} (h : s.Fresh) (hfaults : s.faults = [])
    (htrace : s.trace = []) (acts : List Act) (horderly : Act.orderly true acts = true)
    (hroom : ∀ f ∈ (Flat.opened .append []).lived acts,
      Layout.Roomy s.processor.config.firstMax s.processor.config.chunkMax f.content.length) :
    ∃ (m : Metadata) (ink : Ink),
      m.master = s.processor.master ∧ m.firstMax = s.processor.config.firstMax ∧
      m.chunkMax = s.processor.config.chunkMax ∧ m.keys.stream = some ink.key ∧
      (∀ past future, acts = past ++ future → ∃ t,
        Act.runAll (.opens .append :: past) s
          = .ok (.ok .done :: ((Flat.opened .append []).acts past).1) t ∧
        t.Records m s.path ink ((Flat.opened .append []).acts past).2.content) ∧
      ∀ past more future, acts = past ++ (more ++ future) →
        ((Flat.opened .append []).acts past).2.content
            <+: ((Flat.opened .append []).acts (past ++ more)).2.content ∧
          m.layout.ciphertext ink ((Flat.opened .append []).acts past).2.content
            <+: m.layout.ciphertext ink ((Flat.opened .append []).acts (past ++ more)).2.content := by
  obtain ⟨_, s₁, hopen, hfaults₁, g, ink₁, hg, hpoised⟩ :=
    (Container.openFresh_does h).answers hfaults not_false
  have hstreams := hpoised.streams
  -- Creating the file encrypts nothing and writes nothing but the first bytes.
  have hledger : s₁.ledger g.metadata.dataOffset = {} := by
    have hempty : s.Books g.metadata.dataOffset {} :=
      ⟨congrArg (Ledger.ofTrace _) htrace, h.kind⟩
    have hbooks := Container.openIn_books (Nat.le_add_right _ _) .append hempty
    rw [hopen] at hbooks
    exact hbooks.2.1
  have hnil : g.layout.ciphertext ink₁ [] = [] := by simp [Layout.ciphertext, Layout.chunksFor]
  have hbooked : s₁.Booked g.metadata ink₁ [] := by
    refine ⟨?_, ?_⟩
    · rw [hledger]
      rfl
    · rw [hledger, hnil]
      rfl
  have hlasts : s₁.Lasts g.metadata g.file s.path ink₁ (Flat.opened .append []) true :=
    ⟨g, rfl, rfl, hg.path, hpoised.adds rfl, hbooked.logged hstreams.stocks hpoised.stream⟩
  have hroom' : ∀ r ∈ (Flat.opened .append []).lived acts,
      Layout.Roomy g.metadata.firstMax g.metadata.chunkMax r.content.length := by
    rwa [hg.firstMax, hg.chunkMax]
  obtain ⟨ink, hagrees, hruns⟩ := hlasts.run hfaults₁ horderly hroom'
  refine ⟨g.metadata, ink, hg.master, hg.firstMax, hg.chunkMax, ?key, ?runs, ?grows⟩
  case key => rw [hagrees.key, hstreams.key, g.streamKey]
  case runs =>
    rintro past future rfl
    obtain ⟨t, ink', now, hrun, hfaults', h', hagrees'⟩ := hruns past future rfl
    refine ⟨t, ?_, h'.records hfaults' (hroom' _ (Flat.acts_mem_lived _ past future)) hagrees'⟩
    simp only [Act.runAll, Act.run, Op.attempt, bind, EStateM.bind, hopen, hrun, Op.pure_run]
  case grows =>
    rintro past more future rfl
    have hbegun : (Flat.opened .append []).Adding true := Flat.adding_opened rfl []
    obtain ⟨-, now, hadding, hlater⟩ := hbegun.acts horderly
    have hgrows := (hadding.acts hlater).1
    rw [← Flat.acts_append] at hgrows
    have hlived := (Flat.opened .append []).acts_mem_lived (past ++ more) future
    rw [List.append_assoc] at hlived
    obtain ⟨i, hi⟩ := Option.ne_none_iff_exists'.mp (hroom' _ hlived).2
    exact ⟨hgrows, (Layout.EndsIn.of_seqnumOf? hi).ciphertext_mono hgrows⟩

/-- Bytes are appended, in chunks of two, before and after the container was closed. -/
theorem appended_encrypted_once_reopened :
    ∃ (m : Metadata) (ink : Ink) (t : Session),
      Act.runAll [.opens .append, .asks (.write [1, 2, 3]), .closes, .replaces { streaming := true } {},
          .opens .appendExisting, .asks (.truncate 5 false), .asks (.write [4]), .closes]
        (pristine "vault" (Processor.ofConfig ⟨[7]⟩ { chunkMax := 2, streaming := true }) {}
          (Random.seeded 0))
        = .ok [.ok .done, .ok (.number 3), .ok .done, .ok .done, .ok .done, .ok .done,
            .ok (.number 1), .ok .done] t ∧
      t.Records m "vault" ink [1, 2, 3, 0, 0, 4] := by
  obtain ⟨m, ink, -, -, -, -, hruns, -⟩ :=
    appended_encrypted_once (s := pristine "vault"
        (Processor.ofConfig ⟨[7]⟩ { chunkMax := 2, streaming := true }) {} (Random.seeded 0))
      (fresh_pristine (by decide) rfl rfl) rfl rfl
      [.asks (.write [1, 2, 3]), .closes, .replaces { streaming := true } {},
        .opens .appendExisting, .asks (.truncate 5 false), .asks (.write [4]), .closes]
      (by decide) (by decide)
  obtain ⟨t, hrun, hrecords⟩ := hruns _ [] (List.append_nil _).symm
  exact ⟨m, ink, t, hrun, hrecords⟩

end Vault
