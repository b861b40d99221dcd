import Vault.Proofs.Memory
import Vault.Proofs.Raw
import Vault.Proofs.Trail

/-!
# `Vault/Proofs/State.lean` — an open container holds a content

The invariant of an open container, in three layers. A `Site` is where and as what it is open:
nothing that an operation inside the container changes. `Session.OnDisk` says that the raw file
holds a content and that the session's numbers are about that file. `Session.Holds` adds the chunks
in memory: those in the pool and those *in hand*, which an operation has taken out of their place
and will have to put somewhere. **`Session.Shows` is the invariant between operations:** the only
chunk in hand is the current one, and it holds the cursor.

Two contents go through all of it: the one that the user sees, and the one in the file.

The site is a parameter of everything and not a part of the session, because what does not change
has to be said once and not after every step. It is not what a user knows, either: with the metadata
and the working keys in it, a statement can say what is in the file in terms of what can be read
from it.
-/

set_option autoImplicit false

namespace Vault

/-- Where and as what a container is open. -/
structure Site where
  path : String
  /-- The number of the raw file. -/
  file : Nat
  names : List (String × Nat)
  writable : Bool
  mode : Mode
  useCache : Bool
  seekCursor : Nat
  config : ContainerConfig
  processor : Processor
  metadata : Metadata
  /-- What is known of the bytes behind the chunk data. -/
  trail : Trail
  keyed : processor.keys = some metadata.keys
  firstMax : processor.firstMax = metadata.firstMax
  chunkMax : processor.chunkMax = metadata.chunkMax
  master : processor.master = metadata.master
  kind : processor.config.streaming = metadata.streaming
  sealed : metadata.streaming = false
  found : names.lookup path = some file
  mayWrite : mode.isWrite = true → writable = true

/-- The same place, where anything may stand behind the chunk data. -/
abbrev Site.untrailed (g : Site) : Site := { g with trail := .unknown }

/-- The same place, where nothing stands behind the chunk data. -/
abbrev Site.trimmed (g : Site) : Site := { g with trail := .cut }

namespace Session

/-- The raw file of the session's container is open there. -/
structure Located (s : Session) (g : Site) : Prop where
  path : s.path = g.path
  names : s.disk.names = g.names
  file : g.file < s.disk.files.length
  handle : ∃ position, s.handle = some { file := g.file, position, writable := g.writable }
  mode : s.mode = g.mode
  useCache : s.useCache = g.useCache
  config : s.config = g.config

/-- The session's container is open there. -/
structure Stands (s : Session) (g : Site) : Prop extends s.Located g where
  seekCursor : s.seekCursor = g.seekCursor
  processor : s.processor = g.processor
  layout : s.layout = g.metadata.layout

/-- The raw file holds a content, with `last` as the last chunk, and the session's numbers are
about that file. -/
structure OnDisk (s : Session) (g : Site) (last : Nat) (stored : Bytes) : Prop
    extends s.Stands g where
  stores : g.metadata.Stores (s.disk.contents g.file) s.ciphertextSize last stored
  /-- The header tells the sizes, unless it is known not to. -/
  header : s.sizeDirty = false →
    (s.disk.contents g.file).slice Header.plaintextAt 8 = Bytes.ofNatLE 8 s.size ∧
      (s.disk.contents g.file).slice Header.ciphertextAt 8 = Bytes.ofNatLE 8 s.ciphertextSize
  headerClean : g.mode.isWrite = false → s.sizeDirty = false
  /-- What is known of the bytes behind the chunk data. -/
  trail : g.trail.Fits (s.disk.contents g.file) s.eofPos s.size stored.length s.tailCut

/-- The container shows one content and its file holds another one; the chunks in memory make the
difference. -/
structure Holds (s : Session) (g : Site) (last : Nat) (seen stored : Bytes) (hand : List Chunk) :
    Prop extends s.OnDisk g last stored where
  recalls : g.metadata.Recalls s.ciphertextSize last seen stored (hand ++ s.pool.entries)
  size : s.size = seen.length
  /-- The last chunk is written before it is pooled. -/
  early : ∀ x ∈ s.pool.entries, x.dirty = true → x.seqnum ≠ last
  unpooled : g.useCache = false → s.pool.entries = []
  readOnly : g.mode.isWrite = false → ∀ x ∈ hand ++ s.pool.entries, x.dirty = false

/-- A chunk is current and holds the cursor. -/
structure Points (g : Site) (size cursor : Nat) (x : Chunk) : Prop where
  eq : cursor = g.metadata.layout.startOf x.seqnum + x.offset
  le : cursor ≤ size
  within : g.metadata.layout.Within x.seqnum cursor
  /-- Where writes happen at the end only, it is there. -/
  appending : g.mode.isAppend = true → cursor = size

/-- **The invariant between operations.** -/
structure Shows (s : Session) (g : Site) (seen stored : Bytes) : Prop extends
    s.Holds g s.eofSeqnum seen stored s.current.toList where
  points : ∀ x, s.current = some x → Points g seen.length s.cursor x

/-- The chunks in memory. -/
def memory (s : Session) : List Chunk := s.current.toList ++ s.pool.entries

/-- There is nothing to be written. -/
structure Idle (s : Session) : Prop where
  clean : ∀ x ∈ s.memory, x.dirty = false
  sized : s.sizeDirty = false

/-- The cursor is not behind the end. -/
def Placed (s : Session) : Prop := s.cursor ≤ s.size

/-- The current chunk is that of the position asked for. -/
def Seated (s : Session) : Prop :=
  ∃ x, s.current = some x ∧ s.layout.seqnumOf? s.seekCursor = some x.seqnum

/-- No chunk got dirty on the way, and the last chunk is not in front of the one it was. -/
structure Onward (s s' : Session) : Prop where
  dirty : ∀ i, Chunk.Unwritten s'.memory i → Chunk.Unwritten s.memory i
  eof : s.eofSeqnum ≤ s'.eofSeqnum
  /-- Where there was nothing to be written, nothing was written. -/
  quiet : s.Idle → s'.disk = s.disk ∧ s'.sizeDirty = false
  placed : s.Placed → s'.Placed

/-- **What a failure may lose:** the changes in chunks that were dirty and are not in memory any
more. -/
def Forgets (s s' : Session) (g : Site) (c c' : Bytes) : Prop :=
  g.metadata.layout.AgreeBut s.eofSeqnum
    (fun i => Chunk.Unwritten s.memory i ∧ Chunk.Absent s'.memory i) c c'

/-- After a failure the container shows what it showed, but for what was lost. -/
def Survives (s s' : Session) (g : Site) (c : Bytes) : Prop :=
  (s.Placed → s'.Placed) ∧ ∃ c' d', s'.Shows g c' d' ∧ s.Forgets s' g c c'

/-- Nothing changed in memory outside the pool. -/
structure SameWork (s s' : Session) : Prop where
  current : s'.current = s.current
  cursor : s'.cursor = s.cursor
  size : s'.size = s.size
  eofSeqnum : s'.eofSeqnum = s.eofSeqnum

/-- Nothing changed in memory. -/
structure SameMemory (s s' : Session) : Prop extends s.SameWork s' where
  pool : s'.pool = s.pool

theorem SameWork.refl (s : Session) : s.SameWork s := ⟨rfl, rfl, rfl, rfl⟩

theorem SameWork.trans {s s₁ s₂ : Session} (h : s.SameWork s₁) (h' : s₁.SameWork s₂) :
    s.SameWork s₂ :=
  ⟨h'.current.trans h.current, h'.cursor.trans h.cursor, h'.size.trans h.size,
    h'.eofSeqnum.trans h.eofSeqnum⟩

theorem SameMemory.refl (s : Session) : s.SameMemory s := ⟨SameWork.refl s, rfl⟩

theorem SameMemory.trans {s s₁ s₂ : Session} (h : s.SameMemory s₁) (h' : s₁.SameMemory s₂) :
    s.SameMemory s₂ :=
  ⟨h.toSameWork.trans h'.toSameWork, h'.pool.trans h.pool⟩

theorem SameMemory.memory {s s' : Session} (h : s.SameMemory s') : s'.memory = s.memory := by
  simp only [Session.memory, h.current, h.pool]

theorem Onward.refl (s : Session) : s.Onward s :=
  ⟨fun _ => id, Nat.le_refl _, fun h => ⟨rfl, h.sized⟩, id⟩

/-- Where there was nothing to be written, there is nothing to be written. -/
theorem Onward.idle {s s' : Session} (h : s.Onward s') (hidle : s.Idle) : s'.Idle := by
  refine ⟨fun x hx => ?_, (h.quiet hidle).2⟩
  cases hd : x.dirty with
  | false => rfl
  | true =>
    obtain ⟨y, hy, -, hdirty⟩ := h.dirty x.seqnum ⟨x, hx, rfl, hd⟩
    exact absurd hdirty (by simp [hidle.clean y hy])

theorem Onward.trans {s s₁ s₂ : Session} (h : s.Onward s₁) (h' : s₁.Onward s₂) : s.Onward s₂ where
  dirty := fun i hi => h.dirty i (h'.dirty i hi)
  eof := Nat.le_trans h.eof h'.eof
  quiet := fun hidle =>
    have hquiet := h'.quiet (h.idle hidle)
    ⟨hquiet.1.trans (h.quiet hidle).1, hquiet.2⟩
  placed := fun hplaced => h'.placed (h.placed hplaced)

/-- Another current chunk of the same number, dirty at most if the old one was. -/
theorem Onward.of_current {s s' : Session} {x y : Chunk} (hx : s.current = some x)
    (hy : s'.current = some y) (hnum : y.seqnum = x.seqnum)
    (hdirty : y.dirty = true → x.dirty = true) (hpool : s'.pool = s.pool)
    (heof : s.eofSeqnum ≤ s'.eofSeqnum)
    (hquiet : s.Idle → s'.disk = s.disk ∧ s'.sizeDirty = false) (hplaced : s.Placed → s'.Placed) :
    s.Onward s' := by
  refine ⟨?_, heof, hquiet, hplaced⟩
  rintro i ⟨z, hz, hi, hd⟩
  simp only [memory, hx, hy, hpool, Option.toList_some, List.cons_append, List.nil_append] at hz ⊢
  rcases List.mem_cons.mp hz with rfl | hz
  · exact ⟨x, List.mem_cons_self, hnum.symm.trans hi, hdirty hd⟩
  · exact ⟨z, List.mem_cons_of_mem x hz, hi, hd⟩

theorem Forgets.refl (s s' : Session) (g : Site) (c : Bytes) : s.Forgets s' g c c :=
  Layout.AgreeBut.refl _ _ _ _

/-- Where nothing was dirty, nothing can be lost. -/
theorem Forgets.eq_of_clean {s s' : Session} {g : Site} {c c' : Bytes} (h : s.Forgets s' g c c')
    (hclean : ∀ x ∈ s.memory, x.dirty = false)
    (hwithin : g.metadata.layout.Within s.eofSeqnum c.length) : c' = c := by
  refine Layout.ext_parts h.length (h.length.symm ▸ hwithin) fun i hi => ?_
  refine Classical.byContradiction fun hne => ?_
  obtain ⟨⟨x, hx, -, hdirty⟩, -⟩ := h.parts i hi hne
  exact absurd hdirty (by simp [hclean x hx])

/-- A failure after something that dirtied nothing. -/
theorem Forgets.after {s s₁ s' : Session} {g : Site} {c c' : Bytes} (h : s₁.Forgets s' g c c')
    (honward : s.Onward s₁) : s.Forgets s' g c c' where
  length := h.length
  parts := fun i hi hne =>
    let ⟨hlost, habsent⟩ := h.parts i (Nat.le_trans hi honward.eof) hne
    ⟨honward.dirty i hlost, habsent⟩

theorem PassesBy.sameMemory {s s' : Session} (h : s.PassesBy s') : s.SameMemory s' := by
  obtain ⟨x, rfl⟩ := h
  exact ⟨⟨rfl, rfl, rfl, rfl⟩, rfl⟩

theorem PassesBy.onward {s s' : Session} (h : s.PassesBy s') : s.Onward s' := by
  obtain ⟨x, rfl⟩ := h
  exact ⟨fun _ => id, Nat.le_refl _, fun hidle => ⟨rfl, hidle.sized⟩, id⟩

theorem SameWork.placed {s s' : Session} (h : s.SameWork s') (hplaced : s.Placed) : s'.Placed := by
  unfold Placed at hplaced ⊢
  rwa [h.cursor, h.size]

theorem Shows.survives {s s' : Session} {g : Site} {c d : Bytes} (h : s'.Shows g c d)
    (hplaced : s.Placed → s'.Placed) : s.Survives s' g c :=
  ⟨hplaced, c, d, h, Forgets.refl s s' g c⟩

theorem Survives.after {s s₁ s' : Session} {g : Site} {c : Bytes} (h : s₁.Survives s' g c)
    (honward : s.Onward s₁) : s.Survives s' g c :=
  let ⟨hplaced, c', d', h', hforgets⟩ := h
  ⟨fun hp => hplaced (honward.placed hp), c', d', h', hforgets.after honward⟩

/-! ## Passing by keeps the invariant

Whatever passes by leaves the invariant, layer by layer. These are used at every call of the raw
file, so that no proof about chunks looks at faults, the trace or the place of the handle. -/

variable {s s' : Session} {g : Site} {e : Nat} {c d : Bytes} {hand : List Chunk}

theorem Located.beside (h : s.Located g) (x : Surroundings) : (s.beside x).Located g := by
  obtain ⟨p, hp⟩ := h.handle
  exact { h with handle := ⟨x.position, by rw [handle_beside hp]⟩ }

theorem Stands.beside (h : s.Stands g) (x : Surroundings) : (s.beside x).Stands g :=
  { h.toLocated.beside x with
    seekCursor := h.seekCursor, processor := h.processor, layout := h.layout }

theorem OnDisk.beside (h : s.OnDisk g e d) (x : Surroundings) : (s.beside x).OnDisk g e d :=
  { h.toStands.beside x with
    stores := h.stores, header := h.header, headerClean := h.headerClean, trail := h.trail }

theorem Holds.beside (h : s.Holds g e c d hand) (x : Surroundings) :
    (s.beside x).Holds g e c d hand :=
  { h.toOnDisk.beside x with
    recalls := h.recalls, size := h.size, early := h.early, unpooled := h.unpooled
    readOnly := h.readOnly }

theorem Shows.beside (h : s.Shows g c d) (x : Surroundings) : (s.beside x).Shows g c d :=
  { h.toHolds.beside x with
    points := h.points }

theorem Shows.rearm (h : s.Shows g c d) (faults : List Fault) : Shows { s with faults } g c d := by
  obtain ⟨p, hp⟩ := h.handle
  exact beside_of_handle hp faults s.trace s.random ▸ h.beside _

theorem OnDisk.passesBy (h : s.OnDisk g e d) (hp : s.PassesBy s') : s'.OnDisk g e d := by
  obtain ⟨x, rfl⟩ := hp
  exact h.beside x

theorem Holds.passesBy (h : s.Holds g e c d hand) (hp : s.PassesBy s') :
    s'.Holds g e c d hand := by
  obtain ⟨x, rfl⟩ := hp
  exact h.beside x

theorem Shows.passesBy (h : s.Shows g c d) (hp : s.PassesBy s') : s'.Shows g c d := by
  obtain ⟨x, rfl⟩ := hp
  exact h.beside x

/-! ## Other contents in the raw file -/

theorem Located.withContents (h : s.Located g) (data : Bytes) :
    (s.withContents g.file data).Located g :=
  { h with file := by simpa [Session.withContents, Disk.setContents] using h.file }

theorem Stands.withContents (h : s.Stands g) (data : Bytes) :
    (s.withContents g.file data).Stands g :=
  { h.toLocated.withContents data with
    seekCursor := h.seekCursor, processor := h.processor, layout := h.layout }

theorem Located.contents_withContents (h : s.Located g) (data : Bytes) :
    (s.withContents g.file data).disk.contents g.file = data := by
  simp [Session.withContents, Disk.setContents, Disk.contents, h.file]

/-! ## Small facts

What other modules need of the invariant without opening it. -/

theorem Located.isOpen (h : s.Located g) : s.isOpen = true := by
  obtain ⟨p, hp⟩ := h.handle
  simp [Container.isOpen, hp]

theorem Located.found (h : s.Located g) : s.disk.find? g.path = some g.file := by
  rw [Disk.find?, h.names]
  exact g.found

theorem Located.read? (h : s.Located g) : s.disk.read? g.path = some (s.disk.contents g.file) := by
  rw [Disk.read?, h.found]
  rfl

theorem OnDisk.eofPos_eq (h : s.OnDisk g e d) :
    s.eofPos = g.metadata.dataOffset + s.ciphertextSize := by
  rw [Container.eofPos, h.layout]
  rfl

theorem OnDisk.eofPos_le (h : s.OnDisk g e d) : s.eofPos ≤ (s.disk.contents g.file).length := by
  rw [h.eofPos_eq]
  exact h.stores.present

theorem Stands.rawStartOf (h : s.Stands g) (i : Nat) :
    s.layout.rawStartOf i = g.metadata.layout.rawStartOf i := by rw [h.layout]

theorem Stands.maxPlainSize (h : s.Stands g) (i : Nat) :
    s.processor.maxPlainSize i = g.metadata.layout.capacity i := by
  rw [h.processor, Metadata.capacity_layout g.firstMax g.chunkMax]

theorem Stands.blockwise (h : s.Stands g) : s.processor.config.streaming = false := by
  rw [h.processor, g.kind, g.sealed]

/-- Whatever is dirty, the mode allows to write it. -/
theorem Holds.isWrite_of_dirty (h : s.Holds g e c d hand) {x : Chunk}
    (hx : x ∈ hand ++ s.pool.entries) (hdirty : x.dirty = true) : g.mode.isWrite = true := by
  cases hmode : g.mode.isWrite with
  | true => rfl
  | false => exact absurd (h.readOnly hmode x hx) (by simp [hdirty])

/-- Every position inside the content has a chunk number. -/
theorem Holds.seqnumOf?_ne_none (h : s.Holds g e c d hand) {pos : Nat} (hlt : pos < c.length) :
    g.metadata.layout.seqnumOf? pos ≠ none :=
  Layout.seqnumOf?_ne_none h.recalls.reaches h.stores.numbered h.recalls.within hlt

/-- Where a chunk is current, the cursor is not behind the end. -/
theorem Shows.placed (h : s.Shows g c d) {x : Chunk} (hx : s.current = some x) : s.Placed :=
  Nat.le_trans (h.points x hx).le (Nat.le_of_eq h.size.symm)

/-- What is said of a disk can be said where the trail is not known. -/
theorem OnDisk.untrailed (h : s.OnDisk g e d) : s.OnDisk g.untrailed e d :=
  { h with trail := trivial }

/-- Another session holds the same content, if nothing got dirty in it that was not dirty before.
-/
theorem Holds.of_recalls (h : s.Holds g e c d hand) {d' : Bytes} {hand' : List Chunk}
    (hdisk : s'.OnDisk g e d') (hsize : s'.size = s.size)
    (hrecalls : g.metadata.Recalls s'.ciphertextSize e c d' (hand' ++ s'.pool.entries))
    (hdirty : ∀ x ∈ hand' ++ s'.pool.entries, x.dirty = true → x ∈ hand ++ s.pool.entries)
    (hearly : ∀ x ∈ s'.pool.entries, x.dirty = true → x.seqnum ≠ e)
    (hunpooled : g.useCache = false → s'.pool.entries = []) : s'.Holds g e c d' hand' where
  toOnDisk := hdisk
  recalls := hrecalls
  size := hsize.trans h.size
  early := hearly
  unpooled := hunpooled
  readOnly := by
    -- nothing that is dirty now was clean before, and in a reading mode nothing was dirty
    intro hmode x hx
    cases hd : x.dirty with
    | false => rfl
    | true => exact absurd (h.readOnly hmode x (hdirty x hx hd)) (by simp [hd])

theorem OnDisk.repool (h : s.OnDisk g e d) (pool : Pool) : OnDisk { s with pool } g e d :=
  { { h.toStands with } with
    stores := h.stores, header := h.header, headerClean := h.headerClean, trail := h.trail }

/-- The same chunks, some of which changed places between hand and pool. -/
theorem Holds.repool (h : s.Holds g e c d hand) {hand' : List Chunk} {pool : Pool}
    (hp : (hand ++ s.pool.entries).Perm (hand' ++ pool.entries))
    (hearly : ∀ x ∈ pool.entries, x.dirty = true → x.seqnum ≠ e)
    (hunpooled : g.useCache = false → pool.entries = []) :
    Holds { s with pool } g e c d hand' :=
  h.of_recalls (h.toOnDisk.repool pool) rfl (h.recalls.perm hp) (fun _ hx _ => hp.mem_iff.mpr hx)
    hearly hunpooled

theorem Holds.leave_clean {x : Chunk} (h : s.Holds g e c d (x :: hand)) (hx : x.dirty = false) :
    s.Holds g e c d hand :=
  { h with
    recalls := h.recalls.leave_clean hx
    readOnly := fun hmode y hy => h.readOnly hmode y (List.mem_cons_of_mem x hy) }

/-- Chunks in hand that are put down unwritten take their changes with them. -/
theorem Holds.leave {xs : List Chunk} (h : s.Holds g e c d (xs ++ hand))
    (hxs : ∀ x ∈ xs, x.dirty = true → x.seqnum ≠ e) :
    ∃ c', s.Holds g e c' d hand ∧ g.metadata.layout.AgreeBut e (Chunk.Unwritten xs) c c' := by
  -- Induction on the chunks that are put down, each of which takes its own changes with it. What
  -- was lost in front of a chunk stays lost, so the numbers add up.
  induction xs generalizing c with
  | nil => exact ⟨c, h, Layout.AgreeBut.refl _ _ _ _⟩
  | cons x xs ih =>
    obtain ⟨c₁, hrec, hagree⟩ := h.recalls.leave (hxs x List.mem_cons_self)
    have h₁ : s.Holds g e c₁ d (xs ++ hand) :=
      { h with
        recalls := hrec, size := h.size.trans hagree.length.symm
        readOnly := fun hmode y hy => h.readOnly hmode y (List.mem_cons_of_mem x hy) }
    obtain ⟨c', h', hagree'⟩ := ih h₁ fun y hy => hxs y (List.mem_cons_of_mem x hy)
    refine ⟨c', h', (hagree.mono ?_).trans (hagree'.mono ?_)⟩
    · rintro i ⟨y, hy, hi⟩
      obtain rfl := List.mem_singleton.mp hy
      exact ⟨y, List.mem_cons_self, hi⟩
    · rintro i ⟨y, hy, hi⟩
      exact ⟨y, List.mem_cons_of_mem x hy, hi⟩

/-- A file that changed, and a pool that did not. -/
theorem Holds.of_onDisk (h : s.Holds g e c d hand) {d' : Bytes} {hand' : List Chunk}
    (hdisk : s'.OnDisk g e d') (hmem : s.SameMemory s')
    (hrecalls : g.metadata.Recalls s'.ciphertextSize e c d' (hand' ++ s.pool.entries))
    (hdirty : ∀ x ∈ hand', x.dirty = true → x ∈ hand) : s'.Holds g e c d' hand' := by
  refine h.of_recalls hdisk hmem.size (by rwa [hmem.pool]) (fun x hx hd => ?_)
    (by rw [hmem.pool]; exact h.early) (by rw [hmem.pool]; exact h.unpooled)
  rw [hmem.pool] at hx
  rcases List.mem_append.mp hx with hx | hx
  · exact List.mem_append_left _ (hdirty x hx hd)
  · exact List.mem_append_right _ hx

end Session

end Vault
