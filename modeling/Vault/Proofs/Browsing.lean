import Vault.Proofs.CheckedRuns
import Vault.Proofs.Frames
import Vault.Proofs.Sources
import Vault.Proofs.State

/-!
# `Vault/Proofs/Browsing.lean` — moving about in a raw file that may hold anything

`Session.Browses` is what holds of a container that is open to be read, between any two operations:
its numbers are those of the source, what is in memory is what the source's chunks open to, and the
cursor is inside the content. **It holds after every operation, whether that answered or failed**
and whatever faults there are, so nothing that is done to a container spoils what comes later.

With every failure goes its reason (`Source.Excuses`): a fault, or a chunk that was needed and does
not open, and then the error is the one of that chunk.

None of this needs to know whether the source is sound in the sense that a container wrote it. What
it needs (`Source.Sound`) are bounds that every file passes which could be opened.
-/

set_option autoImplicit false

namespace Vault

/-! ## What is in memory

A chunk in memory is never dirty here, and it is what the file has under its number. So it does
not matter whether a chunk is taken from memory or loaded again. -/

namespace Source

/-- A chunk in memory is what is in the file. -/
structure Recalls (v : Source) (x : Chunk) : Prop where
  le : x.seqnum ≤ v.last
  clean : x.dirty = false
  opens : v.chunk x.seqnum = .ok x.content

/-- The cursor is in a chunk, or right behind it. -/
structure Stands (v : Source) (cursor : Nat) (x : Chunk) : Prop where
  eq : cursor = v.layout.startOf x.seqnum + x.offset
  within : v.layout.Within x.seqnum cursor

/-- Why something fails on the way to these positions: a fault, or one of their chunks does not
open. -/
def Excuses (v : Source) (wanted : Nat → Prop) (e : Error) : Prop :=
  v.calm = false ∨ ∃ p i, wanted p ∧ v.layout.seqnumOf? p = some i ∧ v.chunk i = .error e

variable {v : Source} {wanted wanted' : Nat → Prop} {e : Error}

theorem Excuses.mono (h : v.Excuses wanted e) (himp : ∀ p, wanted p → wanted' p) :
    v.Excuses wanted' e :=
  h.imp id fun ⟨p, i, hp, hrest⟩ => ⟨p, i, himp p hp, hrest⟩

end Source

namespace Session

/-- The container is open on a source. -/
structure Browses (s : Session) (v : Source) : Prop where
  disk : s.disk = v.disk
  path : s.path = v.path
  mode : s.mode = v.mode
  processor : s.processor = v.processor
  layout : s.layout = v.layout
  size : s.size = v.size
  ciphertextSize : s.ciphertextSize = v.ciphertextSize
  last : s.eofSeqnum = v.last
  handle : ∃ position, s.handle = some { file := v.file, position, writable := false }
  calm : v.calm = true → s.faults = []
  recalls : ∀ x ∈ s.memory, v.Recalls x
  cursor : s.cursor ≤ v.size
  stands : ∀ x, s.current = some x → v.Stands s.cursor x
  /-- The current chunk has a place in memory besides the pooled ones. -/
  room : s.pool.entries.length < s.pool.capacity
  capacity : s.pool.capacity < offsetLimit

variable {s s' : Session} {v : Source} {i pos : Nat} {x : Chunk}

namespace Browses

theorem isOpen (h : s.Browses v) : s.isOpen = true := by
  obtain ⟨position, hh⟩ := h.handle
  simp [Container.isOpen, hh]

theorem eofPos (h : s.Browses v) : s.eofPos = v.eofPos := by
  rw [Container.eofPos, h.layout, h.ciphertextSize, Source.eofPos]

theorem not_calm (h : s.Browses v) (hfaults : s.faults ≠ []) : v.calm = false :=
  Bool.eq_false_iff.mpr fun hcalm => hfaults (h.calm hcalm)

theorem isAppend (h : s.Browses v) (hv : v.Sound) : s.mode.isAppend = false :=
  h.mode ▸ hv.isAppend

theorem passesOn (h : s.Browses v) (hpass : s.PassesOn s') : s'.Browses v := by
  obtain ⟨y, hcalm, rfl⟩ := hpass
  obtain ⟨position, hh⟩ := h.handle
  exact
    { disk := h.disk, path := h.path, mode := h.mode, processor := h.processor, layout := h.layout
      size := h.size, ciphertextSize := h.ciphertextSize, last := h.last
      handle := ⟨y.position, handle_beside hh y⟩
      calm := fun hc => hcalm (h.calm hc)
      recalls := h.recalls, cursor := h.cursor, stands := h.stands, room := h.room
      capacity := h.capacity }

theorem seek (h : s.Browses v) (pos : Nat) : Browses { s with seekCursor := pos } v := { h with }

/-- The current chunk is put down. -/
theorem putDown (h : s.Browses v) : Browses { s with current := none } v :=
  { h with
    recalls := fun x hx => h.recalls x (List.mem_append_right _ hx)
    stands := by simp }

/-- Another pool of chunks that were in memory. -/
theorem repool (h : s.Browses v) {pool : Pool} (hmem : ∀ x ∈ pool.entries, v.Recalls x)
    (hroom : pool.entries.length < pool.capacity) (hcapacity : pool.capacity < offsetLimit) :
    Browses { s with pool } v :=
  { h with
    recalls := fun x hx => by
      rcases List.mem_append.mp hx with hx | hx
      · exact h.recalls x (List.mem_append_left _ hx)
      · exact hmem x hx
    room := hroom
    capacity := hcapacity }

theorem recalls_pool (h : s.Browses v) (hx : x ∈ s.pool.entries) : v.Recalls x :=
  h.recalls x (List.mem_append_right _ hx)

theorem recalls_current (h : s.Browses v) (hx : s.current = some x) : v.Recalls x :=
  h.recalls x (List.mem_append_left _ (by simp [hx]))

/-- A chunk is taken up, and the cursor is put into it. -/
theorem takeUp (h : s.Browses v) (hx : v.Recalls x) (hle : pos ≤ v.size)
    (hstands : v.Stands pos x) :
    Browses { s with current := some x, cursor := pos } v :=
  { h with
    recalls := fun y hy => by
      rcases List.mem_append.mp hy with hy | hy
      · obtain rfl : y = x := by simpa using hy
        exact hx
      · exact h.recalls_pool hy
    cursor := hle
    stands := fun y hy => by
      obtain rfl : x = y := by simpa using hy
      exact hstands }

/-- A chunk is taken up for a position that is in it. -/
theorem takeUp_at (h : s.Browses v) (hx : v.Recalls x) (hxi : x.seqnum = i) (hpos : pos ≤ v.size)
    (hnumber : v.layout.seqnumOf? pos = some i) : Browses { s with
      current := some { x with offset := pos - v.layout.startOf i }, cursor := pos } v := by
  subst hxi
  obtain ⟨-, hstart, hin, -⟩ := Layout.seqnumOf?_eq_some_iff.mp hnumber
  exact h.takeUp ⟨hx.le, hx.clean, hx.opens⟩ hpos ⟨by simp only; omega, hin.imp id Nat.le_of_lt⟩

end Browses

/-- The container still browses, and nothing was asked for. -/
structure Lingers (s s' : Session) (v : Source) : Prop where
  browses : s'.Browses v
  seekCursor : s'.seekCursor = s.seekCursor

theorem Browses.lingers (h : s.Browses v) : s.Lingers s v := ⟨h, rfl⟩

theorem Browses.lingers_on (h : s.Browses v) (hpass : s.PassesOn s') : s.Lingers s' v := by
  refine ⟨h.passesOn hpass, ?_⟩
  obtain ⟨y, -, rfl⟩ := hpass
  rfl

theorem Lingers.trans {s₁ : Session} (h : s.Lingers s₁ v) (h' : s₁.Lingers s' v) : s.Lingers s' v :=
  ⟨h'.browses, h'.seekCursor.trans h.seekCursor⟩

/-- The container browses on, with the cursor at a position and in its chunk. -/
structure Arrives (s s' : Session) (v : Source) (pos : Nat) : Prop extends s.Lingers s' v where
  cursor : s'.cursor = pos
  current : ∃ x, s'.current = some x ∧ v.layout.seqnumOf? pos = some x.seqnum

theorem Lingers.arrives {s₁ : Session} (h : s.Lingers s₁ v) (h' : s₁.Arrives s' v pos) :
    s.Arrives s' v pos :=
  { h' with toLingers := h.trans h'.toLingers }

/-- The container browses on, but did not come to a position. -/
structure Misses (s s' : Session) (v : Source) (wanted : Nat → Prop) (e : Error) : Prop extends
    s.Lingers s' v where
  excuse : v.Excuses wanted e

variable {wanted wanted' : Nat → Prop} {e : Error}

theorem Lingers.misses {s₁ : Session} (h : s.Lingers s₁ v) (h' : s₁.Misses s' v wanted e) :
    s.Misses s' v wanted e :=
  { h' with toLingers := h.trans h'.toLingers }

theorem Misses.mono (h : s.Misses s' v wanted e) (himp : ∀ p, wanted p → wanted' p) :
    s.Misses s' v wanted' e :=
  { h with excuse := h.excuse.mono himp }

end Session

namespace Container

open Session CheckedOp

variable {s : Session} {v : Source} {i pos : Nat} {x : Chunk}

/-! ## Loading a chunk

The chunk of a source lies in its chunk data, which the file has all of. So every check on the
way passes, and a read that comes short has met a fault. -/

theorem eofPosChecked_run (h : s.Browses v) (hv : v.Sound) :
    eofPosChecked s = .ok v.eofPos s := by
  have hlt : s.layout.dataOffset + s.ciphertextSize < offsetLimit := by
    rw [h.layout, h.ciphertextSize]
    exact hv.end_lt
  have hsum : s.layout.dataOffset + s.ciphertextSize = v.eofPos := by
    rw [h.layout, h.ciphertextSize]
    rfl
  show CheckedOp.ofOption (Checked.add s.layout.dataOffset s.ciphertextSize) s = _
  rw [Checked.add_eq hlt, hsum]
  rfl

/-- The raw offset of a chunk of the source is in the chunk data. -/
theorem rawPosOf_browses (h : s.Browses v) (hv : v.Sound) (hi : i ≤ v.last) :
    (rawPosOfChecked i).Does (rawPosOf i) s
      (fun raw s' => raw = v.layout.rawStartOf i ∧ s.PassesOn s')
      (fun _ s' => v.calm = false ∧ s.PassesOn s') := by
  obtain ⟨position, hh⟩ := h.handle
  have hstart := hv.rawStart_le hi
  have hend := hv.end_lt
  have hsmall : v.layout.rawStartOf i < offsetLimit := by omega
  have hpresent : ¬(s.disk.contents v.file).length < v.eofPos := by
    rw [h.disk]
    exact Nat.not_lt.mpr hv.present
  unfold rawPosOfChecked rawPosOf
  refine Does.step (eofPosChecked_run h hv) (Does.look ?_)
  rw [h.eofPos]
  refine Does.bind (Does.ofOp ((Raw.size_ends hh).mono (fun _ _ => id)
    fun _ _ h' => ⟨h.not_calm h'.1, h'.2⟩)) ?_
  rintro n t ⟨rfl, hpass⟩
  rw [if_neg hpresent, if_neg hpresent]
  refine Does.get_bind ?_
  rw [(h.passesOn hpass).layout]
  refine Does.check (Layout.rawStartChecked_eq hsmall) ?_
  rw [if_neg (by omega), if_neg (by omega)]
  exact Does.pure ⟨rfl, hpass⟩

/-- **A chunk is loaded as what it opens to,** or else there is its error. -/
theorem loadChunk_browses (h : s.Browses v) (hv : v.Sound) (hi : i ≤ v.last) (offset : Nat) :
    (loadChunkChecked i offset 0).Does (loadChunk i offset 0) s
      (fun x s' => x.seqnum = i ∧ v.Recalls x ∧ s.PassesOn s')
      (fun e s' => (v.calm = false ∨ v.chunk i = .error e) ∧ s.PassesOn s') := by
  have hstart := hv.rawStart_le hi
  have hend := hv.rawStart_add_stored_le hi
  have hrecalls {content : Bytes} (hc : v.chunk i = .ok content) (streamed ciphertextSize : Nat) :
      v.Recalls { Chunk.new i (v.processor.maxPlainSize i) with
        content, streamed, ciphertextSize } := ⟨hi, rfl, hc⟩
  unfold loadChunkChecked loadChunk
  refine Does.get_bind ?_
  rw [h.processor]
  refine Does.bind ((rawPosOf_browses h hv hi).mono (fun _ _ => id)
    fun _ _ h' => ⟨.inl h'.1, h'.2⟩) ?_
  rintro _ t ⟨rfl, hpass⟩
  have ht := h.passesOn hpass
  refine Does.step (eofPosChecked_run ht hv) (Does.get_bind ?_)
  rw [ht.processor, ht.ciphertextSize, ht.eofPos]
  refine Does.check (v.processor.maxPackedChecked_eq i _) (Does.check (Checked.sub_eq hstart) ?_)
  -- this is by definition what the source has stored of the chunk
  have hlen : min (v.processor.maxPackedSize i v.ciphertextSize)
      (v.eofPos - v.layout.rawStartOf i) = v.stored i := rfl
  simp only [hlen]
  refine Does.ite (fun hnone => Does.pure ⟨rfl, hrecalls ?_ 0 0, hpass⟩) fun hsome => ?_
  · rw [Source.chunk, if_pos hnone]
  -- Nothing is about to be overwritten.
  rw [if_neg (by omega), if_neg (by omega)]
  obtain ⟨position, hh⟩ := ht.handle
  refine Does.bind (Does.ofOp ((Raw.seek_ends hh _).mono (fun _ _ => id)
    fun _ _ h' => ⟨.inl (ht.not_calm h'.1), hpass.trans h'.2⟩)) ?_
  rintro - - ⟨y, hcalm, hy, rfl⟩
  have hpass₁ := hpass.trans ⟨y, hcalm, rfl⟩
  have ht₁ := h.passesOn hpass₁
  refine Does.bind (Does.ofOp ((Raw.read_ends (handle_beside hh y) _).mono (fun _ _ => id)
    fun _ _ h' => ⟨.inl (ht₁.not_calm h'.1), hpass₁.trans h'.2⟩)) ?_
  rintro data - ⟨hdata, z, hcalm', -, rfl⟩
  have hpass₂ := hpass₁.trans ⟨z, hcalm', rfl⟩
  have ht₂ := h.passesOn hpass₂
  simp only [hy, ht₁.disk] at hdata
  -- The chunk lies inside the file, so a short read needs a fault.
  refine Does.unless (fun hshort => ⟨.inl ?_, hpass₂⟩) fun hread => ?_
  · refine Bool.eq_false_iff.mpr fun hc => hshort ?_
    rw [hdata (.inl (ht₁.calm hc)), Bytes.length_slice]
    change v.layout.rawStartOf i + v.stored i ≤ (v.disk.contents v.file).length at hend
    omega
  have hslice : data = v.raw.slice (v.layout.rawStartOf i) (v.stored i) :=
    hdata (.inr (Classical.not_not.mp hread))
  have hchunk : v.chunk i = v.processor.unpackChunk data i := by
    rw [Source.chunk, if_neg hsome, hslice]
  refine Does.bind (P := fun content s' => v.chunk i = .ok content ∧ s.PassesOn s') ?_ ?_
  · obtain ⟨position, hh⟩ := ht₂.handle
    unfold unpackChunkChecked unpackChunk
    refine Does.bind (Does.ofOp (Raw.note_ends hh _ _)) ?_
    rintro - - ⟨w, hcalm, -, rfl⟩
    have hpass₃ := hpass₂.trans ⟨w, hcalm, rfl⟩
    refine Does.get_bind ?_
    rw [(h.passesOn hpass₃).processor]
    refine Does.ofResult (v.processor.unpackChunkChecked_eq data i) (fun content hc => ?_)
      fun e he => ?_
    · exact ⟨hchunk.trans hc, hpass₃⟩
    · exact ⟨.inr (hchunk.trans he), hpass₃⟩
  · rintro content s' ⟨hc, hpass'⟩
    exact Does.pure ⟨rfl, hrecalls hc _ _, hpass'⟩

/-! ## Putting chunks away -/

/-- What is not dirty is not written. -/
theorem flushLast_browses {err : Error → Session → Prop} (h : s.Browses v) :
    flushLastChecked.Does flushLast s (fun _ s' => s' = s) err := by
  unfold flushLastChecked flushLast
  refine Does.get_bind ?_
  cases hx : s.current with
  | none => exact Does.pure rfl
  | some x =>
    -- nothing is dirty, so the chunk of the end has nothing to be written
    simp only [(h.recalls_current hx).clean, Bool.false_and, Bool.false_eq_true, if_false]
    exact Does.pure rfl

theorem flushEvicted_browses {err : Error → Session → Prop} {xs : List Chunk}
    (h : ∀ x ∈ xs, v.Recalls x) :
    (flushEvictedChecked xs).Does (flushEvicted xs) s (fun _ s' => s' = s) err := by
  induction xs with
  | nil => exact Does.pure rfl
  | cons x xs ih =>
    unfold flushEvictedChecked flushEvicted
    simp only [(h x List.mem_cons_self).clean, Bool.false_eq_true, if_false]
    exact ih fun y hy => h y (List.mem_cons_of_mem x hy)

theorem retire_browses {err : Error → Session → Prop} (h : s.Browses v) (hx : v.Recalls x) :
    (retireChecked x).Does (retire x) s (fun _ s' => s.Lingers s' v) err := by
  have hmem {y : Chunk} (hy : y ∈ (s.pool.insert x).1.toList ++ (s.pool.insert x).2.entries) :
      v.Recalls y := by
    rcases Pool.mem_insert hy with hy | rfl
    · exact h.recalls_pool hy
    · exact hx
  have hcapacity : (s.pool.insert x).2.capacity < offsetLimit := by
    rw [Pool.capacity_insert]
    exact h.capacity
  unfold retireChecked retire
  refine Does.get_bind (Does.ite (fun _ => ?_) fun _ => ?_)
  · refine Does.set_bind ((flushEvicted_browses (v := v) fun y hy =>
      hmem (List.mem_append_left _ hy)).mono ?_ fun _ _ => id)
    rintro - - rfl
    exact ⟨h.repool (fun y hy => hmem (List.mem_append_right _ hy))
      (s.pool.size_insert_lt x h.room) hcapacity, rfl⟩
  · simp only [hx.clean, Bool.false_eq_true, if_false]
    exact Does.pure h.lingers

theorem takePooled_browses {err : Error → Session → Prop} (h : s.Browses v) (i : Nat) :
    (takePooled i).Ends s
      (fun found s' => (∀ x, found = some x → x.seqnum = i ∧ v.Recalls x) ∧ s.Lingers s' v)
      err := by
  unfold takePooled
  refine Op.Ends.bind (P := fun a t => a = s ∧ t = s) ⟨rfl, rfl⟩ ?_
  intro a t hat
  rw [hat.1, hat.2]
  by_cases hcache : s.useCache = true
  · simp only [if_pos hcache]
    refine ⟨fun x hx => ?_, h.repool (fun x hx => ?_) ?_ h.capacity, rfl⟩
    · exact ⟨Pool.seqnum_of_take hx,
        h.recalls_pool (Pool.mem_take (i := i) (List.mem_append_left _ (by simp [hx])))⟩
    · exact h.recalls_pool (Pool.mem_take (List.mem_append_right _ hx))
    · exact Nat.lt_of_le_of_lt (s.pool.size_take_le i) h.room
  · simp only [if_neg hcache]
    exact ⟨fun x hx => absurd hx (by simp), h.lingers⟩

/-! ## Moving

The chunk that is left is put into the pool, which may push another one out; neither of them is
dirty, so nothing is written. What fails while the next chunk is fetched finds the container
without a current chunk, which it may be at any time. -/

/-- The chunk of a position is taken out of the pool or loaded. -/
theorem fetch_browses (h : s.Browses v) (hv : v.Sound) (hpos : pos ≤ v.size)
    (hnumber : v.layout.seqnumOf? pos = some i) :
    CheckedOp.Does
      (do
        let chunk ← match ← CheckedOp.ofOp (takePooled i) with
          | some chunk => Pure.pure chunk
          | none => loadChunkChecked i (pos - v.layout.startOf i) 0
        modify fun s => { s with
          current := some { chunk with offset := pos - v.layout.startOf i }
          cursor := pos
          eofSeqnum := max s.eofSeqnum i })
      (do
        let chunk ← match ← takePooled i with
          | some chunk => Pure.pure chunk
          | none => loadChunk i (pos - v.layout.startOf i) 0
        modify fun s => { s with
          current := some { chunk with offset := pos - v.layout.startOf i }
          cursor := pos
          eofSeqnum := max s.eofSeqnum i }) s
      (fun _ s' => s.Arrives s' v pos) (fun e s' => s.Misses s' v (· = pos) e) := by
  have hi : i ≤ v.last := Layout.seqnumOf?_mono hnumber hv.last hpos
  have harrives {t : Session} {x : Chunk} (ht : s.Lingers t v) (hx : v.Recalls x)
      (hxi : x.seqnum = i) :
      s.Arrives { t with
        current := some { x with offset := pos - v.layout.startOf i }
        cursor := pos
        eofSeqnum := max t.eofSeqnum i } v pos := by
    -- the number of a position in the content is at most the last one
    have hlast : max t.eofSeqnum i = v.last := by
      rw [ht.browses.last]
      exact Nat.max_eq_left hi
    exact
      { browses := { ht.browses.takeUp_at hx hxi hpos hnumber with last := hlast }
        seekCursor := ht.seekCursor
        cursor := rfl
        current := ⟨_, rfl, hnumber.trans (congrArg some hxi.symm)⟩ }
  refine Does.bind (Does.ofOp (takePooled_browses h i)) ?_
  rintro found t ⟨hfound, ht⟩
  cases found with
  | some x => exact Does.modify (harrives ht (hfound x rfl).2 (hfound x rfl).1)
  | none =>
    refine Does.bind ((loadChunk_browses ht.browses hv hi _).mono (fun _ _ => id) ?_) ?_
    · rintro e s' ⟨hwhy, hpass⟩
      exact ⟨ht.trans (ht.browses.lingers_on hpass),
        hwhy.imp id fun he => ⟨pos, i, rfl, hnumber, he⟩⟩
    · rintro x u ⟨hxi, hx, hpass⟩
      exact Does.modify (harrives (ht.trans (ht.browses.lingers_on hpass)) hx hxi)

/-- **The container moves to any position of the content,** unless the chunk there does not open.
Whatever happens, it goes on browsing. -/
theorem moveTo_browses (h : s.Browses v) (hv : v.Sound) (hpos : pos ≤ v.size) :
    (moveToChecked pos 0).Does (moveTo pos 0) s
      (fun _ s' => s.Arrives s' v pos) (fun e s' => s.Misses s' v (· = pos) e) := by
  obtain ⟨i, hi, hnumber⟩ := hv.seqnumOf?_le hpos
  have hplace : v.layout.locate? pos = some (i, pos - v.layout.startOf i) := by
    rw [Layout.locate?, hnumber]
    rfl
  have hbehind : ¬(if s.mode.isAppend = true then pos ≠ s.size else s.size < pos) := by
    rw [h.isAppend hv, h.size]
    simpa using hpos
  unfold moveToChecked moveTo
  refine Does.bind (P := fun _ t => t = s) (Does.ofOp ?_) ?_
  · simp [Op.Ends, ensureOpen, bind, EStateM.bind, h.isOpen]
  rintro - t ht
  rw [ht]
  refine Does.get_bind ?_
  rw [if_neg hbehind, if_neg hbehind, h.layout]
  refine Does.check (Layout.locateChecked_eq hv.small pos) ?_
  simp only [hplace]
  -- the chunk is current already, and only the place in it changes
  refine Does.ite (fun hsame => ?_) fun _ => ?_
  · obtain ⟨x, hx, hxi⟩ : ∃ x, s.current = some x ∧ x.seqnum = i := by
      simpa [Option.any_eq_true] using hsame
    have hup := h.takeUp_at (h.recalls_current hx) hxi hpos hnumber
    refine Does.modify
      { browses := ?_
        seekCursor := rfl
        cursor := rfl
        current := ⟨{ x with offset := pos - v.layout.startOf i }, by simp [hx],
          by rw [hnumber, hxi]⟩ }
    simp only [hx, Option.map_some]
    exact hup
  · refine Does.bind (flushLast_browses h) ?_
    rintro - t ht
    rw [ht]
    refine Does.get_bind (Does.modify_bind ?_)
    have hdown : s.Lingers { s with current := none } v := ⟨h.putDown, rfl⟩
    have hfetch {t : Session} (ht : s.Lingers t v) :=
      (fetch_browses ht.browses hv hpos hnumber).mono (fun _ _ => ht.arrives) fun _ _ => ht.misses
    cases hx : s.current with
    | none => exact hfetch hdown
    | some x =>
      refine Does.bind (retire_browses h.putDown (h.recalls_current hx)) ?_
      exact fun _ t ht => hfetch (hdown.trans ht)

/-- The cursor is brought to the position asked for. -/
theorem syncCursor_browses (h : s.Browses v) (hv : v.Sound) (hpos : s.seekCursor ≤ v.size) :
    syncCursorChecked.Does syncCursor s
      (fun _ s' => s.Lingers s' v ∧ s'.cursor = s.seekCursor ∧ ∃ x, s'.current = some x)
      (fun e s' => s.Misses s' v (· = s.seekCursor) e) := by
  unfold syncCursorChecked syncCursor
  refine Does.get_bind (Does.ite (fun _ => ?_) fun hthere => ?_)
  · refine (moveTo_browses h hv hpos).mono (fun _ s' hs' => ?_) fun _ _ => id
    obtain ⟨x, hx, -⟩ := hs'.current
    exact ⟨hs'.toLingers, hs'.cursor, x, hx⟩
  · simp only [Bool.or_eq_true, Option.isNone_iff_eq_none, bne_iff_ne, ne_eq, not_or,
      Classical.not_not] at hthere
    exact Does.pure ⟨h.lingers, hthere.2.symm, Option.ne_none_iff_exists'.mp hthere.1⟩

end Container

end Vault
