import Vault.Proofs.Ledger
import Vault.Proofs.State

/-!
# `Vault/Proofs/Thrift.lean` — no more chunks in memory than there is room for

The chunk that is being worked on lies beside the pool and goes in and out of it, while the capacity
and the permission to keep chunks may change. **An open container is thrifty all the time: the pool
has room for one chunk more, no chunk is in memory twice, and where chunks may not be kept the pool
is empty** (`Session.Thrifty`). Nothing is assumed about faults or about what is in the file. A step
that fails may leave the container without a current chunk, and may have lost one that had to make
way, but that makes no chunk more.

Most steps do not touch the numbers of the chunks in memory at all. They are stated with the number
of the current chunk (`Session.Works`), so that a chunk may be put in the place of the current one.
-/

set_option autoImplicit false

namespace Vault

namespace Session

/-- An open container in this mode that holds no more in memory than it may. -/
structure Thrifty (mode : Mode) (s : Session) : Prop where
  isOpen : s.isOpen = true
  mode : s.mode = mode
  /-- There is room for the current chunk. -/
  room : s.pool.size < s.pool.capacity
  distinct : (s.memory.map (·.seqnum)).Nodup
  /-- Where chunks are not kept there are none. -/
  unpooled : s.useCache = false → s.pool.entries = []
  /-- Chunks are kept only where that is allowed. -/
  allowed : s.useCache = true → s.cachePolicy = true

/-- A thrifty container that works on the chunk with this number, or on none. -/
def Works (mode : Mode) (n : Option Nat) (s : Session) : Prop :=
  s.Thrifty mode ∧ s.current.map (·.seqnum) = n

variable {s : Session} {mode : Mode} {n : Option Nat} {x y : Chunk}

namespace Thrifty

/-- The mode may change to one that allows as much. -/
theorem remode {o : Opening} (hallows : o.mode.allowsCache = s.mode.allowsCache)
    (huse : o.useCache = s.useCache)
    (hnumber : o.current.map (·.seqnum) = s.current.map (·.seqnum)) (h : s.Thrifty mode) :
    Thrifty o.mode { s with toOpening := o } where
  isOpen := h.isOpen
  mode := rfl
  room := h.room
  distinct := by
    have hsame : o.current.toList.map (·.seqnum) = s.current.toList.map (·.seqnum) := by
      rw [← Option.toList_map, ← Option.toList_map, hnumber]
    have hdistinct := h.distinct
    rw [memory, List.map_append] at hdistinct ⊢
    exact hsame ▸ hdistinct
  unpooled huse' := h.unpooled (huse ▸ huse')
  allowed huse' := by
    have hpolicy := h.allowed (huse ▸ huse')
    rw [Container.cachePolicy] at hpolicy ⊢
    exact hallows ▸ hpolicy

/-- What is known of the content may be something else, as long as the current chunk has its
number. -/
theorem opening {o : Opening} (hmode : o.mode = s.mode) (huse : o.useCache = s.useCache)
    (hnumber : o.current.map (·.seqnum) = s.current.map (·.seqnum)) (h : s.Thrifty mode) :
    Thrifty mode { s with toOpening := o } :=
  hmode.trans h.mode ▸ h.remode (hmode ▸ rfl) huse hnumber

theorem works (h : s.Thrifty mode) : s.Works mode (s.current.map (·.seqnum)) := ⟨h, rfl⟩

/-- The current chunk is given up. -/
theorem leave (h : s.Thrifty mode) : Works mode none { s with current := none } := by
  refine ⟨⟨h.isOpen, h.mode, h.room, ?_, h.unpooled, h.allowed⟩, rfl⟩
  exact ((List.sublist_append_right _ _).map _).nodup h.distinct

/-- Another pool, with room for the current chunk and nothing of its number. -/
theorem pooled {pool : Pool} (hroom : pool.size < pool.capacity)
    (hdistinct : ((s.current.toList ++ pool.entries).map (·.seqnum)).Nodup)
    (hunpooled : s.useCache = false → pool.entries = []) (h : s.Thrifty mode) :
    Thrifty mode { s with pool } :=
  ⟨h.isOpen, h.mode, hroom, hdistinct, hunpooled, h.allowed⟩

/-- Some chunks are taken out of the pool. -/
theorem fewer {pool : Pool} (hroom : pool.size < pool.capacity)
    (hsub : (pool.entries.map (·.seqnum)).Sublist (s.pool.entries.map (·.seqnum)))
    (h : s.Thrifty mode) : Thrifty mode { s with pool } := by
  refine h.pooled hroom ?_ fun huse => ?_
  · have hdistinct := h.distinct
    rw [memory, List.map_append] at hdistinct
    rw [List.map_append]
    exact ((List.Sublist.refl _).append hsub).nodup hdistinct
  · rw [h.unpooled huse] at hsub
    simpa using hsub

/-- Only what the container is, knows and keeps matters. -/
theorem beside {t : Session} (h : s.Thrifty mode) (hopening : t.toOpening = s.toOpening)
    (hpool : t.pool = s.pool) (hconfig : t.config = s.config)
    (hprocessor : t.processor.config = s.processor.config) (hopen : t.isOpen = true) :
    t.Thrifty mode where
  isOpen := hopen
  mode := hopening ▸ h.mode
  room := hpool ▸ h.room
  distinct := by
    rw [memory, hopening, hpool]
    exact h.distinct
  unpooled := by
    rw [hopening, hpool]
    exact h.unpooled
  allowed := by
    rw [Container.cachePolicy, hopening, hconfig, hprocessor]
    exact h.allowed

/-- The configuration may have other sizes. -/
theorem config (config : ContainerConfig) (hsame : config.cacheEnabled = s.config.cacheEnabled)
    (h : s.Thrifty mode) : Thrifty mode { s with config } := by
  refine ⟨h.isOpen, h.mode, h.room, h.distinct, h.unpooled, fun huse => ?_⟩
  have hpolicy := h.allowed huse
  rw [Container.cachePolicy] at hpolicy ⊢
  exact hsame ▸ hpolicy

theorem pool_nodup (h : s.Thrifty mode) : (s.pool.entries.map (·.seqnum)).Nodup :=
  ((List.sublist_append_right _ _).map _).nodup h.distinct

end Thrifty

namespace Works

/-- A chunk takes the place of the current one. -/
theorem placed (hx : n = some x.seqnum) (h : s.Works mode n) :
    Works mode n { s with current := some x } :=
  ⟨h.1.opening (o := { s.toOpening with current := some x }) rfl rfl (hx.symm.trans h.2.symm),
    hx.symm⟩

theorem beside {t : Session} (h : s.Works mode n) (hopening : t.toOpening = s.toOpening)
    (hpool : t.pool = s.pool) (hconfig : t.config = s.config)
    (hprocessor : t.processor.config = s.processor.config) (hopen : t.isOpen = true) :
    t.Works mode n :=
  ⟨h.1.beside hopening hpool hconfig hprocessor hopen, by rw [hopening]; exact h.2⟩

theorem seqnum_eq (h : s.Works mode n) (hx : s.current = some x) : n = some x.seqnum := by
  rw [← h.2, hx]
  rfl

end Works

theorem ambient_works (mode : Mode) (n : Option Nat) : Ambient (Works mode n) where
  faults _ h := h.beside rfl rfl rfl rfl h.1.isOpen
  handle _ h := h.beside rfl rfl rfl rfl rfl
  noted _ h := h.beside rfl rfl rfl rfl h.1.isOpen

theorem ambient_thrifty (mode : Mode) : Ambient (Thrifty mode) where
  faults hcall h := ((ambient_works mode _).faults hcall h.works).1
  handle t h := ((ambient_works mode _).handle t h.works).1
  noted hevent h := ((ambient_works mode _).noted hevent h.works).1

end Session

/-! ## Steps that leave the numbers in memory alone

Flushing and writing sizes put a chunk in the place of one with its number, so `Works` is kept
with whatever number there is. `Keeps.thrifty` turns that into what is said of moving and
reading, where the current chunk changes. -/

namespace Op

variable {α : Type} {x : Op α} {P : α → Prop} {s : Session} {mode : Mode}

/-- Whatever chunk the container works on. -/
theorem Keeps.thrifty (h : ∀ n, x.Keeps (Session.Works mode n) P s) :
    x.Keeps (Session.Thrifty mode) P s :=
  Keeps.beside (J := fun t => t.current.map (·.seqnum) = s.current.map (·.seqnum)) rfl (h _)

end Op

namespace Container

open Session

variable {s : Session} {mode : Mode} {n : Option Nat} {x : Chunk}

theorem flushChunk_works (x : Chunk) :
    (flushChunk x).Keeps (Works mode n) (fun y => y.seqnum = x.seqnum) s := by
  have hdrawn {t : Session} (random : Random) (h : t.Works mode n) :
      Works mode n { t with random } := h.beside rfl rfl rfl rfl h.1.isOpen
  refine (flushChunk_keeps (fun ct sizeDirty tailCut h => ?_) (fun disk h => ?_)
    (fun trace h => ?_) (fun h => ?_) (ambient_works mode n) (fun h => ?_) hdrawn x).mono
      fun y hy => hy.2
  · exact ⟨h.1.opening rfl rfl rfl, h.2⟩
  all_goals exact h.beside rfl rfl rfl rfl h.1.isOpen

theorem writeAt_works (offset : Nat) (data : Bytes) :
    (writeAt offset data).Keeps (Works mode n) (fun _ => True) s := by
  refine writeAt_keeps (fun _ h => ?_) (fun _ h => ?_) (fun h => ?_) (ambient_works mode n) offset
    data
  all_goals exact h.beside rfl rfl rfl rfl h.1.isOpen

theorem writeSize_works : writeSize.Keeps (Works mode n) (fun _ => True) s := by
  refine writeSize_keeps (fun ct sizeDirty tailCut h => ?_) (fun disk h => ?_) (fun trace h => ?_)
    (fun h => ?_) (ambient_works mode n)
  · exact ⟨h.1.opening rfl rfl rfl, h.2⟩
  all_goals exact h.beside rfl rfl rfl rfl h.1.isOpen

/-- Asking for the current chunk changes nothing. -/
theorem active_bind_keeps {α : Type} {I : Session → Prop} {P : α → Prop} {f : Chunk → Op α}
    (h : ∀ x, s.current = some x → (f x).Keeps I P s) : (active >>= f).Keeps I P s := by
  intro hs
  simp only [active, bind, EStateM.bind, Op.get_run]
  cases hx : s.current with
  | none => exact hs
  | some x => exact h x hx hs

theorem flushActive_works : flushActive.Keeps (Works mode n) (fun _ => True) s := by
  unfold flushActive
  refine active_bind_keeps fun x hx hs => ?_
  refine Op.Keeps.bind (flushChunk_works x) (fun y _ hy => ?_) hs
  exact Op.Keeps.modify (Works.placed (hy.symm ▸ hs.seqnum_eq hx)) trivial

theorem flushLast_works : flushLast.Keeps (Works mode n) (fun _ => True) s := by
  unfold flushLast
  refine Op.Keeps.get_bind fun _ => ?_
  cases s.current with
  | none => exact Op.Keeps.pure trivial
  | some _ => exact Op.Keeps.ite (fun _ => flushActive_works) fun _ => Op.Keeps.pure trivial

theorem flushEvicted_works (xs : List Chunk) :
    (flushEvicted xs).Keeps (Works mode n) (fun _ => True) s :=
  flushEvicted_keeps_of (P := fun _ => True) fun x _ _ _ =>
    (flushChunk_works x).mono fun _ _ => trivial

/-- A chunk that was written comes back to its place in the pool. -/
theorem flushPooled_works (xs : List Chunk) :
    (flushPooled xs).Keeps (Works mode n) (fun _ => True) s := by
  refine flushPooled_keeps_of (P := fun _ => True)
    (fun x _ _ _ => (flushChunk_works x).mono fun _ _ => trivial) fun t y _ ht => ?_
  refine ⟨ht.1.fewer ?_ ?_, ht.2⟩
  · simpa [Pool.refresh, Pool.size] using ht.1.room
  · exact Pool.map_seqnum_refresh t.pool y ▸ List.Sublist.refl _

/-- Writing the sizes and flushing the raw file. -/
theorem settle_works (raw : Option Bool) :
    Op.Keeps (do
      writeSize
      match raw with
      | some deep => Raw.flush deep
      | none => pure ()) (Works mode n) (fun _ => True) s := by
  refine Op.Keeps.bind writeSize_works fun _ _ _ => ?_
  cases raw with
  | none => exact Op.Keeps.pure trivial
  | some deep => exact Raw.flush_keeps (ambient_works mode n) deep

theorem flushAll_works (raw : Option Bool) :
    (flushAll raw).Keeps (Works mode n) (fun _ => True) s := by
  unfold flushAll
  refine Op.Keeps.get_bind fun _ => Op.Keeps.ite (fun _ => ?_) fun _ => Op.Keeps.pure trivial
  refine Op.Keeps.bind (flushPooled_works _) fun _ _ _ => Op.Keeps.get_bind fun _ => ?_
  refine Op.Keeps.ite (fun _ => ?_) fun _ => settle_works raw
  exact Op.Keeps.bind flushActive_works fun _ _ _ => settle_works raw

/-! ## Moving

Between leaving one chunk and coming to another no chunk is current, and there is room for one
more in the pool. A failure in that moment leaves the container without a current chunk. -/

/-- A chunk that is put away goes into the pool, which makes way for it, or is written. -/
theorem retire_works (x : Chunk) : (retire x).Keeps (Works mode none) (fun _ => True) s := by
  unfold retire
  refine Op.Keeps.get_bind fun _ => Op.Keeps.ite (fun huse => ?_) fun _ => ?_
  · refine Op.Keeps.set_bind (fun hs => ⟨hs.1.pooled ?_ ?_ ?_, hs.2⟩) (flushEvicted_works _)
    · exact s.pool.size_insert_lt x hs.1.room
    · have hnone : s.current = none := by simpa using hs.2
      rw [hnone]
      exact Pool.nodup_insert x hs.1.pool_nodup
    · exact fun hno => absurd (huse.symm.trans hno) (by simp)
  · refine Op.Keeps.ite (fun _ => ?_) fun _ => Op.Keeps.pure trivial
    exact (flushChunk_works x).discard

/-- What comes out of the pool is the chunk asked for, and none of its number is left. -/
theorem takePooled_ends (i : Nat) (hs : s.Works mode none) :
    (takePooled i).Ends s
      (fun found t => t.Works mode none ∧ Chunk.Absent t.pool.entries i ∧
        ∀ y, found = some y → y.seqnum = i) fun _ t => t.Thrifty mode := by
  unfold takePooled
  refine Op.Ends.get_bind ?_
  cases huse : s.useCache with
  | true =>
    have hroom : (s.pool.take i).2.size < (s.pool.take i).2.capacity :=
      Nat.lt_of_le_of_lt (s.pool.sublist_take i).length_le hs.1.room
    refine ⟨⟨hs.1.fewer hroom ((s.pool.sublist_take i).map _), hs.2⟩, ?_, fun y hy => ?_⟩
    · exact Pool.absent_take i hs.1.pool_nodup
    · exact Pool.seqnum_of_take hy
  | false => exact ⟨hs, by simp [Chunk.Absent, hs.1.unpooled huse], by simp⟩

/-- Making another chunk current, from memory or from the file. -/
theorem arrive_ends (seqnum offset overwrite pos : Nat) (hs : s.Works mode none) :
    Op.Ends (do
      let chunk ← match ← takePooled seqnum with
        | some chunk => pure chunk
        | none => loadChunk seqnum offset overwrite
      modify fun s => { s with
        current := some { chunk with offset }
        cursor := pos
        eofSeqnum := max s.eofSeqnum seqnum }) s
      (fun _ t => t.Thrifty mode) fun _ t => t.Thrifty mode := by
  let Alone (u : Session) : Prop := u.Works mode none ∧ Chunk.Absent u.pool.entries seqnum
  have hambient : Ambient Alone := (ambient_works mode none).and
    { faults := fun _ h => h, handle := fun _ h => h, noted := fun _ h => h }
  -- the chunk that is made current must not be in the pool as well
  have hset (y : Chunk) (u : Session) (hy : y.seqnum = seqnum) (hu : Alone u) :
      Thrifty mode { u with
        current := some { y with offset }
        cursor := pos
        eofSeqnum := max u.eofSeqnum seqnum } := by
    obtain ⟨hu, halone⟩ := hu
    refine ⟨hu.1.isOpen, hu.1.mode, hu.1.room, ?_, hu.1.unpooled, hu.1.allowed⟩
    refine List.nodup_cons.mpr ⟨fun hmem => ?_, hu.1.pool_nodup⟩
    obtain ⟨z, hz, heq⟩ := List.mem_map.mp hmem
    exact halone z hz (heq.trans hy)
  refine Op.Ends.bind (takePooled_ends seqnum hs) ?_
  rintro found t ⟨ht, habsent, hfound⟩
  cases found with
  -- it came out of the pool, which has none of its number left
  | some y => exact hset y t (hfound y rfl) ⟨ht, habsent⟩
  | none =>
    -- it comes from the file, and reading does not touch the pool
    refine Op.Ends.bind (P := fun y u => y.seqnum = seqnum ∧ Alone u) ?_ fun y u hu => ?_
    · exact Op.Ends.mono (loadChunk_keeps_of hambient seqnum offset overwrite ⟨ht, habsent⟩)
        (fun y u h => ⟨h.1.2, h.2⟩) fun _ _ h => h.1.1
    · exact hset y u hu.1 hu.2

/-- **Moving keeps a container thrifty,** wherever it fails. -/
theorem moveTo_thrifty (pos overwrite : Nat) :
    (moveTo pos overwrite).Keeps (Thrifty mode) (fun _ => True) s := by
  unfold moveTo
  refine Op.Keeps.bind ensureOpen_keeps fun _ s _ => Op.Keeps.get_bind fun _ => ?_
  refine Op.Keeps.unless fun _ => ?_
  split
  · exact Op.Keeps.throw
  · rename_i seqnum offset _
    refine Op.Keeps.ite (fun _ => ?_) fun _ => ?_
    · refine Op.Keeps.modify (fun hs => hs.opening rfl rfl ?_) trivial
      cases s.current <;> rfl
    · -- flushing keeps the number of the current chunk, whether it succeeds or not
      refine Op.Keeps.bind (Op.Keeps.thrifty fun _ => flushLast_works) fun _ t _ => ?_
      intro ht
      have harrive (u : Session) (hu : u.Works mode none) :=
        arrive_ends seqnum offset overwrite pos hu
      refine Op.Ends.mono (Op.Ends.get_bind (Op.Ends.modify_bind ?_)) (fun _ _ h => ⟨trivial, h⟩)
        fun _ _ => id
      cases t.current with
      | none => exact harrive _ ht.leave
      -- retiring may make another chunk leave the pool, and never adds one with a number that is
      -- there
      | some x =>
        have hretired := (retire_works x).ends ht.leave
        exact Op.Ends.bind (hretired.mono (fun _ _ h => h) fun _ _ h => h.1) fun _ u hu =>
          harrive u hu

theorem syncCursor_thrifty : syncCursor.Keeps (Thrifty mode) (fun _ => True) s := by
  unfold syncCursor
  refine Op.Keeps.get_bind fun _ => ?_
  exact Op.Keeps.ite (fun _ => moveTo_thrifty _ 0) fun _ => Op.Keeps.pure trivial

theorem seek_thrifty (pos : Nat) : (seek pos).Keeps (Thrifty mode) (fun _ => True) s := by
  unfold seek
  refine Op.Keeps.bind ensureOpen_keeps fun _ s _ => Op.Keeps.get_bind fun _ => ?_
  refine Op.Keeps.unless fun _ => Op.Keeps.set_bind (fun hs => hs.opening rfl rfl rfl) ?_
  exact Op.Keeps.ite (fun _ => moveTo_thrifty pos 0) fun _ => Op.Keeps.pure trivial

/-! ## Reading

A loop keeps thrifty what each of its turns does, whatever it is asked for and however many turns
it has. The induction is only about that. -/

/-- Induction on the turns: reading moves the place in the current chunk, or moves on. -/
theorem readChunks_thrifty (turns want : Nat) :
    (readChunks turns want).Keeps (Thrifty mode) (fun _ => True) s := by
  induction turns generalizing s want with
  | zero => exact Op.Keeps.pure trivial
  | succ turns ih =>
    have hhere {t : Session} : Op.Keeps (do
        let chunk ← active
        if chunk.remaining = 0 then return []
        else
          let s ← get
          let read := chunk.read (min want (s.size - s.cursor))
          set { s with current := some read.2, cursor := s.cursor + read.1.length }
          return read.1 ++ (← readChunks turns (want - read.1.length)))
        (Thrifty mode) (fun _ => True) t := by
      refine active_bind_keeps fun x hx => ?_
      refine Op.Keeps.ite (fun _ => Op.Keeps.pure trivial) fun _ => Op.Keeps.get_bind fun _ => ?_
      refine Op.Keeps.set_bind (fun ht => ht.opening rfl rfl (hx ▸ rfl)) ?_
      exact Op.Keeps.bind (ih _) fun _ _ _ => Op.Keeps.pure trivial
    unfold readChunks
    refine Op.Keeps.get_bind fun _ => Op.Keeps.ite (fun _ => Op.Keeps.pure trivial) fun _ => ?_
    refine active_bind_keeps fun x _ => Op.Keeps.ite (fun _ => ?_) fun _ => hhere
    exact Op.Keeps.bind (moveTo_thrifty _ 0) fun _ _ _ => hhere

theorem read_thrifty (n : Nat) : (read n).Keeps (Thrifty mode) (fun _ => True) s := by
  unfold read
  refine Op.Keeps.ite (fun _ => Op.Keeps.pure trivial) fun _ => ?_
  refine Op.Keeps.bind ensureOpen_keeps fun _ s _ => Op.Keeps.get_bind fun _ => ?_
  refine Op.Keeps.unless fun _ => Op.Keeps.ite (fun _ => Op.Keeps.pure trivial) fun _ => ?_
  refine Op.Keeps.bind syncCursor_thrifty fun _ _ _ => ?_
  refine Op.Keeps.bind (readChunks_thrifty n n) fun _ _ _ => ?_
  exact Op.Keeps.modify_bind (fun ht => ht.opening rfl rfl rfl) (Op.Keeps.pure trivial)

/-! ## Writing

Writing replaces the current chunk by one with the same number, with more content and other
sizes. Nothing about room or numbers changes. -/

theorem prepareStream_works (x : Chunk) (raw : Nat) :
    (prepareStream x raw).Keeps (Works mode n) (fun _ => True) s := by
  refine (prepareStream_keeps (ambient_works mode n) (fun _ h => ?_) (fun _ h => ?_)
    (fun _ h => ?_) x raw).mono fun _ _ => trivial
  all_goals exact h.beside rfl rfl rfl rfl h.1.isOpen

theorem streamOut_works (x : Chunk) :
    (streamOut x).Keeps (Works mode n) (fun y => y.seqnum = x.seqnum) s := by
  unfold streamOut
  refine Op.Keeps.bind (rawPosOf_keeps (ambient_works mode n) _) fun raw _ _ => ?_
  refine Op.Keeps.bind (prepareStream_works x raw) fun lead _ _ => ?_
  refine Op.Keeps.modify_bind (fun h => h.beside rfl rfl rfl rfl h.1.isOpen) ?_
  refine Op.Keeps.get_bind fun _ => Op.Keeps.ofExcept_bind fun made hmade => ?_
  obtain ⟨ciphertext, p⟩ := made
  obtain ⟨-, stream, rfl⟩ : _ ∧ ∃ stream, p = _ := Processor.stream_of_encryptStream hmade
  refine Op.Keeps.modify_bind (fun h => h.beside rfl rfl rfl rfl h.1.isOpen) ?_
  -- cutting what stands behind the chunk data is no matter of chunks
  refine Op.Keeps.bind (cutTail_keeps (fun _ h => ?_) (ambient_works mode n) (fun h => ?_)
    (fun h => ⟨h.1.opening rfl rfl rfl, h.2⟩) _) fun _ _ _ => ?_
  · exact h.beside rfl rfl rfl rfl h.1.isOpen
  · exact h.beside rfl rfl rfl rfl h.1.isOpen
  refine Op.Keeps.bind (writeAt_works _ _) fun _ _ _ => ?_
  exact Op.Keeps.modify_bind (fun h => ⟨h.1.opening rfl rfl rfl, h.2⟩) (Op.Keeps.pure rfl)

/-- The current chunk is written into, and keeps its number. -/
theorem writeCurrent_thrifty (data : Bytes) :
    (writeCurrent data).Keeps (Thrifty mode) (fun _ => True) s := by
  unfold writeCurrent
  refine active_bind_keeps fun x hx => ?_
  refine Op.Keeps.modify_bind (fun hs => hs.opening rfl rfl (hx ▸ rfl)) ?_
  refine Op.Keeps.get_bind fun _ => ?_
  refine Op.Keeps.ite (fun _ => Op.Keeps.thrifty fun n => ?_) fun _ => Op.Keeps.pure trivial
  refine active_bind_keeps fun y hy ht => ?_
  refine Op.Keeps.bind (streamOut_works y) (fun z _ hz => ?_) ht
  exact Op.Keeps.modify (Works.placed (hz.symm ▸ ht.seqnum_eq hy)) trivial

theorem roomAtCursor_thrifty (remaining : Nat) :
    (roomAtCursor remaining).Keeps (Thrifty mode) (fun _ => True) s := by
  unfold roomAtCursor
  refine active_bind_keeps fun x _ => Op.Keeps.ite (fun _ => ?_) fun _ => Op.Keeps.pure trivial
  refine Op.Keeps.unless fun _ => Op.Keeps.get_bind fun _ => ?_
  refine Op.Keeps.bind (moveTo_thrifty _ _) fun _ _ _ => active_bind_keeps fun y _ => ?_
  exact Op.Keeps.unless fun _ => Op.Keeps.pure trivial

theorem writeAll_thrifty (data : Bytes) :
    (writeAll data).Keeps (Thrifty mode) (fun _ => True) s := by
  have hturns (turns : Nat) : ∀ (data : Bytes) {s : Session},
      (writeChunks turns data).Keeps (Thrifty mode) (fun _ => True) s := by
    induction turns with
    | zero => exact fun _ _ => Op.Keeps.pure trivial
    | succ turns ih =>
      intro data s
      unfold writeChunks
      refine Op.Keeps.ite (fun _ => ?_) fun _ => Op.Keeps.pure trivial
      refine Op.Keeps.bind (roomAtCursor_thrifty _) fun room _ _ => ?_
      exact Op.Keeps.bind (writeCurrent_thrifty _) fun _ _ _ => ih _
  exact hturns data.length data

/-! ## Growing and shrinking

To grow is to write. To shrink empties the memory first, so that whatever fails later finds no
chunk twice. -/

theorem grow_thrifty (newSize : Nat) : (grow newSize).Keeps (Thrifty mode) (fun _ => True) s := by
  have hturns (block turns : Nat) : ∀ {s : Session},
      (growBlocks newSize block turns).Keeps (Thrifty mode) (fun _ => True) s := by
    induction turns with
    | zero => exact Op.Keeps.pure trivial
    | succ turns ih =>
      intro s
      unfold growBlocks
      refine Op.Keeps.get_bind fun _ => Op.Keeps.ite (fun _ => ?_) fun _ => Op.Keeps.pure trivial
      refine Op.Keeps.bind (writeAll_thrifty _) fun _ _ _ => Op.Keeps.get_bind fun _ => ?_
      exact Op.Keeps.unless fun _ => ih
  unfold grow
  refine Op.Keeps.get_bind fun _ => Op.Keeps.unless fun _ => ?_
  refine Op.Keeps.bind (moveTo_thrifty _ 0) fun _ _ _ => ?_
  refine Op.Keeps.bind (hturns _ _) fun _ _ _ => ?_
  refine Op.Keeps.ite (fun _ => ?_) fun _ => moveTo_thrifty _ 0
  refine Op.Keeps.modify_bind (fun ht => ht.opening rfl rfl rfl) (Op.Keeps.get_bind fun _ => ?_)
  exact moveTo_thrifty _ 0

theorem extentBefore_thrifty (x : Chunk) (later : Nat) (extent : Extent) :
    (extentBefore x later extent).Keeps (Thrifty mode) (fun _ => True) s := by
  induction later generalizing x extent s with
  | zero => exact Op.Keeps.ofExcept fun _ _ => trivial
  | succ later ih =>
    unfold extentBefore
    refine Op.Keeps.ofExcept_bind fun extent _ => ?_
    exact Op.Keeps.bind (loadChunk_keeps_of (ambient_thrifty mode) _ 0 0) fun _ _ _ => ih _ _

theorem truncateRaw_thrifty (size : Nat) (durable : Bool) :
    (Raw.truncate size durable).Keeps (Thrifty mode) (fun _ => True) s := by
  refine Raw.truncate_keeps (fun disk h => ?_) (ambient_thrifty mode) (fun h => ?_) size durable
  all_goals exact h.beside rfl rfl rfl rfl h.isOpen

/-- **Shrinking keeps a container thrifty,** wherever it fails. -/
theorem shrink_thrifty (newSize newPos : Nat) (durable : Bool) :
    (shrink newSize newPos durable).Keeps (Thrifty mode) (fun _ => True) s := by
  have hempty {t : Session} (h : t.Thrifty mode) :
      Thrifty mode { t with pool := t.pool.clear, current := none } := by
    have hcleared : Thrifty mode { t with pool := t.pool.clear } :=
      h.fewer (Nat.lt_of_le_of_lt (Nat.zero_le _) h.room) (List.nil_sublist _)
    exact hcleared.leave.1
  have hsize {t : Session} : writeSize.Keeps (Thrifty mode) (fun _ => True) t :=
    Op.Keeps.thrifty fun _ => writeSize_works
  unfold shrink
  refine Op.Keeps.bind (Op.Keeps.thrifty fun _ => flushAll_works none) fun _ _ _ => ?_
  -- from here on neither pool nor current chunk holds anything
  refine Op.Keeps.modify_bind hempty ?_
  refine Op.Keeps.ite (fun _ => ?_) fun _ => Op.Keeps.get_bind fun _ => ?_
  · unfold shrinkToNothing
    refine Op.Keeps.modify_bind (fun h => h.opening rfl rfl rfl) ?_
    refine Op.Keeps.bind hsize fun _ _ _ => Op.Keeps.get_bind fun _ => ?_
    exact Op.Keeps.bind (truncateRaw_thrifty _ durable) fun _ _ _ => moveTo_thrifty 0 0
  · -- the new end has no chunk, which is an error, or lies in one that is loaded
    split
    · exact Op.Keeps.bind (Raw.size_keeps (ambient_thrifty mode)).discard fun _ _ _ =>
        Op.Keeps.throw
    · unfold shrinkToBoundary
      refine Op.Keeps.bind (Raw.size_keeps (ambient_thrifty mode)) fun _ _ _ => ?_
      refine Op.Keeps.get_bind fun _ => ?_
      refine Op.Keeps.bind (loadChunk_keeps_of (ambient_thrifty mode) _ 0 0) fun _ _ _ => ?_
      refine Op.Keeps.get_bind fun _ => Op.Keeps.bind (extentBefore_thrifty _ _ _) fun _ _ _ => ?_
      refine Op.Keeps.modify_bind (fun h => h.opening rfl rfl rfl) ?_
      refine Op.Keeps.bind hsize fun _ _ _ => ?_
      refine Op.Keeps.bind (truncateRaw_thrifty _ durable) fun _ _ _ => ?_
      refine Op.Keeps.get_bind fun _ => Op.Keeps.bind (moveTo_thrifty _ 0) fun _ _ _ => ?_
      -- what is left of that chunk is written like any data
      refine Op.Keeps.bind (writeAll_thrifty _) fun _ _ _ => Op.Keeps.get_bind fun _ => ?_
      exact Op.Keeps.unless fun _ => moveTo_thrifty newPos 0

end Container

end Vault
