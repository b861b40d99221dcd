import Vault.Proofs.Growing
import Vault.Proofs.StreamFailures

/-!
# `Vault/Proofs/Lagging.lean` — where an appending session stands

A session in an appending mode can only add at its end, and a write anywhere else is refused. The
position asked for follows the end when a call answers. **A write that fails has counted a part of
its data in the size and leaves the position in front of that,** so the next one is refused until
users seek to the end.

That the content can be added to at any moment is `Session.Lags`, with its end and with the
position. Calls are gone through once, and for each it is said how these two move: not at all, to
the end together, or the end alone.
-/

set_option autoImplicit false

namespace Vault

namespace Session

variable {s t : Session} {l : Layout} {b : Bool} {n m pos p : Nat}

/-- An appending session whose content ends at `n` and that was asked for the position `pos`. -/
def Lags (l : Layout) (b : Bool) (n pos : Nat) (s : Session) : Prop :=
  ∃ x?, s.Extends l b x? n pos

theorem Extends.isWrite {x? : Option Chunk} (h : s.Extends l b x? n pos) :
    s.mode.isWrite = true := by
  have happ := h.appending
  cases hmode : s.mode <;> simp [hmode, Mode.isAppend, Mode.isWrite] at happ ⊢

theorem ambient_lags (l : Layout) (b : Bool) (n pos : Nat) : Ambient (Lags l b n pos) where
  faults := fun hcall h => h.imp fun x? h => (ambient_extends l b x? n pos).faults hcall h
  handle := fun handle h => h.imp fun x? h => (ambient_extends l b x? n pos).handle handle h
  noted := fun hevent h => h.imp fun x? h => (ambient_extends l b x? n pos).noted hevent h

/-- The content did not get shorter, and the position is the one of before or the end. -/
def Strays (l : Layout) (b : Bool) (n pos : Nat) (s : Session) : Prop :=
  ∃ m p, n ≤ m ∧ (p = pos ∨ p = m) ∧ s.Lags l b m p

theorem Lags.strays (h : s.Lags l b n pos) : s.Strays l b n pos :=
  ⟨n, pos, Nat.le_refl n, .inl rfl, h⟩

end Session

namespace Container

open Session

variable {s t : Session} {l : Layout} {b : Bool} {x? : Option Chunk} {x : Chunk} {n pos : Nat}

/-! ## Calls that leave the content as it is

Writing what is in memory and settling the file move neither the end nor the position, and no
failure on the way does. -/

theorem flushActive_lags : flushActive.Keeps (Lags l b n pos) (fun _ => True) s := by
  rintro ⟨x?, h⟩
  cases x? with
  | none =>
    unfold flushActive active
    simp only [bind, EStateM.bind, Op.get_run, h.current]
    exact ⟨none, h⟩
  | some x =>
    refine Op.Ends.mono (flushActive_extends h) ?_ ?_
    · rintro _ t ⟨y, -, -, -, ht⟩
      exact ⟨trivial, some y, ht⟩
    · exact fun _ t ht => ⟨some x, ht.2⟩

theorem flushLast_lags : flushLast.Keeps (Lags l b n pos) (fun _ => True) s := by
  unfold flushLast
  refine Op.Keeps.get_bind fun _ => ?_
  cases s.current with
  | none => exact Op.Keeps.pure trivial
  | some x => exact Op.Keeps.ite (fun _ => flushActive_lags) fun _ => Op.Keeps.pure trivial

theorem writeAt_lags (offset : Nat) (data : Bytes) :
    (writeAt offset data).Keeps (Lags l b n pos) (fun _ => True) s :=
  writeAt_keeps (fun _ h => h.imp fun _ h => { h with }) (fun _ h => h.imp fun _ h => { h with })
    (fun h => h.imp fun _ h => { h with }) (ambient_lags l b n pos) offset data

theorem writeSize_lags : writeSize.Keeps (Lags l b n pos) (fun _ => True) s := by
  unfold writeSize
  refine Op.Keeps.get_bind fun _ => Op.Keeps.ite (fun _ => ?_) fun _ => Op.Keeps.pure trivial
  refine Op.Keeps.bind (writeAt_lags _ _) fun _ _ _ => ?_
  refine Op.Keeps.bind (writeAt_lags _ _) fun _ _ _ => ?_
  exact Op.Keeps.modify (fun h => h.imp fun _ h => { h with }) trivial

theorem settle_lags (raw : Option Bool) :
    Op.Keeps (do
      writeSize
      match raw with
      | some deep => Raw.flush deep
      | none => pure ()) (Lags l b n pos) (fun _ => True) s := by
  refine Op.Keeps.bind writeSize_lags fun _ _ _ => ?_
  cases raw with
  | none => exact Op.Keeps.pure trivial
  | some deep => exact Raw.flush_keeps (ambient_lags l b n pos) deep

theorem flushAll_lags (raw : Option Bool) :
    (flushAll raw).Keeps (Lags l b n pos) (fun _ => True) s := by
  unfold flushAll
  refine Op.Keeps.get_bind fun hs => Op.Keeps.ite (fun _ => ?_) fun _ => Op.Keeps.pure trivial
  obtain ⟨_, h⟩ := hs
  rw [h.pool]
  refine Op.Keeps.bind (P := fun _ => True) (Op.Keeps.pure trivial) fun _ t _ => ?_
  refine Op.Keeps.get_bind fun _ => Op.Keeps.ite (fun _ => ?_) fun _ => settle_lags raw
  exact Op.Keeps.bind flushActive_lags fun _ _ _ => settle_lags raw

theorem sync_lags : sync.Keeps (Lags l b n pos) (fun _ => True) s :=
  Op.Keeps.bind ensureOpen_keeps fun _ _ _ => Op.Keeps.bind (flushAll_lags none) fun _ _ _ =>
    Raw.sync_keeps (ambient_lags l b n pos)

theorem fsync_lags : fsync.Keeps (Lags l b n pos) (fun _ => True) s :=
  Op.Keeps.bind ensureOpen_keeps fun _ _ _ => Op.Keeps.bind (flushAll_lags none) fun _ _ _ =>
    Raw.fsync_keeps (ambient_lags l b n pos)

/-! ## Seeking and reading

In an appending mode there is one place to go, and nothing to read. -/

/-- The end can always be asked for. -/
theorem seek_end (h : s.Extends l b x? n pos) : seek n s = .ok () { s with seekCursor := n } := by
  simp [seek, ensureOpen, bind, EStateM.bind, h.isOpen, h.size, h.cursor]

theorem seek_elsewhere (h : s.Extends l b x? n pos) {p : Nat} (hp : p ≠ n) :
    seek p s = .error (.invalidSeek p n) s := by
  simp [seek, ensureOpen, bind, EStateM.bind, h.isOpen, h.appending, h.size, hp]

theorem seek_lags (h : s.Lags l b n pos) (p : Nat) :
    (seek p).Ends s (fun _ t => p = n ∧ t = { s with seekCursor := n } ∧ t.Lags l b n n)
      fun e t => p ≠ n ∧ e = .invalidSeek p n ∧ t = s := by
  obtain ⟨x?, h⟩ := h
  unfold Op.Ends
  by_cases hp : p = n
  · rw [hp, seek_end h]
    exact ⟨rfl, rfl, x?, h.seek⟩
  · rw [seek_elsewhere h hp]
    exact ⟨hp, rfl, rfl⟩

/-- There is nothing to be read. -/
theorem read_lags (k : Nat) : (read k).Keeps (Lags l b n pos) (fun _ => True) s := by
  unfold read
  refine Op.Keeps.ite (fun _ => Op.Keeps.pure trivial) fun _ => ?_
  refine Op.Keeps.bind ensureOpen_keeps fun _ t _ => Op.Keeps.get_bind fun ht => ?_
  obtain ⟨x?, h⟩ := ht
  rw [h.appending]
  exact fun ht => ht

/-! ## Writing

A write that fails has gone through some turns, or none. The position is set behind the data only
after the last one, so it is still where it was. -/

/-- **A write goes to the end of an appending session that was asked for the end.** When it answers,
the position is the end again. When it fails, the position is where it was. -/
theorem write_extends {data : Bytes} (h : s.Extends l b x? n n) (hdata : data ≠ []) :
    (write data).Ends s
      (fun told t => told = data.length ∧
        ∃ y, t.Extends l b (some y) (n + data.length) (n + data.length) ∧
          y.content <:+ s.tail ++ data)
      fun e t => (e.isSeek = true → t.Stuck) ∧ ∃ placed y?, placed <+: data ∧
        t.Extends l b y? (n + placed.length) n ∧ t.tail <:+ s.tail ++ placed := by
  have hwrite := h.isWrite
  unfold write
  rw [if_neg hdata]
  refine Op.Ends.bind (P := fun _ t => t = s) ?_ ?_
  · unfold ensureOpen
    refine Op.Ends.get_bind ?_
    rw [h.isOpen]
    exact rfl
  rintro _ s rfl
  refine Op.Ends.get_bind (Op.Ends.unless (fun hbad => absurd hbad (by simp [hwrite])) fun _ => ?_)
  refine Op.Ends.get_bind ?_
  -- the position is not in front of the content, so no gap has to be filled first
  rw [h.size, h.seekCursor, if_neg (Nat.lt_irrefl n)]
  refine Op.Ends.bind ((syncCursor_extends h).mono (fun _ _ => id) ?_) ?_
  · rintro e t ⟨hseek, y?, ht, htail⟩
    exact ⟨hseek, [], y?, List.nil_prefix, ht, by rwa [List.append_nil]⟩
  rintro - t ⟨x, ht, hx⟩
  have hgoes (placed : Bytes) : x.content ++ placed <:+ s.tail ++ placed := by
    obtain ⟨front, hfront⟩ := hx
    exact ⟨front, by rw [← hfront, List.append_assoc]⟩
  refine Op.Ends.bind ((writeAll_extends data ht).mono (fun _ _ => id) ?_) ?_
  · rintro e u ⟨hseek, placed, y?, hplaced, hu, htail⟩
    exact ⟨hseek, placed, y?, hplaced, hu, htail.trans (hgoes placed)⟩
  rintro - u ⟨y, hu, hy⟩
  refine Op.Ends.modify_bind ⟨rfl, y, ?_, hy.trans (hgoes data)⟩
  exact { hu with seekCursor := hu.cursor, le := Nat.le_refl _ }

/-- **Where another position was asked for, no byte can be written.** -/
theorem write_elsewhere {data : Bytes} (h : s.Extends l b x? n pos) (hpos : pos ≠ n)
    (hdata : data ≠ []) : write data s = .error (.invalidSeek pos n) s := by
  have hwrite := h.isWrite
  have hsync := syncCursor_elsewhere h hpos
  simp [write, hdata, ensureOpen, bind, EStateM.bind, h.isOpen, hwrite, h.size, h.seekCursor,
    Nat.not_lt_of_le h.le, hsync]

/-- Wherever the session stands, a write comes to this. -/
theorem write_lags (h : s.Lags l b n pos) (data : Bytes) :
    (write data).Ends s
      (fun _ t => t.Strays l b n pos ∧ (pos = n → ∃ m, t.Lags l b m m))
      fun _ t => t.Strays l b n pos := by
  by_cases hdata : data = []
  · rw [hdata]
    exact ⟨h.strays, fun hpos => ⟨n, hpos ▸ h⟩⟩
  obtain ⟨x?, h⟩ := h
  by_cases hpos : pos = n
  · subst hpos
    refine (write_extends h hdata).mono ?_ ?_
    · rintro told t ⟨-, y, ht, -⟩
      have hend : t.Lags l b (pos + data.length) (pos + data.length) := ⟨some y, ht⟩
      exact ⟨⟨_, _, Nat.le_add_right _ _, .inr rfl, hend⟩, fun _ => ⟨_, hend⟩⟩
    · rintro e t ⟨-, placed, y?, -, ht, -⟩
      exact ⟨_, _, Nat.le_add_right _ _, .inl rfl, y?, ht⟩
  · unfold Op.Ends
    rw [write_elsewhere h hpos hdata]
    exact Lags.strays ⟨x?, h⟩

/-! ## Growing

Growing goes to the end first and sets the position there afterwards. So a growing call that
fails can leave the position at the new end, which a write never does. -/

/-- Zeros are added until the content has the size wanted. -/
theorem growBlocks_extends {newSize block : Nat} (hblock : 0 < block) (turns : Nat)
    (h : s.Extends l b (some x) n pos) (hle : n ≤ newSize) (hturns : newSize ≤ n + turns) :
    (growBlocks newSize block turns).Ends s
      (fun _ t => ∃ y, t.Extends l b (some y) newSize pos)
      fun _ t => ∃ m, n ≤ m ∧ t.Lags l b m pos := by
  -- on the turns; each of them adds a block of zeros, and the last one what is missing
  induction turns generalizing s x n with
  | zero =>
    obtain rfl : newSize = n := by omega
    exact ⟨x, h⟩
  | succ turns ih =>
    unfold growBlocks
    refine Op.Ends.get_bind ?_
    rw [h.size]
    refine Op.Ends.ite (fun hlt => ?_) fun hdone => ?_
    · refine Op.Ends.bind ((writeAll_extends _ h).mono (fun _ _ => id) ?_) ?_
      · rintro e t ⟨-, placed, y?, -, ht, -⟩
        exact ⟨_, Nat.le_add_right _ _, y?, ht⟩
      rintro - t ⟨y, ht, -⟩
      rw [Bytes.length_zeros] at ht
      refine Op.Ends.get_bind ?_
      rw [ht.size]
      refine Op.Ends.unless (fun _ => ⟨_, Nat.le_add_right _ _, some y, ht⟩) fun _ => ?_
      have hmore : 0 < min (newSize - n) block := Nat.lt_min.mpr ⟨by omega, hblock⟩
      refine (ih ht (by omega) (by omega)).mono (fun _ _ => id) ?_
      rintro e u ⟨m, hm, hu⟩
      exact ⟨m, Nat.le_trans (Nat.le_add_right _ _) hm, hu⟩
    · obtain rfl : newSize = n := by omega
      exact ⟨x, h⟩

/-- A container that is added to and gets longer stands at its end afterwards. -/
theorem grow_lags {newSize : Nat} (h : s.Lags l b n pos) (hlt : n < newSize) :
    (grow newSize).Ends s (fun _ t => t.Lags l b newSize newSize)
      fun _ t => t.Strays l b n pos := by
  obtain ⟨x?, h⟩ := h
  have hsome : 0 < zerosAtOnce s newSize := zerosAtOnce_pos (h.size.symm ▸ hlt)
  unfold grow
  refine Op.Ends.get_bind (Op.Ends.unless (fun _ => Lags.strays ⟨x?, h⟩) fun _ => ?_)
  rw [h.size]
  refine Op.Ends.bind ((moveTo_extends h 0).mono (fun _ _ => id) ?_) ?_
  · rintro e t ⟨-, y?, ht, -⟩
    exact Lags.strays ⟨y?, ht⟩
  rintro - t ⟨y, ht, -⟩
  refine Op.Ends.bind ((growBlocks_extends hsome _ ht (by omega) (by omega)).mono
    (fun _ _ => id) ?_) ?_
  · rintro e u ⟨m, hm, hu⟩
    exact ⟨m, pos, hm, .inl rfl, hu⟩
  rintro - u ⟨z, hu⟩
  rw [h.appending, if_pos rfl]
  obtain rfl := hu.size
  refine Op.Ends.modify_bind (Op.Ends.get_bind ?_)
  refine (moveTo_extends hu.seek 0).mono ?_ ?_
  · rintro - v ⟨w, hv, -⟩
    exact ⟨some w, hv⟩
  · -- the content has its new size and the position is there, but the place was not reached
    rintro e v ⟨-, w?, hv, -⟩
    exact ⟨_, _, Nat.le_of_lt hlt, .inr rfl, w?, hv⟩

/-- An appending session does not get shorter. -/
theorem truncate_lags (newSize : Nat) (backup : Bool) (h : s.Lags l b n pos) :
    (truncate newSize backup).Ends s
      (fun _ t => n ≤ newSize ∧ t.Lags l b newSize (if n < newSize then newSize else pos))
      fun _ t => t.Strays l b n pos := by
  obtain ⟨x?, h⟩ := h
  have hwrite := h.isWrite
  unfold truncate resize
  refine Op.Ends.get_bind ?_
  rw [h.isOpen, if_pos rfl]
  refine Op.Ends.unless (fun hbad => absurd hbad (by simp [hwrite])) fun _ => Op.Ends.get_bind ?_
  rw [h.size, h.appending]
  refine Op.Ends.ite (fun hsame => ?_) fun hother => ?_
  · rw [hsame, if_neg (Nat.lt_irrefl n)]
    exact ⟨Nat.le_refl n, x?, h⟩
  refine Op.Ends.ite (fun hlt => ?_) fun _ => Lags.strays ⟨x?, h⟩
  rw [if_pos hlt]
  exact (grow_lags ⟨x?, h⟩ hlt).mono (fun _ _ ht => ⟨Nat.le_of_lt hlt, ht⟩) fun _ _ => id

/-! ## Chunks in memory

An appending session keeps no chunk but the current one, so there is nothing to be evicted and
nothing to be forgotten. -/

theorem usedSize_lags : usedSize.Keeps (Lags l b n pos) (fun _ => True) s := by
  unfold usedSize
  refine Op.Keeps.get_bind fun hs => ?_
  obtain ⟨x?, h⟩ := hs
  rw [h.isOpen, if_pos rfl]
  exact Op.Keeps.bind flushLast_lags fun _ _ _ => Op.Keeps.get_bind fun _ => Op.Keeps.pure trivial

theorem contentSize_lags : contentSize.Keeps (Lags l b n pos) (fun _ => True) s := by
  unfold contentSize
  refine Op.Keeps.get_bind fun hs => ?_
  obtain ⟨x?, h⟩ := hs
  rw [h.isOpen, if_pos rfl]
  exact Op.Keeps.get_bind fun _ => Op.Keeps.pure trivial

/-- The current chunk stays where it is. -/
theorem invalidate_lags : invalidate.Keeps (Lags l b n pos) (fun _ => True) s := by
  unfold invalidate
  refine Op.Keeps.bind ensureOpen_keeps fun _ t _ => Op.Keeps.get_bind fun ht => ?_
  obtain ⟨x?, h⟩ := ht
  rw [h.isWrite, h.appending]
  refine Op.Keeps.bind (flushAll_lags none) fun _ _ _ => ?_
  exact Op.Keeps.modify (fun h => h.imp fun _ h => { h with pool := rfl }) trivial

theorem setMaxCached_lags (count : Nat) :
    (setMaxCached count).Keeps (Lags l b n pos) (fun _ => True) s := by
  unfold setMaxCached
  refine Op.Keeps.get_bind fun hs => ?_
  obtain ⟨x?, h⟩ := hs
  simp only [Pool.setCapacity, h.pool, List.take_nil, List.drop_nil]
  refine Op.Keeps.set_bind (fun h => h.imp fun _ h => { h with pool := rfl }) ?_
  exact Op.Keeps.pure trivial

/-- Chunks are not kept, whatever users say. -/
theorem setCacheEnabled_lags (enabled : Bool) :
    (setCacheEnabled enabled).Keeps (Lags l b n pos) (fun _ => True) s := by
  unfold setCacheEnabled
  refine Op.Keeps.modify_bind (fun h => h.imp fun _ h => { h with }) ?_
  refine Op.Keeps.get_bind fun hs => ?_
  obtain ⟨x?, h⟩ := hs
  have hnever : s.mode.allowsCache = false := by
    have happ : s.mode.isAppend = true := h.appending
    cases hmode : s.mode <;> simp [hmode, Mode.isAppend, Mode.allowsCache] at happ ⊢
  have hpool : s.pool.entries = [] := h.pool
  refine Op.Keeps.ite (fun _ => ?_) fun _ => Op.Keeps.pure trivial
  simp only [Container.cachePolicy, hnever, Bool.and_false, Bool.false_and, Bool.false_eq_true,
    if_false, Pool.drain, hpool]
  refine Op.Keeps.set_bind (fun h => h.imp fun _ h => { h with useCache := rfl, pool := rfl }) ?_
  exact Op.Keeps.pure trivial

end Container

/-! ## Any call -/

namespace Call

open Session Container

variable {s : Session} {l : Layout} {b : Bool} {x? : Option Chunk} {n pos : Nat}

/-- **Every call leaves the position where it was or brings it to the end.** From the end, a call
that answers brings it to the end. -/
theorem run_strays (h : s.Lags l b n pos) (call : Call) :
    call.run.Ends s
      (fun _ t => t.Strays l b n pos ∧ (pos = n → ∃ m, t.Lags l b m m))
      fun _ t => t.Strays l b n pos := by
  have hcalm {α : Type} {x : Op α} {f : α → Answer}
      (hx : x.Keeps (Lags l b n pos) (fun _ => True) s) :
      Op.Ends (do return f (← x)) s
        (fun _ t => t.Strays l b n pos ∧ (pos = n → ∃ m, t.Lags l b m m))
        fun _ t => t.Strays l b n pos := by
    refine Op.Ends.bind ((hx.ends h).mono (fun _ _ => id) fun _ _ ht => ht.strays) fun a t ht => ?_
    exact ⟨ht.strays, fun hpos => ⟨n, hpos ▸ ht⟩⟩
  cases call with
  | seek p =>
    refine Op.Ends.bind ((seek_lags h p).mono (fun _ _ => id) ?_) ?_
    · rintro e t ⟨-, -, rfl⟩
      exact h.strays
    · rintro - t ⟨-, -, ht⟩
      exact ⟨⟨n, n, Nat.le_refl n, .inr rfl, ht⟩, fun _ => ⟨n, ht⟩⟩
  | read k => exact hcalm (read_lags k)
  | write data =>
    refine Op.Ends.bind ((write_lags h data).mono (fun _ _ => id) ?_) fun told t ht => ?_
    · exact fun e t ht => ht
    · exact ht
  | truncate newSize backup =>
    refine Op.Ends.bind ((truncate_lags newSize backup h).mono (fun _ _ => id) fun _ _ => id) ?_
    rintro - t ⟨hle, ht⟩
    refine ⟨⟨_, _, hle, ?_, ht⟩, fun hpos => ⟨newSize, ?_⟩⟩
    · split
      · exact .inr rfl
      · exact .inl rfl
    · split at ht
      · exact ht
      · obtain rfl : newSize = n := by omega
        exact hpos ▸ ht
  | contentSize => exact hcalm contentSize_lags
  | position => exact ⟨h.strays, fun hpos => ⟨n, hpos ▸ h⟩⟩
  | flush deep => exact hcalm (flushAll_lags (some deep))
  | sync => exact hcalm sync_lags
  | fsync => exact hcalm fsync_lags
  | usedSize => exact hcalm usedSize_lags.discard
  | invalidate => exact hcalm invalidate_lags
  | setMaxCached count => exact hcalm (setMaxCached_lags count)
  | setCacheEnabled enabled => exact hcalm (setCacheEnabled_lags enabled)
  | setBlock size =>
    have hset : Lags l b n pos { s with toContainer := s.toContainer.setBlock size } :=
      h.imp fun _ h => { h with }
    exact ⟨hset.strays, fun hpos => ⟨n, hpos ▸ hset⟩⟩

end Call

/-! ## Sessions

Sessions begin by opening, with sealed or with streamed chunks, and in both cases the session
stands at its end then. From there on every call is one of the steps above. -/

namespace Session

variable {s : Session} {g : Site} {c : Bytes}

/-- A container in sealed chunks that was opened for appending stands at its end. -/
theorem Flushed.lags (h : s.Flushed g c) (happ : g.mode.isAppend = true)
    (huse : g.useCache = true → g.mode.allowsCache = true) (hseek : g.seekCursor = c.length)
    (hseated : s.Seated) : s.Lags g.metadata.layout false c.length c.length := by
  have hcache : g.useCache = false := by
    cases hcache : g.useCache with
    | false => rfl
    | true =>
      have hmode := huse hcache
      cases hg : g.mode <;> simp [hg, Mode.isAppend, Mode.allowsCache] at happ hmode
  obtain ⟨x, hx, hi⟩ := hseated
  rw [h.layout, h.seekCursor, hseek] at hi
  have hmem : x ∈ s.current.toList ++ s.pool.entries := by simp [hx]
  have hmirrors := h.recalls.mirrors x hmem
  have hclean := h.clean x hmem
  have hends : g.metadata.layout.EndsIn s.eofSeqnum c.length :=
    ⟨h.stores.reaches, h.stores.numbered, h.stores.start, h.stores.within⟩
  -- the end of the content has a chunk number, and no chunk behind the last one is in memory
  have hlast : x.seqnum = s.eofSeqnum := by
    rcases hends.next hi with heq | ⟨heq, -⟩
    · exact heq
    · exact absurd hmirrors.le (by omega)
  have hpoints := h.points x hx
  have hcursor := hpoints.appending happ
  have hplace := hpoints.eq
  have hlen : x.content.length = c.length - g.metadata.layout.startOf x.seqnum := by
    rw [hmirrors.content, hlast, Layout.length_part_of_within h.stores.within]
  have hstart := h.stores.start
  rw [← hlast] at hstart
  have hct := hmirrors.ciphertextSize
  have hstored := h.stores.storedSize_eq (Nat.le_refl s.eofSeqnum)
  rw [← hlast] at hct hstored
  rw [← hct, ← hmirrors.content] at hstored
  rw [hlast, Metadata.storedSize_last] at hct
  refine ⟨some x, {
    isOpen := h.isOpen, kind := h.blockwise, useCache := h.useCache.trans hcache
    appending := (congrArg Mode.isAppend h.mode).trans happ
    pool := h.unpooled hcache, layout := h.layout, plan := ?plan
    seekCursor := h.seekCursor.trans hseek, le := Nat.le_refl _, size := h.size
    cursor := hcursor, current := hx, ends := hends, absent := by simp, tops := ?tops }⟩
  case plan =>
    rw [h.processor]
    exact (Metadata.layout_eq g.firstMax g.chunkMax g.kind).symm
  case tops =>
    rintro _ ⟨⟩
    have hraw := h.stores.rawStart_last_le
    refine ⟨hlast, by omega, hmirrors.maxSize, by omega, ?_, fun _ => ?_, by simp⟩
    · rw [h.eofPos_eq, hct, hlast]
      omega
    · refine ⟨?_, fun _ hne => hstored.resolve_left fun hnone => hne hnone.2⟩
      rcases hstored with ⟨hzero, -⟩ | heq
      · exact hzero ▸ Nat.zero_le _
      · exact Nat.le_of_eq heq

/-- A container in streamed chunks that was opened for appending stands at its end. -/
theorem Poised.lags {g : Channel} {ink : Ink} (h : s.Poised g ink c) :
    s.Lags g.layout true c.length c.length := by
  obtain ⟨x, hx⟩ := h.current
  have hs := h.streams
  have hheads := hs.current x hx
  have hstored := hheads.stored
  have hlen : x.content.length = c.length - g.layout.startOf x.seqnum := by
    rw [hheads.content, Layout.length_part_of_within (hheads.seqnum ▸ hs.ends.within)]
  refine ⟨some x, {
    isOpen := hs.isOpen, kind := hs.streaming, useCache := hs.useCache
    appending := (congrArg Mode.isAppend hs.mode).trans hs.appending
    pool := hs.pool, layout := hs.layout, plan := ?plan
    seekCursor := h.seekCursor, le := Nat.le_refl _, size := hs.size
    cursor := hheads.cursor, current := hx, ends := hs.ends, absent := by simp, tops := ?tops }⟩
  case plan =>
    rw [hs.processor]
    exact (Metadata.layout_eq g.firstMax g.chunkMax (g.kind.trans g.streaming.symm)).symm
  case tops =>
    rintro _ ⟨⟩
    refine ⟨hheads.seqnum, hheads.offset, hheads.maxSize, by omega, (hs.rawStartOf_add hx).symm,
      by simp, fun _ => ⟨by omega, ?_⟩⟩
    have hct := hheads.ciphertextSize
    split at hct
    · next hnew => exact .inl ⟨hct, hnew⟩
    · exact .inr hct

/-- Sessions in an appending mode, with sealed or with streamed chunks. They began with a new file
or with one that is there, and any calls may have failed for any reason. -/
inductive Lengthens : Session → Prop
  | opened {s s' : Session} {mode : Mode} {firstMax chunkMax : UInt32} {c : Bytes}
      (ready : s.Ready mode firstMax chunkMax c) (adds : mode.isAppend = true)
      (tame : Fault.Tame s.faults) (run : Container.openIn mode s = .ok () s') : Lengthens s'
  | createdStream {s s' : Session} (fresh : s.Fresh) (tame : Fault.Tame s.faults)
      (run : Container.openIn .append s = .ok () s') : Lengthens s'
  | openedStream {s s' : Session} {m : Metadata} {file : Nat} {ink : Ink} {c : Bytes} {mode : Mode}
      (shelved : s.Shelved m file ink c) (adds : mode.isAppend = true)
      (small : c.length < 2 ^ 62) (tame : Fault.Tame s.faults)
      (run : Container.openIn mode s = .ok () s') : Lengthens s'
  | called {s : Session} (before : Lengthens s) (call : Call) : Lengthens (call.run.after s)
  | armed {s : Session} (before : Lengthens s) (faults : List Fault) :
      Lengthens { s with faults }

/-- **Such a session can go on from its end at every moment.** -/
theorem Lengthens.lags (h : s.Lengthens) : ∃ l b, s.Lags l b s.size s.pos := by
  have hown {s : Session} {l : Layout} {b : Bool} {n pos : Nat} (h : s.Lags l b n pos) :
      ∃ l b, s.Lags l b s.size s.pos := by
    obtain ⟨x?, h⟩ := h
    have hpos : s.pos = pos := h.seekCursor
    rw [hpos, h.size]
    exact ⟨l, b, x?, h⟩
  induction h with
  | opened ready adds tame run =>
    obtain ⟨-, g, hopens, hflushed, -, -, -, hseated⟩ :=
      (Container.open_does ready).of_ok tame run
    refine hown (hflushed.lags (hopens.mode.symm ▸ adds) hopens.useCache ?_ hseated)
    rw [hopens.seekCursor, if_pos adds]
  | createdStream fresh tame run =>
    have hdoes : (Container.openIn .append).Does True _ _ _ := Container.openFresh_does fresh
    obtain ⟨-, g, ink, -, hpoised⟩ := hdoes.of_ok tame run
    exact hown hpoised.lags
  | openedStream shelved adds small tame run =>
    obtain ⟨-, hpoised⟩ := (Container.openStream_does shelved adds small).of_ok tame run
    exact hown hpoised.lags
  | called before call ih =>
    obtain ⟨l, b, h⟩ := ih
    obtain ⟨m, p, -, -, ht⟩ := ((call.run_strays h).mono (fun _ _ ht => ht.1) fun _ _ => id).after
    exact hown ht
  | armed before faults ih =>
    obtain ⟨l, b, x?, h⟩ := ih
    exact ⟨l, b, x?, { h with }⟩

end Session

open Session

/-- **An appending session falls behind its own end when a call fails that made the content
longer.** Whatever is called and whatever fails, the content does not get shorter, and the position
stays where it was or comes to the end; a call that answers brings it from the end to the end.
Seeking to the end always answers, and a write anywhere else is refused. A write at the end that
answers has put its data there. One that fails has counted a leading part of its data in the size
and left the position in front of that; its position is the reason only where a streamed chunk in
front of the end could not be stored as a whole. -/
theorem append_falls_behind {s : Session} (h : s.Lengthens) :
    s.isOpen = true ∧ s.pos ≤ s.size ∧
    (∀ call : Call, call.run.Ends s
      (fun _ s' => s.size ≤ s'.size ∧ (s'.pos = s.pos ∨ s'.pos = s'.size) ∧
        (s.pos = s.size → s'.pos = s'.size))
      fun _ s' => s.size ≤ s'.size ∧ (s'.pos = s.pos ∨ s'.pos = s'.size)) ∧
    Container.seek s.size s = .ok () { s with seekCursor := s.size } ∧
    ∀ data : Bytes, data ≠ [] →
      (s.pos ≠ s.size → Container.write data s = .error (.invalidSeek s.pos s.size) s) ∧
      (s.pos = s.size → (Container.write data).Ends s
        (fun told s' => told = data.length ∧ s'.size = s.size + data.length ∧ s'.pos = s'.size ∧
          s'.tail <:+ s.tail ++ data)
        fun e s' => s'.pos = s.size ∧ (e.isSeek = true → s'.Stuck) ∧
          ∃ placed, placed <+: data ∧ s'.size = s.size + placed.length ∧
            s'.tail <:+ s.tail ++ placed) := by
  obtain ⟨l, b, hlags⟩ := h.lags
  have hstrays {t : Session} (ht : t.Strays l b s.size s.pos) :
      s.size ≤ t.size ∧ (t.pos = s.pos ∨ t.pos = t.size) := by
    obtain ⟨m, p, hm, hp, x?, ht⟩ := ht
    have hpos : t.pos = p := ht.seekCursor
    rw [hpos, ht.size]
    exact ⟨hm, hp⟩
  refine ⟨?isOpen, ?le, fun call => ?call, ?seek,
    fun data hdata => ⟨fun hpos => ?away, fun hpos => ?there⟩⟩
  case call =>
    refine (call.run_strays hlags).mono ?_ fun _ _ => hstrays
    rintro _ t ⟨ht, hend⟩
    refine ⟨(hstrays ht).1, (hstrays ht).2, fun hpos => ?_⟩
    obtain ⟨m, x?, hm⟩ := hend hpos
    exact hm.seekCursor.trans hm.size.symm
  all_goals obtain ⟨x?, hextends⟩ := hlags
  case isOpen => exact hextends.isOpen
  case le => exact hextends.le
  case seek => exact Container.seek_end hextends
  case away => exact Container.write_elsewhere hextends hpos hdata
  case there =>
    rw [hpos] at hextends
    refine (Container.write_extends hextends hdata).mono ?_ ?_
    · rintro told t ⟨htold, y, ht, htail⟩
      exact ⟨htold, ht.size, ht.seekCursor.trans ht.size.symm, ht.tail_eq ▸ htail⟩
    · rintro e t ⟨hseek, placed, y?, hplaced, ht, htail⟩
      exact ⟨ht.seekCursor, hseek, placed, hplaced, ht.size, htail⟩

/-- A container in streamed chunks of two bytes that was just made. -/
def Session.starting : Session :=
  (Container.openIn .append).after (pristine "vault"
    (Processor.ofConfig ⟨[7]⟩ { chunkMax := 2, streaming := true }) {} (Random.seeded 0))

/-- A container that could not store its first chunk, and was asked for the end of that. -/
def Session.wedged : Session :=
  (Call.seek 2).run.after
    { (Call.write [1, 2]).run.after { starting with faults := [⟨.write, 0, .fail⟩] } with
      faults := [] }

instance (s : Session) : Decidable s.Stuck := inferInstanceAs (Decidable (_ ∧ _ ∧ _))

theorem Session.lengthens_starting : starting.Lengthens := by
  have hfresh : Fresh (pristine "vault"
      (Processor.ofConfig ⟨[7]⟩ { chunkMax := 2, streaming := true }) {} (Random.seeded 0)) :=
    fresh_pristine (by decide) rfl rfl
  obtain ⟨_, s, hopen, -⟩ := (Container.openFresh_does hfresh).answers rfl not_false
  have hopened := Lengthens.createdStream hfresh (Fault.tame_of_nil rfl) hopen
  rwa [← Op.after_of_ok hopen] at hopened

/-- A write that failed left the position behind, so that the next one is refused. Where the chunk
in front could not be stored, even a write at the end is. -/
theorem append_falls_behind_stalled :
    stalled.pos = 2 ∧ stalled.size = 3 ∧
      Container.write [4] stalled = .error (.invalidSeek 2 3) stalled ∧
      Container.seek 3 stalled = .ok () { stalled with seekCursor := 3 } ∧
      wedged.Lengthens ∧ wedged.pos = wedged.size ∧
      ∃ t, Container.write [3] wedged = .error (.invalidSeek 64 54) t ∧ t.Stuck := by
  have hstarting := lengthens_starting
  have hwedged : wedged.Lengthens :=
    (((hstarting.armed [⟨.write, 0, .fail⟩]).called (.write [1, 2])).armed []).called (.seek 2)
  unfold starting at hstarting
  have hstalled : stalled.Lengthens :=
    ((hstarting.called (.write [1, 2])).armed [⟨.write, 0, .fail⟩]).called (.write [3])
  obtain ⟨hpos, hsize⟩ : stalled.pos = 2 ∧ stalled.size = 3 := by decide +kernel
  obtain ⟨-, -, -, hseek, hwrite⟩ := append_falls_behind hstalled
  have hrefused := (hwrite [4] (by simp)).1 (by rw [hpos, hsize]; simp)
  rw [hpos, hsize] at hrefused
  have hsought {n : Nat} (hn : stalled.size = n) :
      Container.seek n stalled = .ok () { stalled with seekCursor := n } := hn ▸ hseek
  have hstuck : (Container.write [3]).error? wedged = some (.invalidSeek 64 54) := by
    decide +kernel
  exact ⟨hpos, hsize, hrefused, hsought hsize, hwedged, by decide +kernel, _,
    Op.error_of_error? hstuck, by decide +kernel⟩

end Vault
