import Vault.Proofs.Browsing

/-!
# `Vault/Proofs/BrowsingCalls.lean` — what is asked of a container that browses

Seeking, reading, asking for sizes and changing what is kept in memory, on a raw file that may hold
anything. **A read that answers gives a piece of the one content that the source has to offer,** and
as much of it as there is; a read that fails leaves the position where it was. The loop of reading
is never out of turns, since every turn but the last reads a byte.
-/

set_option autoImplicit false

namespace Vault

/-- The positions that a read of up to `n` bytes comes to. -/
def Source.Wanted (v : Source) (pos n p : Nat) : Prop := pos ≤ p ∧ p < pos + n ∧ p < v.size

namespace Session

/-- Bytes of the source were read from the cursor on, in chunks that all open. -/
structure Gathers (s s' : Session) (v : Source) (d : Bytes) (n : Nat) (data : Bytes) : Prop extends
    s.Lingers s' v where
  gives : data = Bytes.slice (d.take v.size) s.cursor n
  cursor : s'.cursor = s.cursor + data.length
  opened : ∀ p, s.cursor ≤ p → p < s'.cursor →
    ∃ i content, v.layout.seqnumOf? p = some i ∧ v.chunk i = .ok content

/-- A piece of the content was read from the position on, and the position is behind it. -/
structure Delivers (s s' : Session) (v : Source) (d : Bytes) (n : Nat) (data : Bytes) : Prop where
  browses : s'.Browses v
  gives : data = Bytes.slice (d.take v.size) s.seekCursor n
  seekCursor : s'.seekCursor = s.seekCursor + data.length
  opened : ∀ p, s.seekCursor ≤ p → p < s'.seekCursor →
    ∃ i content, v.layout.seqnumOf? p = some i ∧ v.chunk i = .ok content

variable {s s' : Session} {v : Source} {d : Bytes} {n : Nat} {x : Chunk}

/-- Where there is nothing to be read, nothing is read. -/
theorem Browses.gathers_nil (h : s.Browses v)
    (hnone : n = 0 ∨ v.size ≤ s.cursor ∨ d.length ≤ s.cursor) : s.Gathers s v d n [] :=
  { h.lingers with
    gives := by
      symm
      rw [← List.length_eq_zero_iff, Bytes.length_slice, List.length_take]
      omega
    cursor := rfl
    opened := fun p hle hlt => absurd hle (Nat.not_le.mpr hlt) }

theorem Gathers.after {s₀ : Session} {data : Bytes} (h : s.Gathers s' v d n data)
    (hlingers : s₀.Lingers s v) (hcursor : s.cursor = s₀.cursor) : s₀.Gathers s' v d n data where
  toLingers := hlingers.trans h.toLingers
  gives := hcursor ▸ h.gives
  cursor := hcursor ▸ h.cursor
  opened := hcursor ▸ h.opened

/-- What was read so far, and what comes behind it. -/
theorem Gathers.append {s₁ : Session} {m : Nat} {data data' : Bytes} (h : s.Gathers s₁ v d m data)
    (hdata : data.length = m) (hm : m ≤ n) (h' : s₁.Gathers s' v d (n - m) data') :
    s.Gathers s' v d n (data ++ data') where
  toLingers := h.toLingers.trans h'.toLingers
  gives := by
    rw [h'.gives, h.cursor, hdata, h.gives, Bytes.slice_append_slice, Nat.add_sub_cancel' hm]
  cursor := by rw [h'.cursor, h.cursor, List.length_append, Nat.add_assoc]
  opened := fun p hle hlt => by
    by_cases hp : p < s₁.cursor
    · exact h.opened p hle hp
    · exact h'.opened p (Nat.le_of_not_lt hp) hlt

/-- Bytes are read in the current chunk. -/
theorem Browses.gathers (h : s.Browses v) (hv : v.Sound) (hd : v.Serves d) (hx : s.current = some x)
    (hn : n ≤ x.remaining) (hsize : s.cursor + n ≤ v.size) :
    s.Gathers { s with
      current := some { x with offset := x.offset + n }, cursor := s.cursor + n } v d n
      (x.content.slice x.offset n) := by
  have hrecalls := h.recalls_current hx
  have hstands := (h.stands x hx).eq
  have hwithin := hv.within_chunk hrecalls.le hrecalls.opens
  have hlast := Layout.seqnumOf?_eq_some_iff.mp hv.last
  -- a chunk that is behind its own end has nothing left, and then nothing is read in it
  have hin : n = 0 ∨ x.offset + n ≤ x.content.length := by
    unfold Chunk.remaining at hn
    omega
  have hlen : (x.content.slice x.offset n).length = n := by
    rw [Bytes.length_slice]
    omega
  unfold Layout.Within at hwithin
  refine
    { browses := h.takeUp ⟨hrecalls.le, hrecalls.clean, hrecalls.opens⟩ hsize ⟨?eq, ?within⟩
      seekCursor := rfl
      gives := ?gives
      cursor := by rw [hlen]
      opened := ?opened }
  case eq =>
    simp only
    omega
  case within =>
    rcases hin with rfl | hin
    · exact (h.stands x hx).within
    · exact hwithin.imp id fun hle => by
        simp only
        omega
  case gives =>
    rw [Bytes.slice_take hsize, hstands]
    rcases hin with rfl | hin
    · simp [Bytes.slice]
    · exact hd.slice_chunk hv hrecalls.le hrecalls.opens hin
  case opened =>
    intro p hle hlt
    simp only at hlt
    refine ⟨x.seqnum, x.content, Layout.seqnumOf?_eq_some_iff.mpr ?_, hrecalls.opens⟩
    refine ⟨hv.reaches.mono hrecalls.le, by omega, ?_,
      Nat.lt_of_le_of_lt hrecalls.le hlast.2.2.2⟩
    exact hwithin.imp id fun hle' => by omega

/-- A chunk that has nothing left for its own position is the last one, and the content ends there.
-/
theorem Browses.length_le_cursor (h : s.Browses v) (hv : v.Sound) (hd : v.Serves d)
    (hx : s.current = some x) (hnumber : v.layout.seqnumOf? s.cursor = some x.seqnum)
    (hnone : x.remaining = 0) : d.length ≤ s.cursor := by
  have hrecalls := h.recalls_current hx
  have hstands := (h.stands x hx).eq
  obtain ⟨-, -, hin, -⟩ := Layout.seqnumOf?_eq_some_iff.mp hnumber
  unfold Chunk.remaining at hnone
  -- in front of the last chunk the position would be one of the next chunk
  rcases Nat.lt_or_eq_of_le hrecalls.le with hlt | hlast
  · obtain ⟨hcap, hfull⟩ := hv.length_chunk_of_lt hlt hrecalls.opens
    omega
  · rw [hd.length_last (hlast ▸ hrecalls.opens), ← hlast]
    omega

end Session

namespace Container

open Session CheckedOp

variable {s : Session} {v : Source} {d : Bytes} {x : Chunk}

theorem ensureOpen_browses {err : Error → Session → Prop} (h : s.Browses v) :
    ensureOpen.Ends s (fun _ s' => s' = s) err := by
  simp [Op.Ends, ensureOpen, bind, EStateM.bind, h.isOpen]

theorem active_browses {err : Error → Session → Prop} (hx : s.current = some x) :
    active.Ends s (fun y s' => y = x ∧ s' = s) err := by
  simp [Op.Ends, active, bind, EStateM.bind, hx]

/-! ## Reading

A turn reads what is left in the current chunk, what is left of the content, or what is still
wanted, whichever is least. The run in which every step is checked is followed along, and none of
its checks fails. -/

/-- One turn of the loop, once a chunk with bytes left is current. -/
theorem readTurn_browses {turns want : Nat} {t : Session} (ht : t.Browses v) (hv : v.Sound)
    (hd : v.Serves d) (hx : t.current = some x) (hwant : want ≠ 0) (hleft : x.remaining ≠ 0)
    (hcursor : t.cursor < v.size)
    (hrest : ∀ len u, 0 < len → t.Gathers u v d len (x.content.slice x.offset len) →
      u.current = some { x with offset := x.offset + len } →
      (readChunksChecked turns (want - len)).Does (readChunks turns (want - len)) u
        (fun data s' => u.Gathers s' v d (want - len) data)
        (fun e s' => u.Misses s' v (v.Wanted u.cursor (want - len)) e)) :
    CheckedOp.Does
      (do
        let s ← get
        let left ← ofOption (Checked.sub s.size s.cursor)
        let len := min (min want left) x.remaining
        let data ← ofOption (Checked.slice x.content x.offset len)
        let offset ← ofOption (Checked.add x.offset len)
        let cursor ← ofOption (Checked.add s.cursor len)
        let want ← ofOption (Checked.sub want len)
        set { s with current := some { x with offset }, cursor }
        return data ++ (← readChunksChecked turns want))
      (do
        let s ← get
        let (data, chunk) := x.read (min want (s.size - s.cursor))
        set { s with current := some chunk, cursor := s.cursor + data.length }
        return data ++ (← readChunks turns (want - data.length))) t
      (fun data s' => t.Gathers s' v d want data)
      (fun e s' => t.Misses s' v (v.Wanted t.cursor want) e) := by
  have hsize := ht.size
  have hlimit := hv.size_lt
  obtain ⟨len, hlen⟩ : ∃ len, len = min (min want (t.size - t.cursor)) x.remaining := ⟨_, rfl⟩
  have hremaining : x.remaining = x.content.length - x.offset := rfl
  have hstands := (ht.stands x hx).eq
  -- What the chunk itself cuts off is not there.
  have hread : x.read (min want (t.size - t.cursor))
      = (x.content.slice x.offset len, { x with offset := x.offset + len }) := by
    have hlength : (x.content.slice x.offset (min want (t.size - t.cursor))).length = len := by
      rw [Bytes.length_slice, hlen, hremaining]
    have hslice := Bytes.slice_length_slice x.content x.offset (min want (t.size - t.cursor))
    rw [hlength] at hslice
    simp only [Chunk.read, ← hslice]
    rw [← hslice] at hlength
    rw [hlength]
  have hlength : (x.content.slice x.offset len).length = len := by
    rw [Bytes.length_slice]
    omega
  -- The cursor never leaves the chunk or the content, so that no check can fail.
  have hgathers := ht.gathers hv hd hx (n := len) (by omega) (by omega)
  refine Does.get_bind (Does.check (Checked.sub_eq (by omega)) ?_)
  simp only [← hlen, hread, hlength]
  refine Does.check (Checked.slice_eq (by omega)) (Does.check (Checked.add_eq (by omega))
    (Does.check (Checked.add_eq (by omega)) (Does.check (Checked.sub_eq (by omega))
      (Does.set_bind ?_))))
  refine Does.answer ((hrest len _ (by omega) hgathers rfl).mono (fun _ _ => id) ?_) ?_
  · intro e s' h'
    refine hgathers.toLingers.misses (h'.mono fun p hp => ?_)
    unfold Source.Wanted at hp ⊢
    simp only at hp
    omega
  · exact fun data s' h' => hgathers.append hlength (by omega) h'

/-- **Reading gathers what the source has to offer,** chunk by chunk, and stops where the content
does. -/
theorem readChunks_browses (hv : v.Sound) (hd : v.Serves d) {turns want : Nat}
    (hturns : want ≤ turns) {s : Session} {x : Chunk} (h : s.Browses v) (hx : s.current = some x) :
    (readChunksChecked turns want).Does (readChunks turns want) s
      (fun data s' => s.Gathers s' v d want data)
      (fun e s' => s.Misses s' v (v.Wanted s.cursor want) e) := by
  -- on the turns; each turn but the last reads a byte, so there are as many as are wanted
  induction turns generalizing want s x with
  | zero =>
    obtain rfl : want = 0 := Nat.le_zero.mp hturns
    unfold readChunksChecked readChunks
    exact Does.pure (h.gathers_nil (.inl rfl))
  | succ turns ih =>
    unfold readChunksChecked readChunks
    refine Does.get_bind (Does.ite (fun hnone => Does.pure (h.gathers_nil ?_)) fun hsome => ?_)
    · rw [h.size] at hnone
      exact hnone.imp id .inl
    obtain ⟨hwant, hcursor⟩ := not_or.mp hsome
    rw [h.size, Nat.not_le] at hcursor
    -- A turn is the same whether the chunk was there or had to be fetched first.
    have hturn {t : Session} {y : Chunk} (ht : s.Lingers t v) (htc : t.cursor = s.cursor)
        (hy : t.current = some y) (hleft : y.remaining ≠ 0) :=
      (readTurn_browses ht.browses hv hd hy hwant hleft (by omega)
        fun len u hpos hu hcurrent => ih (by omega) hu.browses hcurrent).mono
          (fun _ _ h' => h'.after ht htc) fun _ _ h' => htc ▸ ht.misses h'
    refine Does.bind (Does.ofOp (active_browses hx)) ?_
    rintro y t ⟨hy, ht⟩
    rw [hy, ht]
    refine Does.ite (fun hdone => ?_) fun hleft => ?_
    · refine Does.bind ((moveTo_browses h hv (Nat.le_of_lt hcursor)).mono (fun _ _ => id) ?_) ?_
      · exact fun e s' h' => h'.mono fun p hp => by
          unfold Source.Wanted
          omega
      rintro - t ht
      obtain ⟨y, hy, hnumber⟩ := ht.current
      refine Does.bind (Does.ofOp (active_browses hy)) ?_
      rintro z u ⟨hz, hu⟩
      rw [hz, hu]
      refine Does.ite (fun hnone => Does.pure ?_) fun hleft => hturn ht.toLingers ht.cursor hy hleft
      refine (ht.browses.gathers_nil (.inr (.inr ?_))).after ht.toLingers ht.cursor
      exact ht.browses.length_le_cursor hv hd hy (ht.cursor.symm ▸ hnumber) hnone
    · refine Does.bind (Does.ofOp (active_browses hx)) ?_
      rintro z u ⟨hz, hu⟩
      rw [hz, hu, if_neg hleft, if_neg hleft]
      exact hturn h.lingers rfl hx hleft

/-- **A read gives a piece of the content, as long as it can be,** or it fails because a chunk on
the way does not open; then the position stays where it was. -/
theorem read_browses (h : s.Browses v) (hv : v.Sound) (hd : v.Serves d) (n : Nat) :
    (readChecked n).Does (read n) s (fun data s' => s.Delivers s' v d n data)
      (fun e s' => s.Misses s' v (v.Wanted s.seekCursor n) e) := by
  have hnil (hnone : n = 0 ∨ v.size ≤ s.seekCursor) : s.Delivers s v d n [] :=
    { browses := h
      gives := by
        symm
        rw [← List.length_eq_zero_iff, Bytes.length_slice, List.length_take]
        omega
      seekCursor := rfl
      opened := fun p hle hlt => absurd hle (Nat.not_le.mpr hlt) }
  unfold readChecked read
  refine Does.ite (fun hzero => Does.pure (hnil (.inl hzero))) fun hpos => ?_
  refine Does.bind (Does.ofOp (ensureOpen_browses h)) ?_
  rintro - t ht
  rw [ht]
  refine Does.get_bind ?_
  simp only [h.isAppend hv, Bool.false_eq_true, if_false, h.size]
  refine Does.ite (fun hend => Does.pure (hnil (.inr hend))) fun hin => ?_
  refine Does.bind ((syncCursor_browses h hv (by omega)).mono (fun _ _ => id) ?_) ?_
  · exact fun e s' h' => h'.mono fun p hp => by
      unfold Source.Wanted
      omega
  rintro - t ⟨ht, hcursor, x, hx⟩
  refine Does.bind ((readChunks_browses hv hd (Nat.le_refl n) ht.browses hx).mono
    (fun _ _ => id) ?_) ?_
  · exact fun e s' h' => hcursor ▸ ht.misses h'
  rintro data u hu
  refine Does.modify_bind (Does.pure
    { browses := hu.browses.seek u.cursor
      gives := hcursor ▸ hu.gives
      seekCursor := by
        rw [← hcursor]
        exact hu.cursor
      opened := hcursor ▸ hu.opened })

/-! ## Seeking

The position asked for is remembered first, so it is what was asked for even if no chunk could be
loaded there. -/

/-- The position is what was asked for, even if there is nothing to be found. -/
theorem seek_browses (h : s.Browses v) (hv : v.Sound) (pos : Nat) :
    (seekChecked pos).Does (seek pos) s
      (fun _ s' => s'.Browses v ∧ s'.seekCursor = pos)
      (fun e s' => s'.Browses v ∧ s'.seekCursor = pos ∧ v.Excuses (· = pos) e) := by
  unfold seekChecked seek
  refine Does.bind (Does.ofOp (ensureOpen_browses h)) ?_
  rintro - t ht
  rw [ht]
  refine Does.get_bind ?_
  simp only [h.isAppend hv, Bool.false_and, Bool.false_eq_true, if_false]
  refine Does.set_bind (Does.ite (fun hgo => ?_) fun _ => Does.pure ⟨h.seek pos, rfl⟩)
  refine (moveTo_browses (h.seek pos) hv (h.size ▸ hgo.2)).mono ?_ ?_
  · exact fun _ s' h' => ⟨h'.browses, h'.seekCursor⟩
  · exact fun e s' h' => ⟨h'.browses, h'.seekCursor, h'.excuse⟩

/-! ## Sizes and the chunks in memory -/

theorem contentSize_browses {err : Error → Session → Prop} (h : s.Browses v) :
    contentSizeChecked.Does contentSize s (fun n s' => n = v.size ∧ s' = s) err := by
  unfold contentSizeChecked contentSize
  refine Does.get_bind ?_
  simp only [h.isOpen, if_true]
  exact Does.get_bind (Does.pure ⟨h.size, rfl⟩)

theorem usedSize_browses {err : Error → Session → Prop} (h : s.Browses v) (hv : v.Sound) :
    usedSizeChecked.Does usedSize s (fun n s' => n = v.eofPos ∧ s' = s) err := by
  unfold usedSizeChecked usedSize
  refine Does.get_bind ?_
  simp only [h.isOpen, if_true]
  refine Does.bind (flushLast_browses h) ?_
  rintro - t ht
  rw [ht]
  refine Does.look ?_
  rw [h.eofPos]
  exact ⟨eofPosChecked_run h hv, rfl, rfl⟩

/-- The chunks in memory are forgotten, and the current one is loaded again. -/
theorem invalidate_browses (h : s.Browses v) (hv : v.Sound) :
    invalidateChecked.Does invalidate s (fun _ s' => s.Lingers s' v)
      (fun e s' => s.Misses s' v (· = s.cursor) e) := by
  unfold invalidateChecked invalidate
  refine Does.bind (Does.ofOp (ensureOpen_browses h)) ?_
  rintro - t ht
  rw [ht]
  refine Does.get_bind ?_
  have hread : s.mode.isWrite = false := h.mode ▸ hv.readOnly
  simp only [hread, h.isAppend hv, Bool.false_eq_true, if_false, Bool.not_false, if_true]
  refine Does.modify_bind (Does.modify_bind (Does.get_bind ?_))
  have hempty : Browses { s with pool := s.pool.clear } v :=
    h.repool (by simp [Pool.clear]) (Nat.lt_of_le_of_lt (Nat.zero_le _) h.room) h.capacity
  have hcleared : s.Lingers { s with pool := s.pool.clear, current := none } v :=
    ⟨hempty.putDown, rfl⟩
  exact (moveTo_browses hcleared.browses hv h.cursor).mono
    (fun _ _ h' => hcleared.trans h'.toLingers) fun _ _ h' => hcleared.misses h'

theorem setMaxCached_browses {err : Error → Session → Prop} (h : s.Browses v) {count : Nat}
    (hcount : count < offsetLimit) :
    (setMaxCachedChecked count).Does (setMaxCached count) s (fun _ s' => s.Lingers s' v) err := by
  have hroom := h.room
  have hcapacity := h.capacity
  unfold setMaxCachedChecked setMaxCached
  have hrepool : Browses { s with pool := (s.pool.setCapacity (max count 1)).2 } v := by
    refine h.repool (fun x hx => h.recalls_pool (List.mem_of_mem_drop hx)) ?_ ?_
    · simp only [Pool.setCapacity, List.length_drop]
      omega
    · simp only [Pool.setCapacity]
      have hlimit : 1 < offsetLimit := by decide
      omega
  refine Does.get_bind (Does.check (Checked.add_eq (by omega)) ?_)
  rw [if_neg (by omega)]
  refine Does.set_bind ((flushEvicted_browses (v := v) fun x hx =>
    h.recalls_pool (List.mem_of_mem_take hx)).mono ?_ fun _ _ => id)
  rintro - t rfl
  exact ⟨{ hrepool with }, rfl⟩

theorem setCacheEnabled_browses {err : Error → Session → Prop} (h : s.Browses v) (enabled : Bool) :
    (setCacheEnabledChecked enabled).Does (setCacheEnabled enabled) s
      (fun _ s' => s.Lingers s' v) err := by
  unfold setCacheEnabledChecked setCacheEnabled
  refine Does.modify_bind (Does.get_bind ?_)
  have hopen : Container.isOpen { s.toContainer with config.cacheEnabled := enabled } = true :=
    h.isOpen
  simp only [hopen, if_true]
  refine Does.ite (fun _ => Does.set ⟨{ h with }, rfl⟩) fun _ => ?_
  have hdrained : Browses { s with pool := s.pool.drain.2 } v :=
    h.repool (by simp [Pool.drain]) (Nat.lt_of_le_of_lt (Nat.zero_le _) h.room) h.capacity
  refine Does.set_bind ((flushEvicted_browses (v := v) fun x hx =>
    h.recalls_pool hx).mono ?_ fun _ _ => id)
  rintro - t rfl
  exact ⟨{ hdrained with }, rfl⟩

end Container

end Vault
