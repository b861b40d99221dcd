import Vault.Proofs.Chunks

/-!
# `Vault/Proofs/Moving.lean` — the cursor moves and the content stays

**Moving makes another chunk current and changes nothing that is seen.** When it fails, the chunk
that was current may be lost, or the one that made way for it in the pool (`Session.Forgets`).

There is one case in which the new current chunk is not what is seen: a chunk about to be
overwritten as a whole is not read (`Session.Blank`).

What is to be shown after a move is `Session.Arrived`: the cursor stands at the position, and the
current chunk is the one that holds it. Everything else a move may do is said by `Session.Onward`,
which a whole run can be put together from: it is transitive, and `Session.Survives` can be put
behind it.
-/

set_option autoImplicit false

namespace Vault

namespace Session

variable {s s' : Session} {g : Site} {e i pos : Nat} {c d : Bytes} {x : Chunk} {hand : List Chunk}

/-- The current chunk is not the last one with changes that the file misses. -/
def Settled (s : Session) : Prop :=
  ∀ x, s.current = some x → x.dirty = true → x.seqnum ≠ s.eofSeqnum

/-- The current chunk is about to be overwritten as a whole and was not read. With its content
filled in, the container would show what it has to. -/
structure Blank (s : Session) (g : Site) (c d : Bytes) (overwrite : Nat) (x : Chunk) : Prop where
  content : x.content = []
  offset : x.offset = 0
  bounded : 0 < g.metadata.layout.capacity x.seqnum
  covered : g.metadata.layout.capacity x.seqnum ≤ overwrite
  inside : x.seqnum < s.eofSeqnum
  shows : Shows { s with
    current := some { x with content := g.metadata.layout.part c x.seqnum } } g c d

/-- A move came to its end: the chunk that holds the position is current. -/
structure Arrived (s : Session) (g : Site) (c : Bytes) (pos overwrite : Nat) : Prop where
  cursor : s.cursor = pos
  chunk : ∃ x d, s.current = some x ∧ g.metadata.layout.seqnumOf? pos = some x.seqnum ∧
    (s.Shows g c d ∨ s.Blank g c d overwrite x)

/-- The cursor points into the chunk that holds its position. -/
theorem Points.of_locate? {offset : Nat} (hpos : pos ≤ c.length)
    (happending : g.mode.isAppend = true → pos = c.length)
    (hplace : g.metadata.layout.locate? pos = some (x.seqnum, offset)) :
    Points g c.length pos { x with offset } := by
  obtain ⟨hi, hoffset⟩ := Layout.locate?_eq_some_iff.mp hplace
  obtain ⟨-, -, hend, -⟩ := Layout.seqnumOf?_eq_some_iff.mp hi
  have hwithin : g.metadata.layout.Within x.seqnum pos := by
    unfold Layout.Within
    omega
  exact { appending := happending, eq := hoffset, le := hpos, within := hwithin }

/-! ## Numbers that are no part of what is held

The cursor, the current chunk and the greatest number seen so far say where the container stands
in its content, not what the content is. `Session.Holds` speaks of the chunks in hand instead of
the current chunk, so that a chunk can be put down in one place and taken up in another while it
is kept. -/

theorem OnDisk.goto (h : s.OnDisk g e d) (current : Option Chunk) (cursor eofSeqnum : Nat) :
    OnDisk { s with current, cursor, eofSeqnum } g e d :=
  { { h.toStands with } with
    stores := h.stores, header := h.header, headerClean := h.headerClean, trail := h.trail }

theorem Holds.goto (h : s.Holds g e c d hand) (current : Option Chunk) (cursor eofSeqnum : Nat) :
    Holds { s with current, cursor, eofSeqnum } g e c d hand :=
  { h.toOnDisk.goto current cursor eofSeqnum with
    recalls := h.recalls, size := h.size, early := h.early, unpooled := h.unpooled
    readOnly := h.readOnly }

/-- A chunk in hand becomes the current one. -/
theorem Holds.shows (current : Option Chunk) (cursor : Nat)
    (h : s.Holds g e c d current.toList)
    (hpoints : ∀ x, current = some x → Points g c.length cursor x) :
    Shows { s with current, cursor, eofSeqnum := e } g c d :=
  { h.goto current cursor e with points := hpoints }

theorem Shows.of_holds (h : s.Holds g s.eofSeqnum c d s.current.toList)
    (hpoints : ∀ x, s.current = some x → Points g c.length s.cursor x) : s.Shows g c d :=
  { h with points := hpoints }

/-- As long as current chunk and cursor stay, only what is held matters. -/
theorem Shows.of_sameWork {c' d' : Bytes} (h : s.Shows g c d) (hwork : s.SameWork s')
    (h' : s'.Holds g s.eofSeqnum c' d' s.current.toList) (hlen : c'.length = c.length) :
    s'.Shows g c' d' := by
  refine Shows.of_holds ?_ ?_
  · rw [hwork.eofSeqnum, hwork.current]
    exact h'
  · rw [hwork.cursor, hwork.current, hlen]
    exact h.points

/-- A chunk comes to hand as it is seen. -/
theorem Holds.enter (h : s.Holds g e c d hand) (hx : g.metadata.Mirrors s.ciphertextSize e c x)
    (hclean : x.dirty = false) (habsent : Chunk.Absent (hand ++ s.pool.entries) x.seqnum) :
    s.Holds g e c d (x :: hand) :=
  { h with
    recalls := h.recalls.enter hx hclean habsent
    readOnly := fun hmode y hy => by
      rcases List.mem_cons.mp hy with rfl | hy
      · exact hclean
      · exact h.readOnly hmode y hy }

/-- Moving about in a chunk in hand. -/
theorem Holds.place (h : s.Holds g e c d (x :: hand)) (offset : Nat) :
    s.Holds g e c d ({ x with offset } :: hand) :=
  { h with
    recalls := h.recalls.place offset
    readOnly := fun hmode y hy => by
      rcases List.mem_cons.mp hy with rfl | hy
      · exact h.readOnly hmode x List.mem_cons_self
      · exact h.readOnly hmode y (List.mem_cons_of_mem x hy) }

/-- The position asked for lies in the last chunk or right behind it, and then that chunk is full.
-/
theorem Holds.reach (h : s.Holds g e c d hand) (hhand : ∀ x ∈ hand, x.dirty = true → x.seqnum ≠ e)
    (hpos : pos ≤ c.length) (hi : g.metadata.layout.seqnumOf? pos = some i) :
    s.Holds g (max e i) c d hand := by
  obtain ⟨hreaches, hstart, -, hnumber⟩ := Layout.seqnumOf?_eq_some_iff.mp hi
  -- Behind the last chunk the position can only be the end of a content that fills it, so that the
  -- next chunk is the last one now.
  rcases Nat.lt_or_ge e i with hlt | hge
  · have hcap := hreaches e hlt
    have hnext := g.metadata.layout.startOf_mono hlt
    rw [Layout.startOf_succ] at hnext
    have hclean : ∀ y ∈ hand ++ s.pool.entries, y.seqnum = e → y.dirty = false := by
      intro y hy heq
      cases hd : y.dirty with
      | false => rfl
      | true =>
        rcases List.mem_append.mp hy with hy | hy
        · exact absurd heq (hhand y hy hd)
        · exact absurd heq (h.early y hy hd)
    have hlen := h.recalls.length_eq hclean h.stores.within
    have hwithin := h.recalls.within
    have hfull : c.length = g.metadata.layout.startOf e + g.metadata.layout.capacity e := by
      unfold Layout.Within at hwithin
      omega
    -- A chunk further on would start behind the end.
    have hie : i = e + 1 := by
      refine Classical.byContradiction fun hne => ?_
      have hcap' := hreaches (e + 1) (by omega)
      have hbehind := g.metadata.layout.startOf_add_capacity_le (i := e + 1) (j := i) (by omega)
      rw [Layout.startOf_succ] at hbehind
      omega
    subst hie
    rw [Nat.max_eq_right (Nat.le_succ e)]
    have hsize : g.metadata.storedSize s.ciphertextSize e e
        = g.metadata.layout.capacity e + ChunkCipher.overhead := by
      have hpart := h.stores.length_part_last
      rcases h.stores.storedSize_eq (Nat.le_refl e) with ⟨-, hnil⟩ | heq
      · rw [hnil, List.length_nil] at hpart
        omega
      · omega
    exact
      { h with
        stores := h.stores.advance hcap (by omega) hnumber
        recalls := h.recalls.advance hcap hfull hlen.symm hsize
        early := fun y hy hd heq => by
          have hle := (h.recalls.mirrors y (List.mem_append_right _ hy)).le
          omega }
  · rwa [Nat.max_eq_left hge]

/-- The bytes to read of a chunk are those stored of it. -/
theorem OnDisk.length_packed (h : s.OnDisk g e d) (hi : i ≤ e) :
    min (s.processor.maxPackedSize i s.ciphertextSize)
      (s.eofPos - g.metadata.layout.rawStartOf i)
        = g.metadata.storedSize s.ciphertextSize e i := by
  have heof := h.eofPos_eq
  have hoffset := g.metadata.layout.dataOffset_le_rawStartOf i
  rw [Metadata.dataOffset_layout] at hoffset
  have hoverhead : s.processor.overhead = ChunkCipher.overhead := by
    simp [Processor.overhead, h.blockwise]
  rw [Processor.maxPackedSize, h.maxPlainSize, hoverhead]
  rcases Nat.lt_or_eq_of_le hi with hlt | rfl
  · have hcap := h.stores.reaches i hlt
    have hle := h.stores.rawStart_add_storedSize_le hi
    rw [if_neg (Nat.ne_of_gt hcap)]
    rw [Metadata.storedSize_of_lt hlt] at hle ⊢
    omega
  · rw [Metadata.storedSize_last, heof]
    split
    · omega
    · rename_i hcap
      have hpart := Layout.length_part g.metadata.layout d i
      rw [if_neg hcap] at hpart
      rcases h.stores.extent with ⟨heq, -⟩ | ⟨heq, -⟩ <;> omega

end Session

namespace Container

open Session

variable {s : Session} {g : Site} {e i : Nat} {c d : Bytes} {x : Chunk} {hand : List Chunk}
  {full : Prop}

theorem ensureOpen_does (h : s.Stands g) {err : Session → Prop} :
    ensureOpen.Does full s (fun _ s' => s' = s) err := by
  unfold ensureOpen
  refine Op.Does.get_bind ?_
  rw [h.isOpen]
  exact Op.Does.pure rfl

theorem active_does (hx : s.current = some x) {err : Session → Prop} :
    active.Does full s (fun y s' => y = x ∧ s' = s) err := by
  unfold active
  refine Op.Does.get_bind ?_
  rw [hx]
  exact Op.Does.pure ⟨rfl, rfl⟩

/-! ## Away from the current chunk

A chunk is put away in two steps. One that is dirty and holds the end is written first, while it is
current and so is kept when that fails; lost, it would leave a size with nothing behind it. Then the
chunk goes into the pool, or into the file where nothing is pooled, and there it may be lost. -/

/-- The current chunk is written back and stays current. -/
theorem flushActive_does (h : s.Shows g c d) (hx : s.current = some x)
    (hwrite : g.mode.isWrite = true) (hfilled : x.content ≠ [] ∨ s.eofSeqnum = 0 ∧ g.trail = .cut) :
    flushActive.Does full s
      (fun _ s' => s'.current = some x.stored ∧ s'.cursor = s.cursor ∧ s'.size = s.size ∧
        s'.eofSeqnum = s.eofSeqnum ∧ s'.pool = s.pool ∧ ∃ d', s'.Shows g c d')
      (fun s' => s.SameMemory s' ∧ s'.Shows g c d) := by
  have hheld : s.Holds g s.eofSeqnum c d [x] := by simpa [hx] using h.toHolds
  unfold flushActive
  refine Op.Does.bind (active_does hx) ?_
  rintro x s ⟨rfl, rfl⟩
  refine Op.Does.bind ((flushHeld_does hheld hwrite hfilled).mono (fun _ _ => id) ?_) ?_
  · rintro s' ⟨hmem, h'⟩
    exact ⟨hmem, h.of_sameWork hmem.toSameWork (by simpa [hx] using h') rfl⟩
  · rintro _ s' ⟨rfl, hmem, d', h'⟩
    refine Op.Does.modify rfl ⟨rfl, hmem.cursor, hmem.size, hmem.eofSeqnum, hmem.pool, d', ?_⟩
    have h₁ : s'.Holds g s'.eofSeqnum c d' [x.stored] := by
      rw [hmem.eofSeqnum]
      exact h'
    refine Holds.shows (some x.stored) s'.cursor h₁ ?_
    rintro _ ⟨⟩
    rw [hmem.cursor]
    exact { h.points _ hx with }

theorem flushDirty_does (h : s.Shows g c d) (hx : s.current = some x) (hdirty : x.dirty = true) :
    flushActive.Does full s
      (fun _ s' => s'.current = some x.stored ∧ s'.cursor = s.cursor ∧ s'.size = s.size ∧
        s'.eofSeqnum = s.eofSeqnum ∧ s'.pool = s.pool ∧ ∃ d', s'.Shows g c d')
      (fun s' => s.SameMemory s' ∧ s'.Shows g c d) := by
  have hmem : x ∈ s.current.toList ++ s.pool.entries := by simp [hx]
  exact flushActive_does h hx (h.isWrite_of_dirty hmem hdirty)
    (.inl ((h.recalls.mirrors x hmem).filled hdirty))

/-- The chunk that holds the end is written before the container moves away from it. -/
theorem flushLast_does (h : s.Shows g c d) :
    flushLast.Does full s
      (fun _ s' => s'.cursor = s.cursor ∧ s.Onward s' ∧ s'.Settled ∧ ∃ d', s'.Shows g c d')
      (fun s' => s.SameMemory s' ∧ s'.Shows g c d) := by
  unfold flushLast
  refine Op.Does.get_bind ?_
  cases hx : s.current with
  | none =>
    exact Op.Does.pure ⟨rfl, Onward.refl s, by simp [Settled, hx], d, h⟩
  | some x =>
    refine Op.Does.when (fun hc => ?_) fun hc => ⟨rfl, Onward.refl s, ?_, d, h⟩
    · obtain ⟨hdirty, hnum⟩ : x.dirty = true ∧ x.seqnum = s.eofSeqnum := by simpa using hc
      refine (flushDirty_does h hx hdirty).mono ?_ fun _ => id
      rintro - s' ⟨hcurrent, hcursor, hsize, heof, hpool, hd⟩
      have honward : s.Onward s' := by
        refine Onward.of_current hx hcurrent rfl (by simp) hpool (Nat.le_of_eq heof.symm)
          (fun hidle => ?_) fun hplaced => ?_
        · exact absurd hdirty (by simp [hidle.clean x (by simp [memory, hx])])
        · simpa [Placed, hcursor, hsize] using hplaced
      refine ⟨hcursor, honward, ?_, hd⟩
      rw [Settled, hcurrent]
      rintro _ ⟨⟩ hd
      simp at hd
    · intro y hy hd
      obtain rfl : x = y := by simpa [hx] using hy
      simpa [hd] using hc

/-- The chunk that was current is put away. -/
theorem retireCurrent_does (full : Prop) (h : s.Shows g c d) (hsettled : s.Settled) :
    Op.Does (match s.current with | some x => retire x | none => pure ()) full
      { s with current := none }
      (fun _ s' => s'.current = none ∧ s.Onward s' ∧ ∃ d', s'.Shows g c d')
      (fun s' => s.Survives s' g c) := by
  have h₀ := h.toHolds.goto none s.cursor s.eofSeqnum
  have hshows {s' : Session} {c' d' : Bytes} (hwork : SameWork { s with current := none } s')
      (h' : s'.Holds g s.eofSeqnum c' d' []) : s'.Shows g c' d' := by
    refine Shows.of_holds ?_ ?_
    · rw [hwork.eofSeqnum, hwork.current]
      exact h'
    · simp [hwork.current]
  have honward {s' : Session} (hwork : SameWork { s with current := none } s')
      (hpool : ∀ y ∈ s'.pool.entries, y ∈ s.memory)
      (hquiet : s.Idle → s'.disk = s.disk ∧ s'.sizeDirty = false) : s.Onward s' := by
    refine ⟨fun i hi => hi.mono fun y hy _ => ?_, Nat.le_of_eq hwork.eofSeqnum.symm, hquiet,
      fun hplaced => hwork.placed hplaced⟩
    rw [memory, hwork.current] at hy
    exact hpool y hy
  cases hx : s.current with
  | none =>
    refine Op.Does.pure ⟨rfl, honward (SameWork.refl _) (fun y hy => List.mem_append_right _ hy)
      fun hidle => ⟨rfl, hidle.sized⟩, d, ?_⟩
    exact hshows (SameWork.refl _) (by simpa [hx] using h₀)
  | some x =>
    have h₁ : Holds { s with current := none } g s.eofSeqnum c d [x] := by simpa [hx] using h₀
    refine (retire_does h₁ (hsettled x hx)).mono ?_ ?_
    · rintro _ s' ⟨hwork, hpool, hclean, d', h'⟩
      have hmemory : s.memory = x :: s.pool.entries := by simp [memory, hx]
      refine ⟨hwork.current, honward hwork (fun y hy => ?_) fun hidle => ?_, d', hshows hwork h'⟩
      · rw [hmemory]
        exact hpool y hy
      · obtain ⟨hdisk, hsized⟩ := hclean (hmemory ▸ hidle.clean)
        exact ⟨hdisk, hsized.trans hidle.sized⟩
    · rintro s' ⟨hwork, c', d', h', hagree⟩
      refine ⟨fun hplaced => hwork.placed hplaced, c', d', hshows hwork h',
        hagree.mono fun i hi => ⟨?_, ?_⟩⟩
      · simpa [memory, hx] using hi.1
      · simpa [memory, hwork.current] using hi.2

/-! ## To another chunk

The chunk that holds the position is looked for in the pool and only then in the file. What the
pool has may be dirty and is newer than the file; what is not in the pool is stored as it is
seen. -/

theorem takePooled_does (h : s.Stands g) (hunpooled : g.useCache = false → s.pool.entries = [])
    (i : Nat) {err : Session → Prop} :
    (takePooled i).Does full s
      (fun found s' => ∃ pool : Pool, s' = { s with pool } ∧
        (found.toList ++ pool.entries).Perm s.pool.entries ∧
        (∀ y, found = some y → y.seqnum = i) ∧ (found = none → Chunk.Absent s.pool.entries i))
      err := by
  unfold takePooled
  refine Op.Does.get_bind ?_
  by_cases hcache : s.useCache = true
  · rw [if_pos hcache]
    have hperm := Pool.perm_take s.pool i
    have hnumber {y : Chunk} (hy : (s.pool.take i).1 = some y) := Pool.seqnum_of_take hy
    have habsent (hnone : (s.pool.take i).1 = none) := Pool.absent_of_take hnone
    generalize s.pool.take i = taken at hperm hnumber habsent ⊢
    obtain ⟨found, pool⟩ := taken
    exact Op.Does.set_bind rfl (Op.Does.pure ⟨pool, rfl, hperm, fun _ => hnumber, habsent⟩)
  · rw [if_neg hcache]
    have hnil : s.pool.entries = [] := hunpooled (by rw [← h.useCache]; simpa using hcache)
    refine Op.Does.pure ⟨s.pool, rfl, List.Perm.refl _, by simp, fun _ => ?_⟩
    simp [hnil, Chunk.Absent]

theorem unpackChunk_does (h : s.Stands g) {data plain : Bytes}
    (hopens : g.metadata.cipher.unpack data i = .ok plain) :
    (unpackChunk data i).Does full s (fun content s' => content = plain ∧ s.PassesBy s')
      s.PassesBy := by
  obtain ⟨p, hp⟩ := h.handle
  unfold unpackChunk
  refine Op.Does.bind (Raw.note_does hp _) ?_
  rintro - - ⟨y, -, rfl⟩
  have hkeys : s.processor.keys = some g.metadata.keys := by rw [h.processor, g.keyed]
  refine Op.Does.get_bind (Op.Does.ofExcept ?_ ⟨rfl, y, rfl⟩)
  rw [processor_beside, Processor.unpackChunk_eq hkeys h.blockwise]
  exact congrArg _ hopens

/-- **What is read of a chunk is its part of the stored content,** unless nothing is read because
all of it is about to be overwritten. -/
theorem loadChunk_does (h : s.OnDisk g e d) (hi : i ≤ e) (offset overwrite : Nat) :
    (loadChunk i offset overwrite).Does full s
      (fun y s' => s.PassesBy s' ∧ y.seqnum = i ∧ y.dirty = false ∧
        g.metadata.Mirrors s.ciphertextSize e d
          { y with content := g.metadata.layout.part d i } ∧
        (y.content = g.metadata.layout.part d i ∨
          (y.content = [] ∧ offset = 0 ∧ 0 < g.metadata.layout.capacity i ∧
            g.metadata.layout.capacity i ≤ overwrite ∧ i < s.eofSeqnum)))
      s.PassesBy := by
  unfold loadChunk
  refine Op.Does.get_bind (Op.Does.bind (rawPosOf_does h hi) ?_)
  rintro _ t ⟨rfl, hpass⟩
  have ht := h.passesBy hpass
  obtain ⟨hct, heof⟩ : t.ciphertextSize = s.ciphertextSize ∧ t.eofSeqnum = s.eofSeqnum := by
    obtain ⟨x, rfl⟩ := hpass
    exact ⟨rfl, rfl⟩
  rw [← hct, ← heof, h.maxPlainSize]
  refine Op.Does.get_bind ?_
  rw [ht.length_packed hi]
  have hmirrors (y : Chunk) (hnumber : y.seqnum = i) (hdirty : y.dirty = false)
      (hmax : y.maxSize = g.metadata.layout.capacity i)
      (hsize : y.ciphertextSize = g.metadata.storedSize t.ciphertextSize e i) :
      g.metadata.Mirrors t.ciphertextSize e d
        { y with content := g.metadata.layout.part d i } :=
    { le := hnumber ▸ hi
      content := by simp only [hnumber]
      maxSize := by simp only [hnumber, hmax]
      ciphertextSize := by simp only [hnumber, hsize]
      filled := by simp [hdirty] }
  -- Of the last chunk nothing may be stored, and then nothing is read either.
  obtain ⟨hzero, hnil⟩ | hpacked := ht.stores.storedSize_eq hi
  · rw [if_pos hzero]
    exact Op.Does.pure ⟨hpass, rfl, rfl, hmirrors _ rfl rfl rfl hzero.symm, .inl hnil.symm⟩
  · have hne : g.metadata.storedSize t.ciphertextSize e i ≠ 0 := by
      simp [hpacked, ChunkCipher.overhead, Gcm.nonceSize]
    rw [if_neg hne]
    split
    · rename_i hskip
      refine Op.Does.pure ⟨hpass, rfl, rfl, hmirrors _ rfl rfl rfl rfl, .inr ⟨rfl, hskip.1, ?_⟩⟩
      exact ⟨Nat.pos_of_ne_zero hskip.2.1, hskip.2.2⟩
    · obtain ⟨p, hp⟩ := ht.handle
      have herr {s' : Session} (h' : t.PassesBy s') := hpass.trans h'
      refine Op.Does.bind ((Raw.seek_does hp _).mono (fun _ _ => id) fun _ => herr) ?_
      rintro - - ⟨x, hx, rfl⟩
      refine Op.Does.bind (((Raw.read_does (handle_beside hp x) _)).mono (fun _ _ => id) ?_) ?_
      · rw [passesBy_beside]
        exact fun _ => herr
      rintro data - ⟨hdata, y, -, rfl⟩
      -- The trace is all that changed until here, so what was read is what was stored.
      have hread : data = (t.disk.contents g.file).slice (g.metadata.layout.rawStartOf i)
          (g.metadata.storedSize t.ciphertextSize e i) := by rw [hdata, ← hx]; rfl
      have hpresent := Nat.le_trans (ht.stores.rawStart_add_storedSize_le hi) ht.stores.present
      have hlength : data.length = g.metadata.storedSize t.ciphertextSize e i := by
        rw [hread, Bytes.length_slice]
        omega
      have hopens := ht.stores.opens i hi (Nat.pos_of_ne_zero hne)
      rw [← hread] at hopens
      simp only [hlength, ne_eq, not_true_eq_false, if_false]
      have hthere : t.PassesBy ((t.beside x).beside y) := ⟨y, t.beside_beside x y⟩
      refine Op.Does.bind ((unpackChunk_does (ht.passesBy hthere).toStands hopens).mono
        (fun _ _ => id) fun _ h' => herr (hthere.trans h')) ?_
      rintro _ s' ⟨rfl, hlast⟩
      exact Op.Does.pure
        ⟨herr (hthere.trans hlast), rfl, rfl, hmirrors _ rfl rfl rfl rfl, .inl rfl⟩

/-! ## Moving

The parts above meet in `moveTo_does`. A move inside the current chunk only changes its offset;
every other one writes the last chunk, puts the current one away and arrives at the next. -/

/-- The chunk becomes the current one, and the cursor goes to its offset in it. -/
def entering (s : Session) (x : Chunk) (offset pos : Nat) : Session :=
  { s with
    current := some { x with offset }
    cursor := pos
    eofSeqnum := max s.eofSeqnum x.seqnum }

/-- A chunk from the pool may be dirty and is taken as it is. -/
theorem enter_pooled {pos offset : Nat} {pool : Pool} (h : s.Shows g c d) (hnone : s.current = none)
    (hpos : pos ≤ c.length) (happending : g.mode.isAppend = true → pos = c.length)
    (hplace : g.metadata.layout.locate? pos = some (x.seqnum, offset))
    (hperm : (x :: pool.entries).Perm s.pool.entries)
    (hheld : Holds { s with pool } g (max s.eofSeqnum x.seqnum) c d [x]) (overwrite : Nat) :
    (entering { s with pool } x offset pos).Arrived g c pos overwrite ∧
      s.Onward (entering { s with pool } x offset pos) := by
  have hpoints := Points.of_locate? hpos happending hplace
  have hshows : Shows (entering { s with pool } x offset pos) g c d :=
    (hheld.place offset).shows (some { x with offset }) pos (by rintro _ ⟨⟩; exact hpoints)
  refine ⟨⟨rfl, { x with offset }, d, rfl, (Layout.locate?_eq_some_iff.mp hplace).1, .inl hshows⟩,
    { dirty := fun j hj => ?_, eof := Nat.le_max_left _ _, quiet := fun hidle => ⟨rfl, hidle.sized⟩
      placed := fun _ => Nat.le_trans hpos (Nat.le_of_eq h.size.symm) }⟩
  have hmemory : s.memory = s.pool.entries := by simp [memory, hnone]
  rw [hmemory]
  obtain ⟨z, hz, hnum, hd⟩ := hj
  rcases List.mem_cons.mp hz with rfl | hz
  · exact ⟨x, hperm.mem_iff.mp List.mem_cons_self, hnum, hd⟩
  · exact ⟨z, hperm.mem_iff.mp (List.mem_cons_of_mem x hz), hnum, hd⟩

/-- A chunk from the file is what is stored, unless it is about to be overwritten as a whole: then
it was not read and is blank. -/
theorem enter_loaded {t : Session} {pos offset overwrite : Nat} {pool : Pool} (h : s.Shows g c d)
    (hnone : s.current = none) (hpos : pos ≤ c.length)
    (happending : g.mode.isAppend = true → pos = c.length)
    (hplace : g.metadata.layout.locate? pos = some (x.seqnum, offset))
    (hperm : pool.entries.Perm s.pool.entries) (hpass : PassesBy { s with pool } t)
    (hheld : t.Holds g (max s.eofSeqnum x.seqnum) c d
      [{ x with content := g.metadata.layout.part c x.seqnum }])
    (hclean : x.dirty = false)
    (hcontent : x.content = g.metadata.layout.part c x.seqnum ∨
      (x.content = [] ∧ offset = 0 ∧ 0 < g.metadata.layout.capacity x.seqnum ∧
        g.metadata.layout.capacity x.seqnum ≤ overwrite ∧ x.seqnum < s.eofSeqnum)) :
    (entering t x offset pos).Arrived g c pos overwrite ∧ s.Onward (entering t x offset pos) := by
  have hpoints := Points.of_locate? hpos happending hplace
  have hmem := hpass.sameMemory
  have heof : t.eofSeqnum = s.eofSeqnum := hmem.eofSeqnum
  obtain ⟨hdisk, hsized⟩ : t.disk = s.disk ∧ t.sizeDirty = s.sizeDirty := by
    obtain ⟨y, rfl⟩ := hpass
    exact ⟨rfl, rfl⟩
  have hshows := (hheld.place offset).shows
    (some { x with content := g.metadata.layout.part c x.seqnum, offset }) pos
    (by rintro _ ⟨⟩; exact { hpoints with })
  rw [← heof] at hshows hcontent
  refine ⟨⟨rfl, { x with offset }, d, rfl, (Layout.locate?_eq_some_iff.mp hplace).1, ?shows⟩,
    { dirty := ?dirty, eof := ?eof, quiet := fun hidle => ⟨hdisk, hsized.trans hidle.sized⟩
      placed := fun _ => ?placed }⟩
  case shows =>
    rcases hcontent with hfull | ⟨hnil, hzero, hcap, hcovered, hinside⟩
    · rw [← hfull] at hshows
      exact .inl hshows
    · exact .inr ⟨hnil, hzero, hcap, hcovered,
        Nat.lt_of_lt_of_le hinside (Nat.le_max_left _ _), hshows⟩
  case dirty =>
    rintro j ⟨z, hz, hnum, hd⟩
    have hmemory : s.memory = s.pool.entries := by simp [memory, hnone]
    rw [hmemory]
    rcases List.mem_cons.mp hz with rfl | hz
    · simp [hclean] at hd
    · have hpool : t.pool = pool := hmem.pool
      exact ⟨z, hperm.mem_iff.mp (hpool ▸ hz), hnum, hd⟩
  case eof => exact Nat.le_trans (Nat.le_of_eq heof.symm) (Nat.le_max_left _ _)
  case placed =>
    have hsize : t.size = c.length := hmem.size.trans h.size
    exact Nat.le_trans hpos (Nat.le_of_eq hsize.symm)

/-- The new chunk comes from the pool or from the file. -/
theorem arrive_does {pos offset : Nat} (h : s.Shows g c d) (hnone : s.current = none)
    (hpos : pos ≤ c.length) (happending : g.mode.isAppend = true → pos = c.length)
    (hplace : g.metadata.layout.locate? pos = some (i, offset)) (overwrite : Nat) :
    Op.Does (do
        let chunk ← match ← takePooled i with
          | some chunk => pure chunk
          | none => loadChunk i offset overwrite
        modify fun s => { s with
          current := some { chunk with offset }
          cursor := pos
          eofSeqnum := max s.eofSeqnum i }) full s
      (fun _ s' => s'.Arrived g c pos overwrite ∧ s.Onward s')
      (fun s' => s.Survives s' g c) := by
  have hheld : s.Holds g s.eofSeqnum c d [] := by simpa [hnone] using h.toHolds
  have hreach := hheld.reach (by simp) hpos (Layout.locate?_eq_some_iff.mp hplace).1
  refine Op.Does.bind (takePooled_does h.toStands h.unpooled i) ?_
  rintro found - ⟨pool, rfl, hperm, hnumber, habsent⟩
  have hpool {e' : Nat} (h : s.Holds g e' c d []) :
      Holds { s with pool } g e' c d found.toList := by
    refine h.repool hperm.symm (fun y hy hd => ?_) fun hu => ?_
    · exact h.early y (hperm.mem_iff.mp (List.mem_append_right _ hy)) hd
    · rw [h.unpooled hu] at hperm
      exact (List.append_eq_nil_iff.mp hperm.eq_nil).2
  cases found with
  | some y =>
    obtain rfl := hnumber y rfl
    refine Op.Does.bind (P := fun y' t => y' = y ∧ t = { s with pool }) (Op.Does.pure ⟨rfl, rfl⟩) ?_
    rintro y _ ⟨rfl, rfl⟩
    exact Op.Does.modify rfl
      (enter_pooled h hnone hpos happending hplace hperm (hpool hreach) overwrite)
  | none =>
    have hload := hpool hreach
    have habsent' : Chunk.Absent pool.entries i :=
      (habsent rfl).mono fun z hz => hperm.mem_iff.mp hz
    have hpart : g.metadata.layout.part c i = g.metadata.layout.part d i :=
      hload.recalls.part_eq_of_absent (Nat.le_max_right _ _) habsent'
    refine Op.Does.bind ((loadChunk_does hload.toOnDisk (Nat.le_max_right _ _) offset
      overwrite).mono (fun _ _ => id) ?_) ?_
    · intro s' hpass
      have hmem := hpass.sameMemory
      refine Shows.survives (d := d) (Shows.of_holds ?_ ?_) fun hplaced => hmem.placed hplaced
      · rw [hmem.eofSeqnum, hmem.current, hnone]
        exact (hpool hheld).passesBy hpass
      · simp [hmem.current, hnone]
    · rintro y t ⟨hpass, rfl, hclean, hmirrors, hcontent⟩
      rw [← hpart] at hmirrors hcontent
      have hct : t.ciphertextSize = s.ciphertextSize := by
        obtain ⟨x, rfl⟩ := hpass
        rfl
      have hy : t.Holds g (max s.eofSeqnum y.seqnum) c d
          [{ y with content := g.metadata.layout.part c y.seqnum }] := by
        refine (hload.passesBy hpass).enter ?_ hclean ?_
        · rw [hct]
          exact { hmirrors with content := rfl }
        · rw [hpass.sameMemory.pool]
          exact habsent'
      exact Op.Does.modify rfl
        (enter_loaded h hnone hpos happending hplace hperm hpass hy hclean hcontent)

/-- **Moving changes nothing that is seen.** -/
theorem moveTo_does (h : s.Shows g c d) {pos : Nat} (overwrite : Nat) (hpos : pos ≤ c.length)
    (happending : g.mode.isAppend = true → pos = c.length) :
    (moveTo pos overwrite).Does (g.metadata.layout.seqnumOf? pos = none) s
      (fun _ s' => s'.Arrived g c pos overwrite ∧ s.Onward s')
      (fun s' => s.Survives s' g c) := by
  unfold moveTo
  refine Op.Does.bind (ensureOpen_does h.toStands) ?_
  rintro - s rfl
  refine Op.Does.get_bind ?_
  have hallowed : ¬(if s.mode.isAppend then pos ≠ s.size else s.size < pos) := by
    rw [h.mode, h.size]
    split
    · rename_i happ
      exact not_not_intro (happending happ)
    · exact Nat.not_lt.mpr hpos
  rw [if_neg hallowed]
  simp only [h.layout]
  cases hlocate : g.metadata.layout.locate? pos with
  | none =>
    have hfull := Layout.locate?_eq_none_iff.mp hlocate
    exact fun _ => ⟨.inr ⟨Fault.Worn.refl _, hfull⟩, h.survives id⟩
  | some place =>
    obtain ⟨i, offset⟩ := place
    have hi := (Layout.locate?_eq_some_iff.mp hlocate).1
    simp only
    by_cases hhere : (s.current.any fun chunk => chunk.seqnum = i) = true
    · obtain ⟨x, hx, hnum⟩ : ∃ x, s.current = some x ∧ x.seqnum = i := by
        simpa [Option.any_eq_true] using hhere
      subst hnum
      rw [if_pos hhere]
      have hheld : s.Holds g s.eofSeqnum c d [x] := by simpa [hx] using h.toHolds
      have hpoints := Points.of_locate? hpos happending hlocate
      refine Op.Does.modify rfl
        ⟨⟨rfl, { x with offset }, d, by simp [hx], hi, .inl ?_⟩, ?_⟩
      · simp only [hx, Option.map_some]
        exact (hheld.place offset).shows (some { x with offset }) pos
          (by rintro _ ⟨⟩; exact hpoints)
      · refine Onward.of_current (y := { x with offset }) hx (by simp [hx]) rfl id rfl
          (Nat.le_refl _) (fun hidle => ⟨rfl, hidle.sized⟩) fun _ => ?_
        exact Nat.le_trans hpos (Nat.le_of_eq h.size.symm)
    · rw [if_neg hhere]
      refine Op.Does.bind ((flushLast_does h).mono (fun _ _ => id) ?_) ?_
      · exact fun _ h' => h'.2.survives h'.1.placed
      rintro - t ⟨-, honward, hsettled, d₁, ht⟩
      refine Op.Does.get_bind (Op.Does.modify_bind rfl ?_)
      -- What is left to do starts after the last chunk was written, which changed nothing that is
      -- seen.
      have hfinish {x : Op Unit} {u : Session} (hu : t.Onward u)
          (hx : x.Does (g.metadata.layout.seqnumOf? pos = none) u
            (fun _ s' => s'.Arrived g c pos overwrite ∧ u.Onward s')
            (fun s' => u.Survives s' g c)) :
          x.Does (g.metadata.layout.seqnumOf? pos = none) u
            (fun _ s' => s'.Arrived g c pos overwrite ∧ s.Onward s')
            (fun s' => s.Survives s' g c) := by
        refine hx.mono ?_ fun _ h' => h'.after (honward.trans hu)
        rintro _ s' ⟨harrived, hu'⟩
        exact ⟨harrived, honward.trans (hu.trans hu')⟩
      have hretire := retireCurrent_does (g.metadata.layout.seqnumOf? pos = none) ht hsettled
      cases hx : t.current with
      | none =>
        simp only [hx] at hretire ⊢
        intro htame
        obtain ⟨-, hnone, hu, d₂, h'⟩ := hretire htame
        exact hfinish hu (arrive_does h' hnone hpos happending hlocate overwrite) htame
      | some x =>
        simp only [hx] at hretire ⊢
        refine Op.Does.bind (hretire.mono (fun _ _ => id) fun _ h' => h'.after honward) ?_
        rintro - u ⟨hnone, hu, d₂, h'⟩
        exact hfinish hu (arrive_does h' hnone hpos happending hlocate overwrite)

/-- There is no moving behind the end, nor in front of it where only appending is allowed. -/
theorem moveTo_refused (h : s.Shows g c d) {pos : Nat}
    (hrefused : if g.mode.isAppend then pos ≠ c.length else c.length < pos) (overwrite : Nat)
    (hfull : full) {ok : Unit → Session → Prop} :
    (moveTo pos overwrite).Does full s ok (fun s' => s' = s) := by
  unfold moveTo
  refine Op.Does.bind (ensureOpen_does h.toStands) ?_
  rintro - s rfl
  refine Op.Does.get_bind ?_
  rw [h.mode, h.size, if_pos hrefused]
  exact fun _ => ⟨.inr ⟨Fault.Worn.refl _, hfull⟩, rfl⟩

/-- Moving to read, or to no purpose: the chunk is always read. -/
theorem moveTo_shows (h : s.Shows g c d) {pos : Nat} (hpos : pos ≤ c.length)
    (happending : g.mode.isAppend = true → pos = c.length) :
    (moveTo pos 0).Does (g.metadata.layout.seqnumOf? pos = none) s
      (fun _ s' => s'.cursor = pos ∧ s.Onward s' ∧ ∃ x d', s'.current = some x ∧
        g.metadata.layout.seqnumOf? pos = some x.seqnum ∧ s'.Shows g c d')
      (fun s' => s.Survives s' g c) := by
  refine (moveTo_does h 0 hpos happending).mono ?_ fun _ => id
  rintro _ s' ⟨⟨hcursor, x, d', hx, hnum, hshows | hblank⟩, honward⟩
  · exact ⟨hcursor, honward, x, d', hx, hnum, hshows⟩
  · exact absurd (Nat.lt_of_lt_of_le hblank.bounded hblank.covered) (Nat.lt_irrefl 0)

theorem syncCursor_does (h : s.Shows g c d) (hpos : g.seekCursor ≤ c.length)
    (happending : g.mode.isAppend = true → g.seekCursor = c.length) :
    syncCursor.Does (g.metadata.layout.seqnumOf? g.seekCursor = none) s
      (fun _ s' => s'.cursor = g.seekCursor ∧ s.Onward s' ∧
        ∃ x d', s'.current = some x ∧ s'.Shows g c d')
      (fun s' => s.Survives s' g c) := by
  unfold syncCursor
  refine Op.Does.get_bind ?_
  rw [h.seekCursor]
  refine Op.Does.when (fun _ => ?_) fun hskip => ?_
  · refine (moveTo_shows h hpos happending).mono ?_ fun _ => id
    rintro _ s' ⟨hcursor, honward, x, d', hx, -, hshows⟩
    exact ⟨hcursor, honward, x, d', hx, hshows⟩
  · obtain ⟨hsome, hcursor⟩ : s.current.isSome ∧ g.seekCursor = s.cursor := by
      simpa [Option.ne_none_iff_isSome] using hskip
    obtain ⟨x, hx⟩ := Option.isSome_iff_exists.mp hsome
    exact ⟨hcursor.symm, Onward.refl s, x, d, hx, h⟩

end Container

end Vault
