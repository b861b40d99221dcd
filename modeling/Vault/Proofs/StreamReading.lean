import Vault.Proofs.Reopen
import Vault.Proofs.StreamOpening

/-!
# `Vault/Proofs/StreamReading.lean` — scanning streamed chunks

A container with streamed chunks that is open for scanning reads chunk after chunk from the file and
writes nothing. **Whoever has the master key and scans the file is told the content that its header
tells of,** bytes and size; and the sizes can be asked of a closed container too.
-/

set_option autoImplicit false

namespace Vault

/-- The chunk that is scanned is as it is in the file, and stands at the cursor. -/
structure Chunk.Views (x : Chunk) (g : Channel) (content : Bytes) (cursor : Nat) : Prop where
  eq : x = { g.chunk content x.seqnum with offset := cursor - g.layout.startOf x.seqnum }
  reaches : g.layout.Reaches x.seqnum
  start : g.layout.startOf x.seqnum ≤ cursor
  within : g.layout.Within x.seqnum cursor
  inside : cursor ≤ content.length

namespace Session

open Container

variable {s s' : Session} {g : Channel} {ink : Ink} {c : Bytes} {x : Chunk} {m : Metadata}
  {file pos : Nat}

/-- **The invariant of a container that is scanned.** -/
structure Scans (s : Session) (g : Channel) (ink : Ink) (content : Bytes) : Prop
    extends s.Stocks g ink content where
  reading : g.mode.isAppend = false
  size : s.size = content.length
  current : ∀ x, s.current = some x → x.Views g content s.cursor

/-- A position inside the content has a chunk number. -/
theorem Stocks.seqnumOf?_ne_none (h : s.Stocks g ink c) (hpos : pos < c.length) :
    g.layout.seqnumOf? pos ≠ none :=
  let ⟨_, hends⟩ := h.ends
  Layout.seqnumOf?_ne_none hends.reaches hends.numbered hends.within hpos

namespace Scans

theorem beside (h : s.Scans g ink c) (y : Surroundings) : (s.beside y).Scans g ink c :=
  { h.toStocks.beside y with
    reading := h.reading, size := h.size, current := h.current }

theorem seek (h : s.Scans g ink c) (seekCursor : Nat) : Scans { s with seekCursor } g ink c :=
  { { h.toTuned with } with
    key := h.key, carries := h.carries, ciphertextSize := h.ciphertextSize, ends := h.ends
    reading := h.reading, size := h.size, current := h.current }

/-- The container may stand at any position, with the chunk that holds it. -/
theorem place (h : s.Stocks g ink c) (hreading : g.mode.isAppend = false)
    (hsize : s.size = c.length) (hpos : pos ≤ c.length) {i : Nat} (hr : g.layout.Reaches i)
    (hstart : g.layout.startOf i ≤ pos) (hwithin : g.layout.Within i pos) (eofSeqnum : Nat) :
    Scans { s with
      current := some { g.chunk c i with offset := pos - g.layout.startOf i }
      cursor := pos, eofSeqnum } g ink c :=
  { { h.toTuned with } with
    key := h.key, carries := h.carries, ciphertextSize := h.ciphertextSize, ends := h.ends
    reading := hreading, size := hsize
    current := by
      rintro _ ⟨⟩
      exact ⟨rfl, hr, hstart, hwithin, hpos⟩ }

/-- **A container that is scanned moves to any position** in the content or at its end. -/
theorem moveTo_does (h : s.Scans g ink c) (hpos : pos ≤ c.length) :
    (moveTo pos 0).Does (g.layout.seqnumOf? pos = none) s
      (fun _ s' => s'.Scans g ink c ∧ s'.cursor = pos ∧ s'.seekCursor = s.seekCursor ∧
        ∃ x, s'.current = some x ∧ g.layout.seqnumOf? pos = some x.seqnum)
      (fun s' => s'.isOpen = true) := by
  have hallowed : ¬if s.mode.isAppend then pos ≠ s.size else s.size < pos := by
    rw [h.mode, h.reading, h.size]
    simpa using hpos
  cases hi : g.layout.seqnumOf? pos with
  | none =>
    -- the position is the end of the content, behind the last chunk number
    exact (h.moveTo_refused (.inr hi) rfl).mono
      (fun _ _ => False.elim) fun _ hs => hs ▸ h.isOpen
  | some i =>
    have hends := Layout.EndsIn.of_seqnumOf? hi
    have hplace : g.layout.locate? pos = some (i, pos - g.layout.startOf i) :=
      Layout.locate?_eq_some_iff.mpr ⟨hi, (Nat.add_sub_cancel' hends.start).symm⟩
    -- wherever the chunk comes from, the container then stands in it
    have harrived (eofSeqnum : Nat) :=
      place h.toStocks h.reading h.size hpos hends.reaches hends.start hends.within eofSeqnum
    -- the chunk that is asked for is the current one, or is read from the file
    by_cases hhere : ∃ x, s.current = some x ∧ x.seqnum = i
    · obtain ⟨x, hx, rfl⟩ := hhere
      refine (h.moveTo_here hallowed hx hplace).mono ?_ fun _ => id
      rintro _ _ rfl
      have hview : ({ x with offset := pos - g.layout.startOf x.seqnum } : Chunk)
          = { g.chunk c x.seqnum with offset := pos - g.layout.startOf x.seqnum } := by
        rw [(h.current x hx).eq]
        rfl
      rw [hview]
      exact ⟨harrived s.eofSeqnum, rfl, rfl, _, rfl, rfl⟩
    · refine h.moveTo_other hallowed hplace (fun x hx hnum => hhere ⟨x, hx, hnum⟩) ?_
      rintro - ⟨y, rfl⟩
      -- nothing about the file changes when a chunk is left
      have hleft : Stocks { s with current := none } g ink c :=
        { { h.toTuned with } with
          key := h.key, carries := h.carries, ciphertextSize := h.ciphertextSize, ends := h.ends }
      refine ((hleft.beside y).loadChunk_does hends.reaches (Nat.le_trans hends.start hpos) _
        (.inl rfl)).mono ?_ fun _ h' => (hleft.beside y).passesBy h' |>.isOpen
      rintro _ t ⟨rfl, hpass⟩
      rw [passesBy_beside] at hpass
      obtain ⟨z, rfl⟩ := hpass
      exact ⟨(harrived _).beside z, rfl, rfl, _, rfl, rfl⟩

/-! ## Reading

Reading goes through the content chunk by chunk, and inside a chunk by its bytes. The cursor says
how far it came, and `advance` is what one turn does to it. -/

/-- Where the content goes on, the chunk that holds the position does. -/
theorem remaining_pos (h : s.Scans g ink c) (hx : s.current = some x)
    (hnum : g.layout.seqnumOf? s.cursor = some x.seqnum) (hinside : s.cursor < c.length) :
    x.remaining ≠ 0 := by
  have hview := h.current x hx
  obtain ⟨-, -, hend, -⟩ := Layout.seqnumOf?_eq_some_iff.mp hnum
  have hstart := hview.start
  have hpart := Layout.length_part g.layout c x.seqnum
  rw [Chunk.remaining, hview.eq]
  show (g.layout.part c x.seqnum).length - (s.cursor - g.layout.startOf x.seqnum) ≠ 0
  split at hpart <;> omega

/-- Reading inside the current chunk. -/
theorem advance (h : s.Scans g ink c) (hx : s.current = some x) {n : Nat} (hn : n ≤ x.remaining) :
    x.content.slice x.offset n = c.slice s.cursor n ∧
      Scans { s with current := some { x with offset := x.offset + n }, cursor := s.cursor + n }
        g ink c := by
  have hview := h.current x hx
  have hstart := hview.start
  have hpart := Layout.length_part g.layout c x.seqnum
  obtain ⟨hcontent, hoffset⟩ : x.content = g.layout.part c x.seqnum ∧
      x.offset = s.cursor - g.layout.startOf x.seqnum := by
    rw [hview.eq]
    exact ⟨rfl, rfl⟩
  rw [Chunk.remaining, hcontent, hoffset] at hn
  have hwithin : g.layout.Within x.seqnum (s.cursor + n) := by
    have hbefore := hview.within
    unfold Layout.Within at hbefore ⊢
    split at hpart <;> omega
  -- there is more of the chunk, so the cursor stays inside the content
  have hinside : s.cursor + n ≤ c.length := by
    have hcursor := hview.inside
    split at hpart <;> omega
  have hplace : g.layout.startOf x.seqnum + (s.cursor - g.layout.startOf x.seqnum) = s.cursor :=
    Nat.add_sub_cancel' hstart
  refine ⟨?_, ?_⟩
  · rw [hcontent, hoffset, Layout.slice_part c (by rwa [hplace]), hplace]
  · have hmoved := place h.toStocks h.reading h.size hinside hview.reaches
      (Nat.le_add_right_of_le hstart) hwithin s.eofSeqnum
    have hnext : ({ x with offset := x.offset + n } : Chunk)
        = { g.chunk c x.seqnum with offset := s.cursor + n - g.layout.startOf x.seqnum } := by
      rw [hoffset, ← Nat.sub_add_comm hstart, hview.eq]
      rfl
    rw [hnext]
    exact hmoved

theorem readChunks_does (h : s.Scans g ink c) (hx : s.current = some x) {turns want : Nat}
    (hturns : want ≤ turns) {full : Prop} :
    (readChunks turns want).Does full s
      (fun data s' => data = c.slice s.cursor want ∧ s'.Scans g ink c) (fun _ => True) := by
  induction turns generalizing s x want with
  | zero =>
    -- no turn is left, and nothing is asked for any more
    obtain rfl : want = 0 := by omega
    exact Op.Does.pure ⟨by simp [Bytes.slice], h⟩
  | succ turns ih =>
    unfold readChunks
    refine Op.Does.get_bind ?_
    -- enough was read, or the content ends here
    by_cases hdone : want = 0 ∨ s.size ≤ s.cursor
    · rw [if_pos hdone]
      have hnil : c.slice s.cursor want = [] := by
        rw [← List.length_eq_zero_iff, Bytes.length_slice, ← h.size]
        omega
      exact Op.Does.pure ⟨hnil.symm, h⟩
    rw [if_neg hdone]
    obtain ⟨hwant, hinside⟩ : want ≠ 0 ∧ s.cursor < c.length := by
      rw [h.size] at hdone
      omega
    -- induction on the turns, as for chunks that are sealed
    have hhere {t : Session} {y : Chunk} (ht : t.Scans g ink c) (hy : t.current = some y)
        (hleft : y.remaining ≠ 0) (hcursor : t.cursor = s.cursor) :
        Op.Does (do
            let chunk ← active
            if chunk.remaining = 0 then return []
            else
              let s ← get
              let read := chunk.read (min want (s.size - s.cursor))
              set { s with current := some read.2, cursor := s.cursor + read.1.length }
              return read.1 ++ (← readChunks turns (want - read.1.length)))
          full t (fun data s' => data = c.slice s.cursor want ∧ s'.Scans g ink c)
          (fun _ => True) := by
      refine Op.Does.bind (active_does hy) ?_
      rintro y t ⟨rfl, rfl⟩
      rw [if_neg hleft]
      refine Op.Does.get_bind ?_
      have hlen := y.length_read (min want (t.size - t.cursor))
      generalize hread : y.read (min want (t.size - t.cursor)) = read at hlen
      obtain ⟨data, z⟩ := read
      dsimp only
      obtain ⟨hdata, hz⟩ : y.content.slice y.offset (min want (t.size - t.cursor)) = data ∧
          { y with offset := y.offset + data.length } = z := by
        simp only [Chunk.read, Prod.mk.injEq] at hread
        exact ⟨hread.1, by rw [← hread.1, hread.2]⟩
      -- a turn reads something, so the turns suffice
      replace hlen : data.length = min (min want (t.size - t.cursor)) y.remaining := hlen
      rw [ht.size] at hlen
      obtain ⟨hslice, hadvanced⟩ := ht.advance hy (n := data.length) (by omega)
      rw [hz] at hadvanced
      replace hslice : data = c.slice t.cursor data.length := by
        rw [← hslice, ← hdata, Bytes.slice_length_slice]
      refine Op.Does.set_bind rfl (Op.Does.bind (ih hadvanced rfl (by omega)) ?_)
      rintro rest s' ⟨hrest, h'⟩
      refine Op.Does.pure ⟨?_, h'⟩
      calc data ++ rest
        _ = c.slice t.cursor data.length
            ++ c.slice (t.cursor + data.length) (want - data.length) := by
          rw [hrest, ← hslice]
        _ = c.slice s.cursor want := by
          rw [Bytes.slice_append_slice, hcursor, Nat.add_sub_cancel' (by omega)]
    refine Op.Does.bind (active_does hx) ?_
    rintro x s ⟨rfl, rfl⟩
    -- the current chunk was read to its end, or it goes on here
    by_cases hleft : x.remaining = 0
    · simp only [if_pos hleft]
      refine Op.Does.bind (((h.moveTo_does (Nat.le_of_lt hinside)).mono (fun _ _ => id)
        fun _ _ => trivial).relax fun hnone => absurd hnone (h.seqnumOf?_ne_none hinside)) ?_
      rintro - t ⟨ht, hcursor, -, y, hy, hnum⟩
      rw [← hcursor] at hnum hinside
      exact hhere ht hy (ht.remaining_pos hy hnum hinside) hcursor
    · simp only [if_neg hleft]
      exact hhere h hx hleft rfl

/-- The container can be brought to any position inside the content. -/
theorem syncCursor_does (h : s.Scans g ink c) (hinside : s.seekCursor < c.length) {full : Prop} :
    syncCursor.Does full s
      (fun _ s' => s'.Scans g ink c ∧ s'.cursor = s.seekCursor ∧ ∃ x, s'.current = some x)
      (fun _ => True) := by
  unfold syncCursor
  refine Op.Does.get_bind (Op.Does.when (fun _ => ?_) fun hskip => ?_)
  · refine ((h.moveTo_does (Nat.le_of_lt hinside)).mono ?_ fun _ _ => trivial).relax
      fun hnone => absurd hnone (h.seqnumOf?_ne_none hinside)
    rintro _ s' ⟨h', hcursor, -, x, hx, -⟩
    exact ⟨h', hcursor, x, hx⟩
  · obtain ⟨hsome, hcursor⟩ : s.current.isSome ∧ s.seekCursor = s.cursor := by
      simpa [Option.ne_none_iff_isSome] using hskip
    exact ⟨h, hcursor.symm, Option.isSome_iff_exists.mp hsome⟩

/-- **Reading answers the bytes at the position,** as many as asked for if there are so many. -/
theorem read_does (h : s.Scans g ink c) (hinside : s.seekCursor < c.length) (n : Nat)
    {full : Prop} :
    (Container.read n).Does full s (fun data _ => data = c.slice s.seekCursor n)
      (fun _ => True) := by
  unfold Container.read
  by_cases hn : n = 0
  · rw [if_pos hn]
    exact Op.Does.pure (by simp [hn, Bytes.slice])
  rw [if_neg hn]
  refine Op.Does.bind h.ensureOpen_does ?_
  rintro - s rfl
  refine Op.Does.get_bind ?_
  -- scanning is allowed to read, and the position is inside the content
  simp only [h.mode, h.reading, Bool.false_eq_true, if_false]
  rw [h.size, if_neg (Nat.not_le.mpr hinside)]
  refine Op.Does.bind (h.syncCursor_does hinside) ?_
  rintro - t ⟨ht, hcursor, x, hx⟩
  refine Op.Does.bind (ht.readChunks_does hx (Nat.le_refl n)) ?_
  rintro data s' ⟨rfl, -⟩
  exact Op.Does.modify_bind rfl (Op.Does.pure (by rw [hcursor]))

theorem seek_does (h : s.Scans g ink c) (hinside : pos < c.length) {full : Prop} :
    (Container.seek pos).Does full s (fun _ s' => s'.Scans g ink c ∧ s'.seekCursor = pos)
      (fun _ => True) := by
  unfold Container.seek
  refine Op.Does.bind h.ensureOpen_does ?_
  rintro - s rfl
  refine Op.Does.get_bind ?_
  rw [if_neg (by simp [h.mode, h.reading])]
  have hsought := h.seek pos
  refine Op.Does.set_bind rfl (Op.Does.when (fun _ => ?_) fun _ => ⟨hsought, rfl⟩)
  refine ((hsought.moveTo_does (Nat.le_of_lt hinside)).mono ?_ fun _ _ => trivial).relax
    fun hnone => absurd hnone (h.seqnumOf?_ne_none hinside)
  rintro _ s' ⟨h', -, hseek, -⟩
  exact ⟨h', hseek⟩

/-- **Without faults a container that is scanned tells the content of its file.** -/
theorem tells (h : s.Scans g ink c) (hfaults : s.faults = []) : s.Tells c where
  size := by
    refine ⟨s, ?_⟩
    simp [contentSize, bind, EStateM.bind, h.isOpen, h.size]
  bytes := by
    intro _ pos hpos n
    obtain ⟨_, t, hseek, hfaults', ht, hat⟩ :=
      (h.seek_does hpos).answers hfaults not_false
    obtain ⟨_, s', hread, -, rfl⟩ :=
      (ht.read_does (hat ▸ hpos) n).answers hfaults' not_false
    refine ⟨s', ?_⟩
    simp only [bind, EStateM.bind, hseek, hread, hat]

end Scans

/-- A closed container without faults that is configured for streamed chunks, has the master key and
finds a file on the disk. -/
structure Visits (s : Session) (master : MasterKey) (path : String) (disk : Disk) : Prop where
  closed : s.handle = none
  faults : s.faults = []
  master : s.processor.master = master
  kind : s.processor.config.streaming = true
  path : s.path = path
  disk : s.disk = disk

/-- Whoever comes to a file can open it, whatever else is configured. -/
theorem Shelved.visit (h : s.Shelved m file ink c) {r : Session}
    (hr : r.Visits m.master s.path s.disk) : r.Shelved m file ink c :=
  { h with
    closed := hr.closed
    found := by rw [hr.disk, hr.path, h.found]
    there := hr.disk ▸ h.there
    master := hr.master
    kind := hr.kind
    carries := hr.disk ▸ h.carries }

namespace Shelved

/-- **Scanning a file tells the content that its header tells of.** -/
theorem scan_does (h : s.Shelved m file ink c) (hsmall : c.length < 2 ^ 62) :
    (openIn .scan).Does (m.layout.seqnumOf? c.length = none) s
      (fun _ s' => s'.Scans (h.channel .scan) ink c) (fun s' => s'.handle = none) := by
  unfold openIn
  refine Op.Does.get_bind ?_
  rw [if_neg (by simp [Container.isOpen, h.closed]), if_neg (by simp [Mode.allowsStreaming])]
  -- scanning starts at the beginning, where there is a chunk in every file
  refine launchStream_does h rfl hsmall (fun hbad => absurd hbad (by simp)) fun _ u hu => ?_
  have hstart : u.Scans (h.channel .scan) ink c :=
    { hu.stocks with
      reading := rfl, size := hu.size
      current := by simp [hu.current] }
  refine Op.Does.bind ((hstart.moveTo_does (Nat.zero_le _)).relax fun hnone => ?_) ?_
  · exact absurd (hnone.symm.trans (Layout.seqnumOf?_zero _)) (by simp)
  rintro - t ⟨ht, -⟩
  exact Op.Does.modify rfl (ht.seek 0)

/-- What is scanned is the content, if its end has a chunk number. -/
theorem scanned (h : s.Shelved m file ink c) (hfaults : s.faults = []) (hsmall : c.length < 2 ^ 62)
    (hend : m.layout.seqnumOf? c.length ≠ none) :
    ∃ s', openIn .scan s = .ok () s' ∧ s'.mode = .scan ∧ s'.Tells c := by
  obtain ⟨_, s', hrun, hfaults', h'⟩ := (h.scan_does hsmall).answers hfaults hend
  exact ⟨s', hrun, h'.mode, h'.tells hfaults'⟩

/-! ## Sizes of a closed container

A question about a closed container opens it, asks and closes again. Whether the content starts
somewhere is not asked, so `Loaded` is enough. -/

/-- What header and descriptor say can be asked of a closed container, which is closed afterwards.
-/
theorem withMetadata_does {α : Type} {x : Op α} {a : α} (h : s.Shelved m file ink c)
    (hsmall : c.length < 2 ^ 62)
    (hx : ∀ u : Session, u.Loaded (h.channel .scan) ink c → x u = .ok a u) :
    (withMetadata .scan x).Does (m.layout.seqnumOf? c.length = none) s (fun b _ => b = a)
      (fun _ => True) := by
  unfold withMetadata launchMetadata
  refine Op.Does.bind (P := fun _ u => u.Loaded (h.channel .scan) ink c) ?_ ?_
  · refine Op.Does.get_bind ?_
    rw [if_neg (by simp [Container.isOpen, h.closed])]
    exact (launchStream_does h rfl hsmall (fun _ _ hu => hu) fun hbad => absurd hbad (by simp)).mono
      (fun _ _ => id) fun _ _ => trivial
  rintro - u hu
  -- the question changes nothing
  have hanswers : x.Does (m.layout.seqnumOf? c.length = none) u (fun b t => b = a ∧ t = u)
      (fun _ => False) := Op.Does.of_eq (hx u hu) ⟨rfl, rfl⟩
  refine Op.Does.attempt_bind hanswers ?_ ?_
  · rintro _ _ ⟨rfl, rfl⟩
    obtain ⟨p, hp⟩ := hu.handle
    refine Op.Does.attempt_bind (shutOnly_does hp) ?_ ?_
    · exact fun _ _ _ => Op.Does.pure rfl
    · exact fun e t _ => Op.Raises.throw trivial
  · exact fun _ _ => False.elim

/-- **The size of the content follows from the size of the chunk data.** -/
theorem contentSize_does (h : s.Shelved m file ink c) (hsmall : c.length < 2 ^ 62) :
    contentSize.Does (m.layout.seqnumOf? c.length = none) s (fun n _ => n = c.length)
      (fun _ => True) := by
  unfold contentSize
  refine Op.Does.get_bind ?_
  rw [if_neg (by simp [Container.isOpen, h.closed])]
  exact h.withMetadata_does hsmall fun u hu => by
    simp [bind, EStateM.bind, hu.size]

/-- Used are header and descriptor, the content, and a nonce for each chunk. -/
theorem usedSize_does (h : s.Shelved m file ink c) (hsmall : c.length < 2 ^ 62) :
    usedSize.Does (m.layout.seqnumOf? c.length = none) s
      (fun n _ => n = m.dataOffset + c.length
        + Salsa20.nonceSize * m.layout.chunksFor c.length) (fun _ => True) := by
  unfold usedSize
  refine Op.Does.get_bind ?_
  rw [if_neg (by simp [Container.isOpen, h.closed])]
  exact h.withMetadata_does hsmall fun u hu => by
    have heof := hu.stocks.eofPos_eq
    simp only [bind, EStateM.bind, Op.get_run, Op.pure_run, heof]
    rfl

end Shelved

end Session

end Vault
