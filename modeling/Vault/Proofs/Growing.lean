import Vault.Proofs.Lengthening

/-!
# `Vault/Proofs/Growing.lean` — the end moves with what is added

Adding data takes a turn for each chunk that it goes to: room is made at the end, then the current
chunk takes as much as there is room for. **Whatever fails, the size has grown by a leading part of
the data, and the cursor has gone with it** (`writeAll_extends`). The position asked for has not, so
it stays behind unless the call goes on to its end.

What holds at any time is `Session.Extends`: how long the content is, where the position is, and
what is current at its end. Each function here keeps it with a longer content, whether or not it
answers. A failure to seek is told apart from other failures, because it means that a chunk in front
of the end is not stored as a whole (`Session.Stuck`).
-/

set_option autoImplicit false

namespace Vault

variable {s : Session} {l : Layout} {b : Bool} {x : Chunk} {n pos : Nat}

/-- At the end of a chunk all of the data is new. -/
theorem Chunk.Tops.write {size eofPos : Nat} (h : x.Tops b l size eofPos) (data : Bytes) :
    x.write data = (data.length,
      { x with content := x.content ++ data, offset := x.offset + data.length }) := by
  rw [Chunk.write, h.offset, Bytes.overlay_length, List.length_append, Nat.add_sub_cancel_left]

namespace Session

/-- Behind a chunk without room the next one begins. -/
theorem Extends.startOf_succ (h : s.Extends l b (some x) n pos)
    (hfull : x.available = some 0) : l.startOf (x.seqnum + 1) = n := by
  obtain ⟨hlast, htops⟩ := h.tops x rfl
  have hwithin := h.ends.within
  have hsize := htops.size
  rw [Chunk.available, htops.offset, htops.maxSize] at hfull
  rw [Layout.Within, ← hlast] at hwithin
  rw [Layout.startOf_succ]
  split at hfull
  · exact absurd hfull (by simp)
  · have hroom := Option.some.inj hfull
    omega

/-- The end moves with what is added to the current chunk, which is dirty then. -/
theorem Extends.append (h : s.Extends l b (some x) n pos) {data : Bytes}
    (hroom : ∀ room, x.available = some room → data.length ≤ room) (sizeDirty : Bool) :
    Extends l b (some { x with
        content := x.content ++ data, offset := x.offset + data.length, dirty := true })
      (n + data.length) pos { s with
        current := some { x with
          content := x.content ++ data, offset := x.offset + data.length, dirty := true }
        size := s.size + data.length
        sizeDirty
        cursor := s.cursor + data.length } := by
  obtain ⟨hlast, htops⟩ := h.tops x rfl
  have hsize := htops.size
  have hlen : (x.content ++ data).length = x.content.length + data.length := List.length_append
  have hwithin : l.Within x.seqnum (n + data.length) := by
    have hwithin : l.Within x.seqnum n := hlast ▸ h.ends.within
    by_cases hcap : l.capacity x.seqnum = 0
    · -- a bounded chunk has as much room as its capacity leaves, and the data fit in there
      exact .inl hcap
    · have hle := hwithin.resolve_left hcap
      have hroom := hroom (l.capacity x.seqnum - x.content.length)
        (by rw [Chunk.available, htops.maxSize, htops.offset, if_neg hcap])
      exact .inr (by omega)
  refine { h with
    le := Nat.le_add_right_of_le h.le
    size := congrArg (· + data.length) h.size
    cursor := congrArg (· + data.length) h.cursor
    current := rfl
    ends := ⟨h.ends.reaches, h.ends.numbered, Nat.le_add_right_of_le h.ends.start, hlast ▸ hwithin⟩
    absent := by simp
    tops := ?_ }
  rintro _ ⟨⟩
  refine ⟨hlast, { htops with
    offset := ?_, size := ?_, sealed := fun hb => ⟨?_, by simp⟩, streamed := fun hb => ⟨?_, ?_⟩ }⟩
  · show x.offset + data.length = (x.content ++ data).length
    rw [hlen, htops.offset]
  · show n + data.length = l.startOf x.seqnum + (x.content ++ data).length
    omega
  · exact hlen ▸ Nat.le_trans (htops.sealed hb).1 (by omega)
  · exact hlen ▸ Nat.le_add_right_of_le (htops.streamed hb).1
  · exact (htops.streamed hb).2

/-- A streamed chunk takes what was encrypted in the file. -/
theorem Extends.streamedOut (h : s.Extends l true (some x) n pos) {data : Bytes}
    (hdata : data.length = (if x.ciphertextSize = 0 then Salsa20.nonceSize else 0)
      + (x.content.length - x.streamed)) :
    Extends l true (some { x with
        ciphertextSize := x.ciphertextSize + data.length, streamed := x.content.length }) n pos
      { s with
        ciphertextSize := s.ciphertextSize + data.length
        sizeDirty := true
        current := some { x with
          ciphertextSize := x.ciphertextSize + data.length, streamed := x.content.length } } := by
  obtain ⟨hlast, htops⟩ := h.tops x rfl
  have heof := htops.eofPos
  obtain ⟨hle, hstored⟩ := htops.streamed rfl
  refine { h with current := rfl, absent := by simp, tops := ?_ }
  rintro _ ⟨⟩
  refine ⟨hlast, { htops with
    eofPos := ?_, sealed := by simp, streamed := fun _ => ⟨Nat.le_refl _, .inr ?_⟩ }⟩
  · show s.layout.dataOffset + (s.ciphertextSize + data.length)
      = l.rawStartOf x.seqnum + (x.ciphertextSize + data.length)
    rw [Container.eofPos] at heof
    omega
  · show x.ciphertextSize + data.length = Salsa20.nonceSize + x.content.length
    split at hdata <;> omega

end Session

namespace Container

open Session

variable {s t : Session} {l : Layout} {b : Bool} {x? : Option Chunk} {x : Chunk} {n pos : Nat}

/-! ## Making room

There is always room at the end: in the chunk that is current, or in the one behind it. Going to
the next chunk writes the one that is left, so this is where adding can fail before anything was
added. -/

/-- A container that is added to moves nowhere else. -/
theorem moveTo_elsewhere (h : s.Extends l b x? n pos) {p : Nat} (hp : p ≠ n) (overwrite : Nat) :
    moveTo p overwrite s = .error (.invalidSeek p n) s := by
  simp [moveTo, ensureOpen, bind, EStateM.bind, h.isOpen, h.appending, h.size, hp]

/-- The position asked for is the end, or it cannot be reached. -/
theorem syncCursor_elsewhere (h : s.Extends l b x? n pos) (hpos : pos ≠ n) :
    syncCursor s = .error (.invalidSeek pos n) s := by
  have hmoves : (s.current.isNone || pos != s.cursor) = true := by simp [h.cursor, hpos]
  have hrefused := moveTo_elsewhere h hpos 0
  simp only [syncCursor, bind, EStateM.bind, Op.get_run, h.seekCursor, hmoves, if_true, hrefused]

theorem syncCursor_extends (h : s.Extends l b x? n n) :
    syncCursor.Ends s
      (fun _ t => ∃ y, t.Extends l b (some y) n n ∧ y.content <:+ s.tail)
      fun e t => (e.isSeek = true → t.Stuck) ∧ ∃ y?, t.Extends l b y? n n ∧ t.tail <:+ s.tail := by
  unfold syncCursor
  refine Op.Ends.get_bind (Op.Ends.ite (fun _ => ?_) fun hstays => ?_)
  · rw [h.seekCursor]
    exact moveTo_extends h 0
  · cases x? with
    | none => exact absurd (by simp [h.current]) hstays
    | some x => exact ⟨x, h, h.tail_eq ▸ List.suffix_refl _⟩

theorem active_extends (h : s.Extends l b (some x) n pos) : active s = .ok x s := by
  simp [active, bind, EStateM.bind, h.current]

/-- There is room at the end, in the current chunk or in the next one. -/
theorem roomAtCursor_extends (h : s.Extends l b (some x) n pos) (remaining : Nat) :
    (roomAtCursor remaining).Ends s
      (fun room t => ∃ y, t.Extends l b (some y) n pos ∧ y.content <:+ x.content ∧
        room = y.available ∧ room ≠ some 0)
      fun e t => (e.isSeek = true → t.Stuck) ∧
        ∃ y?, t.Extends l b y? n pos ∧ t.tail <:+ x.content := by
  have hstays {e : Error} (he : e.isSeek = false) {t : Session} {y : Chunk}
      (ht : t.Extends l b (some y) n pos) (hy : y.content <:+ x.content) :
      (e.isSeek = true → t.Stuck) ∧ ∃ y?, t.Extends l b y? n pos ∧ t.tail <:+ x.content :=
    ⟨fun hbad => absurd (hbad.symm.trans he) (by simp), some y, ht, ht.tail_eq ▸ hy⟩
  have hactive {t : Session} {y : Chunk} (ht : t.Extends l b (some y) n pos)
      {err : Error → Session → Prop} : active.Ends t (fun z u => z = y ∧ u = t) err := by
    unfold Op.Ends
    rw [active_extends ht]
    exact ⟨rfl, rfl⟩
  unfold roomAtCursor
  refine Op.Ends.bind (hactive h) ?_
  rintro _ _ ⟨rfl, rfl⟩
  refine Op.Ends.ite (fun hfull => ?_) fun hroom => ⟨_, h, List.suffix_refl _, rfl, hroom⟩
  refine Op.Ends.unless (fun _ => hstays rfl h (List.suffix_refl _)) fun _ => Op.Ends.get_bind ?_
  rw [h.layout, h.startOf_succ hfull]
  refine Op.Ends.bind ((moveTo_extends h remaining).mono (fun _ _ => id) ?_) ?_
  · exact fun e t ht => h.tail_eq ▸ ht
  rintro _ t ⟨y, ht, hy⟩
  rw [h.tail_eq] at hy
  refine Op.Ends.bind (hactive ht) ?_
  rintro _ _ ⟨rfl, rfl⟩
  exact Op.Ends.unless (fun _ => hstays rfl ht hy) fun hroom => ⟨_, ht, hy, rfl, hroom⟩

/-! ## Adding

What was taken up by the current chunk is counted, even if it could not be stored. So after a
failure the size is in front of what the file has, and the next attempt starts behind the part
that was counted. -/

/-- Adding what is not yet stored of a streamed chunk. -/
theorem streamOut_extends (h : s.Extends l true (some x) n pos) :
    (streamOut x).Ends s
      (fun y t => y.content = x.content ∧
        Extends l true (some y) n pos { t with current := some y })
      fun e t => e.isSeek = false ∧ t.Extends l true (some x) n pos := by
  have hI := ambient_extends l true (some x) n pos
  unfold streamOut
  refine Op.Ends.bind (rawPosOf_extends h) fun raw t ht => ?_
  refine Op.Ends.bind ((prepareStream_keeps hI (fun _ h => { h with }) (fun _ h => { h with })
    (fun stream h => h.withStream stream) x raw).finding (prepareStream_finds x raw) ht) ?_
  rintro lead u ⟨hlead, hu⟩
  refine Op.Ends.modify_bind (Op.Ends.get_bind ?_)
  have hnoted : Extends l true (some x) n pos
      { u with trace := .streamed (x.content.drop x.streamed).length :: u.trace } := { hu with }
  refine Op.Ends.bind (P := fun made v => made.1.length = x.content.length - x.streamed ∧
    Extends l true (some x) n pos { v with processor := made.2 }) ?_ ?_
  · -- a failure up to the encryption leaves nothing of the data in the chunk data
    refine Op.Ends.ofExcept ?_ ?_
    · intro made hmade
      obtain ⟨hlen, stream, hstream⟩ := Processor.stream_of_encryptStream hmade
      refine ⟨hlen.trans List.length_drop, ?_⟩
      rw [hstream]
      exact hnoted.withStream stream
    · exact fun e he => ⟨Processor.encryptStream_finds _ he, hnoted⟩
  rintro ⟨ciphertext, p⟩ v ⟨hlen, hv⟩
  refine Op.Ends.modify_bind ?_
  refine Op.Ends.bind ((cutTail_extends _).finding (cutTail_finds _) hv) ?_
  rintro - v ⟨-, hv⟩
  refine Op.Ends.bind ((writeAt_extends _ _).finding (writeAt_finds _ _) hv) ?_
  rintro - v ⟨-, hv⟩
  exact ⟨rfl, hv.streamedOut (by rw [List.length_append, hlead, hlen])⟩

/-- The current chunk takes what there is room for. -/
theorem writeCurrent_extends (h : s.Extends l b (some x) n pos) {data : Bytes} (hdata : data ≠ [])
    (hroom : ∀ room, x.available = some room → data.length ≤ room) :
    (writeCurrent data).Ends s
      (fun _ t => ∃ y, y.content = x.content ++ data ∧
        t.Extends l b (some y) (n + data.length) pos)
      fun e t => e.isSeek = false ∧ ∃ y, y.content = x.content ++ data ∧
        t.Extends l b (some y) (n + data.length) pos := by
  obtain ⟨hlast, htops⟩ := h.tops x rfl
  have hgrows : x.seqnum = s.eofSeqnum ∧ 0 < data.length :=
    ⟨hlast, List.length_pos_iff.mpr hdata⟩
  have hactive {t : Session} {y : Chunk} (ht : t.Extends l b (some y) (n + data.length) pos)
      {err : Error → Session → Prop} : active.Ends t (fun z u => z = y ∧ u = t) err := by
    unfold Op.Ends
    rw [active_extends ht]
    exact ⟨rfl, rfl⟩
  unfold writeCurrent
  refine Op.Ends.bind (P := fun z t => z = x ∧ t = s) ?_ ?_
  · unfold Op.Ends
    rw [active_extends h]
    exact ⟨rfl, rfl⟩
  rintro x s ⟨rfl, rfl⟩
  rw [htops.write data]
  refine Op.Ends.modify_bind (Op.Ends.get_bind ?_)
  simp only [if_pos hgrows]
  have happended := h.append hroom
    (s.sizeDirty || decide (x.seqnum = s.eofSeqnum ∧ 0 < data.length))
  refine Op.Ends.ite (fun hkind => ?_) fun _ => ⟨_, rfl, happended⟩
  obtain rfl : true = b := hkind.symm.trans happended.kind
  refine Op.Ends.bind (hactive happended) ?_
  rintro _ _ ⟨rfl, rfl⟩
  refine Op.Ends.bind ((streamOut_extends happended).mono (fun _ _ => id) ?_) ?_
  · exact fun e t ht => ⟨ht.1, _, rfl, ht.2⟩
  · exact fun y t ht => ⟨y, ht.1, ht.2⟩

/-- **Adding moves the end by what was added,** and by a leading part of the data if it fails. -/
theorem writeChunks_extends (turns : Nat) {data : Bytes} (h : s.Extends l b (some x) n pos)
    (hturns : data.length ≤ turns) :
    (writeChunks turns data).Ends s
      (fun _ t => ∃ y, t.Extends l b (some y) (n + data.length) pos ∧
        y.content <:+ x.content ++ data)
      fun e t => (e.isSeek = true → t.Stuck) ∧ ∃ placed y?, placed <+: data ∧
        t.Extends l b y? (n + placed.length) pos ∧ t.tail <:+ x.content ++ placed := by
  have hdone {s : Session} {x : Chunk} {n : Nat} (h : s.Extends l b (some x) n pos) :
      ∃ y, s.Extends l b (some y) (n + ([] : Bytes).length) pos ∧ y.content <:+ x.content ++ [] :=
    ⟨x, h, List.append_nil _ ▸ List.suffix_refl _⟩
  -- on the turns, with what is still to be added; each turn adds at least one byte
  induction turns generalizing s x n data with
  | zero =>
    obtain rfl := List.eq_nil_of_length_eq_zero (Nat.le_zero.mp hturns)
    exact hdone h
  | succ turns ih =>
    unfold writeChunks
    refine Op.Ends.ite (fun hdata => ?_) fun hnil => ?_
    · refine Op.Ends.bind ((roomAtCursor_extends h data.length).mono (fun _ _ => id) ?_) ?_
      · rintro e t ⟨hseek, y?, ht, htail⟩
        exact ⟨hseek, [], y?, List.nil_prefix, ht, by rwa [List.append_nil]⟩
      rintro room t ⟨y, ht, hy, rfl, hroom⟩
      have step {len : Nat} (hpos : 0 < len) (hle : len ≤ data.length)
          (hfits : ∀ room, y.available = some room → len ≤ room) :
          Op.Ends (do writeCurrent (data.take len); writeChunks turns (data.drop len)) t
            (fun _ t => ∃ y, t.Extends l b (some y) (n + data.length) pos ∧
              y.content <:+ x.content ++ data)
            fun e t => (e.isSeek = true → t.Stuck) ∧ ∃ placed y?, placed <+: data ∧
              t.Extends l b y? (n + placed.length) pos ∧ t.tail <:+ x.content ++ placed := by
        -- how far the end of the content goes back: into what there was, and into the data added
        have hlen : (data.take len).length = len := List.length_take_of_le hle
        have hhead : data.take len ≠ [] := List.length_pos_iff.mp (hlen.symm ▸ hpos)
        have hgoes {z : Chunk} (hz : z.content = y.content ++ data.take len) (rest : Bytes) :
            z.content ++ rest <:+ x.content ++ (data.take len ++ rest) := by
          obtain ⟨front, hfront⟩ := hy
          exact ⟨front, by rw [hz, ← hfront]; simp⟩
        refine Op.Ends.bind ((writeCurrent_extends ht hhead (hlen.symm ▸ hfits)).mono
          (fun _ _ => id) ?_) ?_
        · rintro e u ⟨he, z, hz, hu⟩
          refine ⟨fun hbad => absurd (hbad.symm.trans he) (by simp), _, some z,
            List.take_prefix len data, hu, ?_⟩
          rw [hu.tail_eq]
          simpa using hgoes hz []
        rintro - u ⟨z, hz, hu⟩
        have hrest : n + (data.take len).length + (data.drop len).length = n + data.length := by
          rw [hlen, List.length_drop]
          omega
        refine (ih hu (by rw [List.length_drop]; omega)).mono ?_ ?_
        · rintro - v ⟨w, hv, hw⟩
          rw [hrest] at hv
          have hall := hw.trans (hgoes hz _)
          rw [List.take_append_drop] at hall
          exact ⟨w, hv, hall⟩
        · rintro e v ⟨hseek, placed, w?, hplaced, hv, htail⟩
          refine ⟨hseek, data.take len ++ placed, w?, ?_, ?_, htail.trans (hgoes hz _)⟩
          · obtain ⟨behind, hbehind⟩ := hplaced
            exact ⟨behind, by rw [List.append_assoc, hbehind, List.take_append_drop]⟩
          · rwa [List.length_append, ← Nat.add_assoc]
      have hpos := List.length_pos_iff.mpr hdata
      -- an unbounded chunk takes all of the data, a bounded one as much as it has room for
      cases havailable : y.available with
      | none => exact step hpos (Nat.le_refl _) (by simp [havailable])
      | some room =>
        have hsome : 0 < room := Nat.pos_of_ne_zero fun hzero => hroom (hzero ▸ havailable)
        refine step (Nat.lt_min.mpr ⟨hsome, hpos⟩) (Nat.min_le_right _ _) fun _ h => ?_
        obtain rfl := Option.some.inj (havailable.symm.trans h)
        exact Nat.min_le_left _ _
    · obtain rfl : data = [] := Classical.not_not.mp hnil
      exact hdone h

/-- Writing all of the data. -/
theorem writeAll_extends (data : Bytes) (h : s.Extends l b (some x) n pos) :
    (writeAll data).Ends s
      (fun _ t => ∃ y, t.Extends l b (some y) (n + data.length) pos ∧
        y.content <:+ x.content ++ data)
      fun e t => (e.isSeek = true → t.Stuck) ∧ ∃ placed y?, placed <+: data ∧
        t.Extends l b y? (n + placed.length) pos ∧ t.tail <:+ x.content ++ placed :=
  writeChunks_extends data.length h (Nat.le_refl _)

end Container

end Vault
