import Vault.Proofs.StreamChunks

/-!
# `Vault/Proofs/StreamMoving.lean` — where the next byte goes

A container that is added to moves to its end and nowhere else. When the current chunk is full, that
is the start of the next one. **Moving loses nothing that is stored;** but a chunk of which a part
was never stored cannot be come back to, and then the end cannot be moved to any more.
-/

set_option autoImplicit false

namespace Vault.Session.Streams

open Container

variable {s s' : Session} {g : Channel} {ink : Ink} {c d data : Bytes} {x : Chunk} {i : Nat}
  {full : Prop}

/-! ## Leaving a chunk and coming to one

Leaving asks nothing of the chunk that is left, since what is stored of it is in the file. Coming
to a chunk asks that everything in front of it is stored: only then is the chunk in the file what
the content says. -/

/-- Whether the current chunk counts as written does not matter. -/
theorem mark (h : s.Streams g ink c d) (hx : s.current = some x) (dirty : Bool) :
    Streams { s with current := some { x with dirty } } g ink c d :=
  { { h.toTuned with } with
    appending := h.appending, key := h.key, carries := h.carries, trail := h.trail
    ciphertextSize := h.ciphertextSize, size := h.size, grows := h.grows
    seekCursor := h.seekCursor, ends := h.ends, absent := by simp, stream := h.stream
    current := by
      rintro _ ⟨⟩
      exact { h.current x hx with } }

/-- The current chunk can be left when the end lies in another one. -/
theorem leave (h : s.Streams g ink c d) (hi : g.layout.seqnumOf? c.length = some i)
    (hother : ∀ x, s.current = some x → x.seqnum ≠ i) :
    Streams { s with current := none } g ink c d :=
  { { h.toTuned with } with
    appending := h.appending, key := h.key, carries := h.carries, trail := h.trail
    ciphertextSize := h.ciphertextSize, size := h.size, grows := h.grows
    seekCursor := h.seekCursor, ends := h.ends, current := by simp, stream := h.stream
    absent := by
      intro _ j hj
      obtain rfl := Option.some.inj (hi.symm.trans hj)
      cases hx : s.current with
      | none => exact h.absent hx i hi
      | some x =>
        have hends := h.ends
        rw [← (h.current x hx).seqnum] at hends
        -- the end lies behind the current chunk, so that one was full and its number was the last
        obtain rfl | ⟨-, hstart⟩ := hends.next hi
        · exact absurd rfl (hother x hx)
        · rw [hstart]
          -- the file may lack the end of the chunk that is left; it is not read again
          rcases Nat.lt_or_eq_of_le h.grows.length_le with hlt | heq
          · exact .inr hlt
          · exact .inl ⟨h.grows.eq_of_length heq, .inr rfl⟩ }

/-- The chunk at the end, as it is in the file. -/
theorem enter (h : s.Streams g ink c c) (hi : g.layout.seqnumOf? c.length = some i) :
    Streams { s with
      current := some { g.chunk c i with offset := c.length - g.layout.startOf i }
      cursor := c.length
      eofSeqnum := i } g ink c c := by
  have hends := Layout.EndsIn.of_seqnumOf? hi
  have hpart := Layout.length_part_of_within hends.within
  have hstart := hends.start
  exact
    { { h.toTuned with } with
      appending := h.appending, key := h.key, carries := h.carries, trail := h.trail
      ciphertextSize := h.ciphertextSize, size := h.size, grows := h.grows
      seekCursor := h.seekCursor, ends := hends, absent := by simp, stream := h.stream
      current := by
        rintro _ ⟨⟩
        -- what was read of the chunk is its part of the content, up to the end
        refine ⟨rfl, rfl, hpart.symm, rfl, rfl, ?_, rfl⟩
        show c.length = g.layout.startOf i + (g.layout.part c i).length
        omega }

/-- The stream is not that of a chunk that was come to, unless nothing of it is stored. -/
theorem inStep_enter (h : s.Streams g ink c c) (hnone : s.current = none)
    (hi : g.layout.seqnumOf? c.length = some i) (cursor eofSeqnum offset : Nat) :
    InStep { s with current := some { g.chunk c i with offset }, cursor, eofSeqnum } := by
  have hpart := Layout.length_part_of_within (Layout.EndsIn.of_seqnumOf? hi).within
  rintro _ e ⟨⟩ he - hsome
  rcases h.absent hnone i hi with ⟨-, hstream | hstart⟩ | hlt
  · exact absurd (he.symm.trans hstream) (by simp)
  · refine absurd (if_pos ?_) hsome
    rw [hpart, hstart, Nat.sub_self]
  · have hle := (Layout.EndsIn.of_seqnumOf? hi).start
    omega

/-! ## Moving to the end

The only position that is not refused is the size. It may lie in the current chunk, in the next
one, or in none at all, when there are no numbers left. -/

/-- In the chunk that holds the end there is nowhere to move to. -/
theorem moveTo_end (h : s.Streams g ink c d) (hx : s.current = some x)
    (hi : g.layout.seqnumOf? c.length = some x.seqnum) (overwrite : Nat) {err : Session → Prop} :
    (moveTo c.length overwrite).Does full s (fun _ s' => s' = s) err := by
  have hheads := h.current x hx
  have hends := Layout.EndsIn.of_seqnumOf? hi
  have hplace : g.layout.locate? c.length = some (x.seqnum, x.offset) := by
    refine Layout.locate?_eq_some_iff.mpr ⟨hi, ?_⟩
    have hpart := Layout.length_part_of_within hends.within
    have hstart := hends.start
    rw [hheads.offset, hheads.content]
    omega
  -- the place inside the chunk is what it was
  have hsame :
      { s with current := some { x with offset := x.offset }, cursor := c.length } = s := by
    rw [← hx, ← hheads.cursor]
  refine (h.moveTo_here ?_ hx hplace).mono (fun _ _ hs => hs.trans hsame) fun _ => id
  rw [h.mode, h.appending, if_pos rfl, h.size]
  exact not_not_intro rfl

/-- **The next chunk can be come to** if what is in front of it is stored. -/
theorem moveTo_next (h : s.Streams g ink c d) (hi : g.layout.seqnumOf? c.length = some i)
    (hother : ∀ x, s.current = some x → x.seqnum ≠ i) (overwrite : Nat) :
    (moveTo c.length overwrite).Does (d ≠ c) s
      (fun _ s' => s'.Streams g ink c d ∧ s'.InStep ∧ s'.processor = s.processor ∧
        s'.seekCursor = s.seekCursor ∧ ∃ x, s'.current = some x ∧ x.seqnum = i)
      (fun s' => s'.Streams g ink c d) := by
  have hends := Layout.EndsIn.of_seqnumOf? hi
  have hstart := hends.start
  have hplace : g.layout.locate? c.length = some (i, c.length - g.layout.startOf i) :=
    Layout.locate?_eq_some_iff.mpr ⟨hi, by omega⟩
  have hleft := h.leave hi hother
  refine h.moveTo_other ?_ hplace hother ?_
  · rw [h.mode, h.appending, if_pos rfl, h.size]
    exact not_not_intro rfl
  rintro - ⟨y, rfl⟩
  have hu := hleft.beside y
  -- all of the content is stored, or something in front of the chunk is missing
  rcases hleft.absent rfl i hi with ⟨rfl, -⟩ | hlt
  · have hlast : s.eofSeqnum ≤ i := by
      obtain rfl | ⟨rfl, -⟩ := h.ends.next hi
      · exact Nat.le_refl _
      · exact Nat.le_succ _
    -- no chunk behind this one can be asked for, so its bytes have to be read
    refine (hu.stocks.loadChunk_does hends.reaches hstart _ (.inr hlast)).mono ?_ fun _ h' =>
      hu.passesBy h'
    rintro _ - ⟨rfl, z, rfl⟩
    have heof : max s.eofSeqnum i = i := Nat.max_eq_right hlast
    simp only [beside_beside, eofSeqnum_beside, heof]
    exact ⟨(hleft.enter hi).beside z, hleft.inStep_enter rfl hi _ _ _, rfl, rfl, _, rfl, rfl⟩
  · have hne : d ≠ c := by
      rintro rfl
      omega
    -- its place would lie behind the chunk data, and looking it up fails without a fault
    exact (hu.stocks.loadChunk_refused hends.reaches hlt _ _ hne).mono (fun _ _ => False.elim)
      fun _ h' => hu.passesBy h'

/-- **A container that is added to moves to its end.** -/
theorem moveTo_does (h : s.Streams g ink c d) (pos overwrite : Nat) :
    (moveTo pos overwrite).Does (pos ≠ c.length ∨ d ≠ c ∨ g.layout.seqnumOf? c.length = none) s
      (fun _ s' => pos = c.length ∧ s'.Streams g ink c d ∧ s.Rests s' g d ∧
        s'.processor = s.processor ∧ s'.seekCursor = s.seekCursor ∧
        ∃ x, s'.current = some x ∧ g.layout.seqnumOf? c.length = some x.seqnum)
      (fun s' => s'.Streams g ink c d) := by
  by_cases hpos : pos = c.length
  case neg =>
    -- a position that is not the size is refused before anything is done
    refine (h.moveTo_refused (.inl ?_) (.inl hpos)).mono
      (fun _ _ => False.elim) fun _ hs => hs ▸ h
    rwa [h.mode, h.appending, if_pos rfl, h.size]
  subst hpos
  cases hi : g.layout.seqnumOf? c.length with
  | none =>
    exact (h.moveTo_refused (.inr hi) (.inr (.inr rfl))).mono
      (fun _ _ => False.elim) fun _ hs => hs ▸ h
  | some i =>
    by_cases hhere : ∃ x, s.current = some x ∧ x.seqnum = i
    · obtain ⟨x, hx, rfl⟩ := hhere
      refine (h.moveTo_end hx hi overwrite).mono ?_ fun _ => id
      rintro _ _ rfl
      exact ⟨rfl, h, Rests.refl _ g d, rfl, rfl, x, hx, rfl⟩
    · have hother (x : Chunk) (hx : s.current = some x) : x.seqnum ≠ i :=
        fun hnum => hhere ⟨x, hx, hnum⟩
      -- moving encrypts nothing and writes nothing, which the frame lemma adds to what is known
      have hF := ledger_frame (Nat.le_add_right Header.size g.metadata.descriptor.length)
        (s.ledger g.metadata.dataOffset)
      refine (((h.moveTo_next hi hother overwrite).keeping (moveTo_keeps hF _ _)
        ⟨rfl, h.streaming⟩).relax fun hne => .inr (.inl hne)).mono ?_ fun _ h' => h'.1
      rintro _ s' ⟨⟨h', hstep, hprocessor, hseek, x, hx, rfl⟩, hledger, -⟩
      refine ⟨rfl, h', ⟨fun _ => hstep, fun hs => ?_⟩, hprocessor, hseek, x, hx, rfl⟩
      exact hs.of_eq hledger (h'.ciphertextSize.trans h.ciphertextSize.symm)
        (.inl (by rw [hprocessor]))

theorem syncCursor_does (h : s.Streams g ink c d) :
    syncCursor.Does
      (s.seekCursor ≠ c.length ∨ d ≠ c ∨ g.layout.seqnumOf? c.length = none) s
      (fun _ s' => s'.Streams g ink c d ∧ s.Rests s' g d ∧ ∃ x, s'.current = some x)
      (fun s' => s'.Streams g ink c d) := by
  unfold syncCursor
  refine Op.Does.get_bind (Op.Does.when (fun _ => ?_) fun hskip => ?_)
  · refine (h.moveTo_does s.seekCursor 0).mono ?_ fun _ => id
    rintro _ s' ⟨-, h', hrests, -, -, x, hx, -⟩
    exact ⟨h', hrests, x, hx⟩
  · obtain ⟨hsome, -⟩ : s.current.isSome ∧ s.seekCursor = s.cursor := by
      simpa [Option.ne_none_iff_isSome] using hskip
    exact ⟨h, Rests.refl s g d, Option.isSome_iff_exists.mp hsome⟩

end Vault.Session.Streams
