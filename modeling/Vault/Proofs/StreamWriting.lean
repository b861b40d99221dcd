import Vault.Proofs.StreamMoving
import Vault.Proofs.StreamOut

/-!
# `Vault/Proofs/StreamWriting.lean` — adding to streamed chunks

Writing places data behind what was placed, in as many chunks as it takes, and stores it as it goes.
**A write that answers stored everything, and one that fails stored the start of what was placed.**
Growing is writing zeros; nothing else changes what is stored.
-/

set_option autoImplicit false

namespace Vault.Session.Streams

open Container

variable {s s' : Session} {g : Channel} {ink : Ink} {c d data : Bytes} {x : Chunk} {i : Nat}
  {full : Prop}

/-! ## Writing into the current chunk

Data goes into memory first and to the file at once. If the second step fails, the data is placed
and not stored: the error case keeps `d` and moves on with `c ++ data`. -/

/-- Data written into the current chunk is placed. -/
theorem written (h : s.Streams g ink c d) (hx : s.current = some x) (hdata : data ≠ [])
    (hroom : g.layout.Within x.seqnum (c.length + data.length)) :
    (s.written x data).Streams g ink (c ++ data) d := by
  have hheads := h.current x hx
  have hends := h.ends
  rw [← hheads.seqnum] at hends
  have hpos := List.length_pos_iff.mpr hdata
  have hlength : (c ++ data).length = c.length + data.length := List.length_append
  -- the cursor is at the end of the chunk, so that what is written is appended
  have hcontent : x.content.overlay x.offset data = x.content ++ data := by
    rw [hheads.offset, Bytes.overlay_length]
  have hgrown : (x.write data).1 = data.length := by
    simp only [Chunk.write, hcontent, List.length_append, Nat.add_sub_cancel_left]
  have hpart : g.layout.part (c ++ data) x.seqnum = x.content ++ data := by
    rw [hheads.content, Layout.part_eq_drop hends.within,
      Layout.part_eq_drop (hlength ▸ hroom), List.drop_append_of_le_length hends.start]
  have hcurrent : (s.written x data).current
      = some { (x.write data).2 with dirty := true } := rfl
  exact
    { { h.toTuned with } with
      appending := h.appending, key := h.key
      carries := by
        obtain ⟨told, rest, hcarries, hcut, -⟩ := h.carries
        refine ⟨told, rest, hcarries, hcut, fun hclean => ?_⟩
        -- something was written into the last chunk, so the sizes count as changed
        simp [Session.written, hheads.seqnum, hgrown, hpos] at hclean
      trail := h.trail.grow (by
        show s.size ≤ if x.seqnum = s.eofSeqnum ∧ 0 < (x.write data).1 then _ else s.size
        split <;> omega)
      ciphertextSize := h.ciphertextSize
      size := by
        show (if x.seqnum = s.eofSeqnum ∧ 0 < (x.write data).1 then s.size + (x.write data).1
          else s.size) = _
        rw [hgrown, if_pos ⟨hheads.seqnum, hpos⟩, h.size, hlength]
      grows := h.grows.trans (List.prefix_append c data)
      seekCursor := by
        rw [hlength]
        exact Nat.le_add_right_of_le h.seekCursor
      ends := by
        show g.layout.EndsIn s.eofSeqnum _
        rw [← hheads.seqnum]
        exact { hends with
          start := by
            have hstart := hends.start
            omega
          within := hlength ▸ hroom }
      -- the chunk that was written into is current
      absent := by simp [hcurrent]
      stream := h.stream
      current := by
        rintro _ ⟨⟩
        refine ⟨hheads.seqnum, ?_, ?_, hheads.maxSize, ?_, hheads.stored, hheads.ciphertextSize⟩
        · show x.content.overlay x.offset data = _
          rw [hcontent]
          exact hpart.symm
        · show x.offset + data.length = (x.content.overlay x.offset data).length
          rw [hcontent, hheads.offset, List.length_append]
        · show s.cursor + data.length = _
          rw [hheads.cursor, hlength] }

/-- **What is written into the current chunk is stored at once,** with all that was placed before.
-/
theorem writeCurrent_does (h : s.Streams g ink c d) (hx : s.current = some x) (hstep : s.InStep)
    (hdata : data ≠ []) (hroom : g.layout.Within x.seqnum (c.length + data.length)) :
    (writeCurrent data).Does full s
      (fun _ s' => s.Flows s' g ink d (c ++ data) ∧ ∃ y, s'.current = some y)
      (fun s' => s'.Streams g ink (c ++ data) d) := by
  unfold writeCurrent
  refine Op.Does.bind (active_does hx) ?_
  rintro x s ⟨rfl, rfl⟩
  have h₁ := h.written hx hdata hroom
  have hstep₁ : (s.written x data).InStep := by
    rintro _ e ⟨⟩ he hnum hsome
    exact hstep x e hx he hnum hsome
  have hlogged₁ (hs : s.Logged g d) : (s.written x data).Logged g d := hs.of_eq rfl rfl (.inl rfl)
  have hlt : d.length < (c ++ data).length := by
    have hpos := List.length_pos_iff.mpr hdata
    have hle := h.grows.length_le
    rw [List.length_append]
    omega
  refine Op.Does.modify_bind rfl (Op.Does.get_bind ?_)
  show Op.Does (if (s.written x data).processor.config.streaming = true then _ else _) full
    (s.written x data) _ _
  -- streamed chunks are stored when they are written
  rw [if_pos h₁.streaming]
  refine Op.Does.bind (active_does (x := { (x.write data).2 with dirty := true }) rfl) ?_
  rintro _ _ ⟨rfl, rfl⟩
  refine Op.Does.bind ((h₁.streamOut_does rfl hstep₁ hlt).mono (fun _ _ => id)
    fun _ h' => h'.streams) ?_
  intro y s' hflows
  exact Op.Does.modify rfl ⟨hflows.after hlogged₁, y, rfl⟩

/-! ## In as many chunks as it takes

A call writes as much as the current chunk has room for, and goes on in the next chunk. That one
can only be come to if all of the chunk in front is stored, which a piece that succeeded has seen
to. -/

/-- There is room at the end, if need be in the next chunk. -/
theorem roomAtCursor_does (h : s.Streams g ink c d) (hx : s.current = some x) (remaining : Nat) :
    (roomAtCursor remaining).Does (d ≠ c ∨ g.layout.seqnumOf? c.length = none) s
      (fun room s' => s'.Streams g ink c d ∧ s.Rests s' g d ∧
        ∃ y, s'.current = some y ∧ room = y.available ∧ room ≠ some 0)
      (fun s' => s'.Streams g ink c d) := by
  have hheads := h.current x hx
  have hends := h.ends
  rw [← hheads.seqnum] at hends
  unfold roomAtCursor
  refine Op.Does.bind (active_does hx) ?_
  rintro x s ⟨rfl, rfl⟩
  by_cases hend : x.available = some 0
  · rw [if_pos hend]
    obtain ⟨hcap, hlast⟩ : 0 < g.layout.capacity x.seqnum ∧
        c.length = g.layout.startOf (x.seqnum + 1) := by
      have hpart := Layout.length_part_of_within hends.within
      have hstart := hends.start
      have hwithin := hends.within
      have hoffset := hheads.offset
      rw [hheads.content] at hoffset
      simp only [Chunk.available, hheads.maxSize, Option.ite_none_left_eq_some,
        Option.some.injEq] at hend
      rw [Layout.startOf_succ]
      unfold Layout.Within at hwithin
      omega
    have hreaches := hends.reaches.succ hcap
    by_cases hlimit : seqnumLimit ≤ x.seqnum + 1
    · simp only [if_pos hlimit]
      -- no chunk may follow, so the end of the content has no number
      have hfull : g.layout.seqnumOf? c.length = none := by
        cases hi : g.layout.seqnumOf? c.length with
        | none => rfl
        | some i =>
          -- the end has no number, for the chunk in front is full and there is none behind it
          obtain ⟨-, -, hinside, hnumber⟩ := Layout.seqnumOf?_eq_some_iff.mp hi
          rcases hends.next hi with rfl | ⟨rfl, -⟩
          · rw [hlast, Layout.startOf_succ] at hinside
            omega
          · omega
      exact fun _ => ⟨.inr ⟨Fault.Worn.refl _, .inr hfull⟩, h⟩
    · simp only [if_neg hlimit]
      refine Op.Does.get_bind ?_
      rw [h.layout, ← hlast]
      refine Op.Does.bind ((h.moveTo_does c.length remaining).relax
        fun hbad => hbad.resolve_left fun hne => hne rfl) ?_
      rintro - t ⟨-, ht, hrests, -, -, y, hy, hnum⟩
      -- the chunk that was moved to is the next one, and it is empty
      have hnext : y.seqnum = x.seqnum + 1 := by
        rw [hlast, Layout.seqnumOf?_startOf hreaches (by omega)] at hnum
        exact (Option.some.inj hnum).symm
      have hroom : y.available ≠ some 0 := by
        have hy' := ht.current y hy
        have hpart := Layout.length_part_of_within (ht.ends).within
        rw [← hy'.seqnum, ← hy'.content, ← hy'.offset, hnext, ← hlast, Nat.sub_self] at hpart
        rw [Chunk.available, hpart, hy'.maxSize]
        split <;> simp_all
      refine Op.Does.bind (active_does hy) ?_
      rintro y t ⟨rfl, rfl⟩
      simp only [if_neg hroom]
      exact Op.Does.pure ⟨ht, hrests, y, hy, rfl, hroom⟩
  · rw [if_neg hend]
    exact Op.Does.pure ⟨h, Rests.refl s g d, x, hx, rfl, hend⟩

/-- **Writing stores all that was placed, and the data behind it.** If it fails, a part of the data
may be placed. -/
theorem writeChunks_does (h : s.Streams g ink c d) (hx : s.current = some x) (hstep : s.InStep)
    (hdone : data = [] → d = c) {turns : Nat} (hturns : data.length ≤ turns) :
    (writeChunks turns data).Does
      (d ≠ c ∨ g.layout.seqnumOf? (c.length + data.length) = none) s
      (fun _ s' => s.Flows s' g ink d (c ++ data) ∧ ∃ y, s'.current = some y)
      (fun s' => s'.Partway g c (c ++ data)) := by
  induction turns generalizing s ink c d x data with
  | zero =>
    -- no turn is left, and nothing is to be written
    obtain rfl : data = [] := List.eq_nil_of_length_eq_zero (by omega)
    obtain rfl := hdone rfl
    rw [List.append_nil]
    exact Op.Does.pure ⟨Flows.of_rests h (Rests.refl s g d) hstep, x, hx⟩
  | succ turns ih =>
    unfold writeChunks
    refine Op.Does.when (fun hdata => ?_) fun hdata => ?_
    · refine Op.Does.bind (((h.roomAtCursor_does hx data.length).mono (fun _ _ => id)
        fun s' h' => h'.partway (List.prefix_append c data)).relax
          (Or.imp id (Layout.seqnumOf?_eq_none_of_le (Nat.le_add_right _ _)))) ?_
      rintro _ t ⟨ht, hrests, y, hy, rfl, hroom⟩
      -- induction on the turns: a piece is encrypted and written before the next one is looked at.
      have hpiece (len : Nat) (hlen : 0 < len ∧ len ≤ data.length)
          (hwithin : g.layout.Within y.seqnum (c.length + len)) :
          Op.Does (do writeCurrent (data.take len); writeChunks turns (data.drop len))
            (d ≠ c ∨ g.layout.seqnumOf? (c.length + data.length) = none) t
            (fun _ s' => s.Flows s' g ink d (c ++ data) ∧ ∃ y, s'.current = some y)
            (fun s' => s'.Partway g c (c ++ data)) := by
        have htake : (data.take len).length = len := by
          rw [List.length_take, Nat.min_eq_left hlen.2]
        have hne : data.take len ≠ [] := by
          rw [ne_eq, ← List.length_eq_zero_iff]
          omega
        have hsplit : c ++ data.take len ++ data.drop len = c ++ data := by
          rw [List.append_assoc, List.take_append_drop]
        have hpart : c ++ data.take len <+: c ++ data := ⟨data.drop len, hsplit⟩
        refine Op.Does.bind ((ht.writeCurrent_does hy (hrests.inStep hstep) hne
          (by rwa [htake])).mono (fun _ _ => id) fun s' h' =>
            (h'.partway hpart).after (List.prefix_append _ _)) ?_
        rintro - u ⟨hflows, z, hz⟩
        obtain ⟨ink₁, hagrees, hu⟩ := hflows.streams
        have hdrop : (data.drop len).length ≤ turns := by
          rw [List.length_drop]
          omega
        have hend : (c ++ data.take len).length + (data.drop len).length
            = c.length + data.length := by
          rw [← List.length_append, hsplit, List.length_append]
        have hrest := ih hu hz hflows.inStep (fun _ => rfl) hdrop
        -- behind the piece everything is stored, so the hypothesis holds from there
        rw [hsplit, hend] at hrest
        refine (hrest.relax fun hfull => .inr (hfull.resolve_left fun hbad => hbad rfl)).mono ?_ ?_
        · rintro _ s' ⟨hflows', hcurrent⟩
          exact ⟨(hflows.after hrests.logged).trans hagrees hu hflows', hcurrent⟩
        · exact fun s' h' => h'.after (List.prefix_append _ _)
      have hheads := ht.current y hy
      have hpos := List.length_pos_iff.mpr hdata
      have hends := ht.ends
      rw [← hheads.seqnum] at hends
      have hpart := Layout.length_part_of_within hends.within
      rw [← hheads.content, ← hheads.offset] at hpart
      have hstart := hends.start
      cases hroom' : y.available with
      -- the chunk is not bounded and takes all of the data
      | none =>
        refine hpiece data.length ⟨hpos, Nat.le_refl _⟩ (.inl ?_)
        simpa [Chunk.available, hheads.maxSize] using hroom'
      | some room =>
        have hne : room ≠ 0 := fun h0 => hroom (by rw [hroom', h0])
        refine hpiece (min room data.length) (by omega) (.inr ?_)
        simp only [Chunk.available, hheads.maxSize, Option.ite_none_left_eq_some,
          Option.some.injEq] at hroom'
        omega
    · obtain rfl : data = [] := Classical.not_not.mp hdata
      obtain rfl := hdone rfl
      rw [List.append_nil]
      exact ⟨Flows.of_rests h (Rests.refl s g d) hstep, x, hx⟩

theorem writeAll_does (h : s.Streams g ink c d) (hx : s.current = some x) (hstep : s.InStep)
    (hdone : data = [] → d = c) :
    (writeAll data).Does (d ≠ c ∨ g.layout.seqnumOf? (c.length + data.length) = none) s
      (fun _ s' => s.Flows s' g ink d (c ++ data) ∧ ∃ y, s'.current = some y)
      (fun s' => s'.Partway g c (c ++ data)) :=
  h.writeChunks_does hx hstep hdone (Nat.le_refl _)

/-! ## Growing

Growing writes blocks of zeros, as many as it takes. Between two blocks everything that was
placed is stored. -/

theorem growBlocks_does (h : s.Streams g ink c d) (hx : s.current = some x) (hstep : s.InStep)
    {newSize block turns : Nat} (hdone : c.length = newSize → d = c) (hblock : 0 < block)
    (hle : c.length ≤ newSize) (hturns : newSize - c.length ≤ turns) :
    (growBlocks newSize block turns).Does (d ≠ c ∨ g.layout.seqnumOf? newSize = none) s
      (fun _ s' => s.Flows s' g ink d (c.resize newSize))
      (fun s' => s'.Partway g c (c.resize newSize)) := by
  have hfull (hge : newSize ≤ c.length) : c.resize newSize = d := by
    rw [Bytes.resize_of_le hge, List.take_of_length_le (by omega), hdone (by omega)]
  have hskip (hge : newSize ≤ c.length) : s.Flows s g ink d (c.resize newSize) := by
    have hsame := hdone (by omega)
    rw [hfull hge]
    exact Flows.of_rests (hsame ▸ h) (Rests.refl s g d) hstep
  -- induction on the turns: each block of zeros flows before the next one is made.
  induction turns generalizing s ink c d x with
  | zero => exact Op.Does.pure (hskip (by omega))
  | succ turns ih =>
    unfold growBlocks
    refine Op.Does.get_bind (Op.Does.when (fun hlt => ?_) fun hge =>
      hskip (by rw [h.size] at hge; omega))
    rw [h.size] at hlt ⊢
    have hlen : (Bytes.zeros (min (newSize - c.length) block)).length
        = min (newSize - c.length) block := List.length_replicate
    generalize hdata : Bytes.zeros (min (newSize - c.length) block) = data at hlen
    have hgrown : (c ++ data).resize newSize = c.resize newSize := by
      rw [← hdata]
      exact Bytes.resize_append_zeros (by omega)
    have hlength : (c ++ data).length = c.length + data.length := List.length_append
    have hpart : c ++ data <+: c.resize newSize := by
      rw [← hgrown]
      exact Bytes.prefix_resize (by omega)
    have hsome : data = [] → d = c := by
      rintro rfl
      simp only [List.length_nil] at hlen
      omega
    refine Op.Does.bind (((h.writeAll_does hx hstep hsome).mono (fun _ _ => id) fun _ h' =>
      h'.mono hpart).relax (Or.imp id (Layout.seqnumOf?_eq_none_of_le (by omega)))) ?_
    rintro - t ⟨hflows, y, hy⟩
    obtain ⟨ink₁, hagrees, ht⟩ := hflows.streams
    refine Op.Does.get_bind ?_
    simp only [ht.size]
    -- the turns are as many as bytes are missing
    rw [if_neg (by omega)]
    have hrest := ih ht hy hflows.inStep (fun _ => rfl) (by omega) (by omega) ?_ ?_
    rw [hgrown] at hrest
    refine (hrest.relax fun hbad => .inr (hbad.resolve_left fun hne => hne rfl)).mono ?_ ?_
    · exact fun _ s' hflows' => hflows.trans hagrees ht hflows'
    · exact fun _ h' => h'.after (List.prefix_append c data)
    · exact fun hge => by rw [Bytes.resize_of_le hge, List.take_of_length_le (by omega)]
    · intro hge
      rw [Bytes.resize_of_le hge, List.take_of_length_le (by omega)]
      exact Flows.of_rests ht (Rests.refl t g _) hflows.inStep

/-- **Growing adds zeros behind all that was placed** and leaves the position at the new end. -/
theorem grow_does (h : s.Streams g ink c d) (hstep : s.InStep) {newSize : Nat}
    (hlt : c.length < newSize) :
    (grow newSize).Does
      (d ≠ c ∨ g.layout.seqnumOf? newSize = none ∨ allocationLimit < zerosAtOnce s newSize) s
      (fun _ s' => s.Flows s' g ink d (c.resize newSize) ∧ s'.seekCursor = newSize)
      (fun s' => s'.Partway g c (c.resize newSize)) := by
  have hlength : (c.resize newSize).length = newSize := Bytes.length_resize c newSize
  have hprefix : c <+: c.resize newSize := Bytes.prefix_resize (Nat.le_of_lt hlt)
  have hsome : 0 < zerosAtOnce s newSize := zerosAtOnce_pos (h.size.symm ▸ hlt)
  unfold grow
  refine Op.Does.get_bind ?_
  by_cases hlarge : allocationLimit < zerosAtOnce s newSize
  · simp only [if_pos hlarge]
    exact fun _ => ⟨.inr ⟨Fault.Worn.refl _, .inr (.inr hlarge)⟩, h.partway hprefix⟩
  simp only [if_neg hlarge]
  rw [h.size]
  -- growing starts at the end, wherever the position was
  refine Op.Does.bind (((h.moveTo_does c.length 0).mono (fun _ _ => id)
    fun _ h' => h'.partway hprefix).relax ?_) ?_
  · rintro (hne | hne | hnone)
    · exact absurd rfl hne
    · exact .inl hne
    · exact .inr (.inl (Layout.seqnumOf?_eq_none_of_le (Nat.le_of_lt hlt) hnone))
  rintro - t ⟨-, ht, hrests, -, -, x, hx, -⟩
  refine Op.Does.bind ((ht.growBlocks_does hx (hrests.inStep hstep)
    (fun heq => absurd heq (by omega)) hsome (Nat.le_of_lt hlt) (Nat.le_refl _)).relax
      (Or.imp id .inl)) ?_
  rintro - u hflows
  obtain ⟨ink₁, hagrees, hu⟩ := hflows.streams
  rw [h.mode, h.appending, if_pos rfl]
  refine Op.Does.modify_bind rfl (Op.Does.get_bind ?_)
  have hsought := hu.seek (Nat.le_of_eq hu.size)
  simp only [hu.size] at hsought ⊢
  -- in an appending mode the position ends where the content does
  refine ((hsought.moveTo_does _ 0).relax ?_).mono ?_ fun _ h' =>
    (h'.partway (List.prefix_refl _)).after hprefix
  · rintro (hne | hne | hnone)
    · exact absurd rfl hne
    · exact absurd rfl hne
    · exact .inr (.inl (hlength ▸ hnone))
  · rintro - s' ⟨-, hdone, hrests', -, hseek, -⟩
    refine ⟨(hflows.after hrests.logged).trans hagrees hu ?_, hseek.trans hlength⟩
    have hsame := Rests.of_seek u g (c.resize newSize) u.size
    rw [hu.size] at hsame
    exact Flows.of_rests hdone (hsame.trans hrests') hflows.inStep

/-! ## For users

The calls as users make them. Whatever would read, move back or cut is refused in an appending
mode; what is left goes to the end first. -/

/-- Asking for any place but the end is refused. -/
theorem seek_refused (h : s.Streams g ink c d) {pos : Nat} (hne : pos ≠ c.length) :
    Container.seek pos s = .error (.invalidSeek pos c.length) s := by
  simp [Container.seek, ensureOpen, bind, EStateM.bind, h.isOpen, h.mode, h.appending, hne, h.size]

theorem seek_does (h : s.Streams g ink c d) :
    (Container.seek c.length).Does (d ≠ c ∨ g.layout.seqnumOf? c.length = none) s
      (fun _ s' => s'.Streams g ink c d ∧ s.Rests s' g d ∧ s'.seekCursor = c.length)
      (fun s' => s'.Streams g ink c d) := by
  have hsought := h.seek (Nat.le_refl c.length)
  unfold Container.seek
  refine Op.Does.bind h.ensureOpen_does ?_
  rintro - s rfl
  refine Op.Does.get_bind ?_
  rw [if_neg (by simp [h.size])]
  refine Op.Does.set_bind rfl (Op.Does.when (fun _ => ?_) fun _ => ?_)
  · refine ((hsought.moveTo_does c.length 0).relax fun hbad =>
      hbad.resolve_left fun hne => hne rfl).mono ?_ fun _ => id
    rintro - s' ⟨-, h', hrests, -, hseek, -⟩
    -- the position asked for is not a place that is written to
    exact ⟨h', (Rests.of_seek s g d _).trans hrests, hseek⟩
  · exact ⟨hsought, Rests.of_seek s g d _, rfl⟩

/-- What is added to cannot be read. -/
theorem read_refused (h : s.Streams g ink c d) {n : Nat} (hn : n ≠ 0) :
    Container.read n s = .error .readFailed s := by
  simp [Container.read, ensureOpen, bind, EStateM.bind, h.isOpen, h.mode, h.appending, hn]

theorem resize_does (h : s.Streams g ink c d) (hstep : s.InStep) {newSize : Nat}
    (hle : c.length ≤ newSize) (backup : Bool) :
    (resize newSize backup).Does
      (d ≠ c ∨ g.layout.seqnumOf? newSize = none ∨ allocationLimit < zerosAtOnce s newSize) s
      (fun _ s' => (newSize = c.length ∧ s' = s) ∨
        (s.Flows s' g ink d (c.resize newSize) ∧ s'.seekCursor = newSize))
      (fun s' => s'.Partway g c (c.resize newSize)) := by
  unfold resize
  refine Op.Does.get_bind ?_
  rw [h.size]
  by_cases heq : newSize = c.length
  · rw [if_pos heq]
    exact Op.Does.pure (.inl ⟨heq, rfl⟩)
  · have hlt : c.length < newSize := by omega
    rw [if_neg heq, if_pos hlt]
    exact (h.grow_does hstep hlt).mono (fun _ _ => .inr) fun _ => id

/-- What was added cannot be taken back. -/
theorem truncate_refused (h : s.Streams g ink c d) {newSize : Nat} (hlt : newSize < c.length)
    (backup : Bool) :
    truncate newSize backup s = .error (.invalidSeek newSize c.length) s := by
  have hne : newSize ≠ c.length := Nat.ne_of_lt hlt
  have hge : ¬c.length < newSize := Nat.not_lt.mpr (Nat.le_of_lt hlt)
  simp [truncate, resize, bind, EStateM.bind, h.isOpen, h.mode, h.appending, h.isWrite, hne, hge,
    h.size]

theorem truncate_does (h : s.Streams g ink c d) (hstep : s.InStep) {newSize : Nat}
    (hle : c.length ≤ newSize) (backup : Bool) :
    (truncate newSize backup).Does
      (d ≠ c ∨ g.layout.seqnumOf? newSize = none ∨ allocationLimit < zerosAtOnce s newSize) s
      (fun _ s' => (newSize = c.length ∧ s' = s) ∨
        (s.Flows s' g ink d (c.resize newSize) ∧ s'.seekCursor = newSize))
      (fun s' => s'.Partway g c (c.resize newSize)) := by
  unfold truncate
  refine Op.Does.get_bind ?_
  rw [if_pos h.isOpen, if_neg (by simp [h.mode, h.isWrite])]
  exact h.resize_does hstep hle backup

/-- **A write that answers stored all of the data,** one that fails placed a part of it. -/
theorem write_does (h : s.Streams g ink c d) (hstep : s.InStep) (hdata : data ≠ []) :
    (write data).Does
      (s.seekCursor ≠ c.length ∨ d ≠ c ∨ g.layout.seqnumOf? (c.length + data.length) = none) s
      (fun n s' => n = data.length ∧ s.Flows s' g ink d (c ++ data) ∧
        s'.seekCursor = c.length + data.length)
      (fun s' => s'.Partway g c (c ++ data)) := by
  have hprefix : c <+: c ++ data := List.prefix_append c data
  unfold write
  rw [if_neg hdata]
  refine Op.Does.bind h.ensureOpen_does ?_
  rintro - s rfl
  -- nobody can have asked for a position behind the end
  have hgap := h.seekCursor
  refine Op.Does.get_bind ?_
  rw [if_neg (by simp [h.mode, h.isWrite])]
  refine Op.Does.get_bind ?_
  rw [h.size]
  simp only [if_neg (Nat.not_lt.mpr hgap)]
  refine Op.Does.bind ((h.syncCursor_does.mono (fun _ _ => id) fun _ h' => h'.partway hprefix).relax
    (Or.imp id (Or.imp id (Layout.seqnumOf?_eq_none_of_le (Nat.le_add_right _ _))))) ?_
  rintro - t ⟨ht, hrests, x, hx⟩
  refine Op.Does.bind ((ht.writeAll_does hx (hrests.inStep hstep)
    fun hnil => absurd hnil hdata).relax .inr) ?_
  rintro - u ⟨hflows, y, hy⟩
  obtain ⟨ink₁, hagrees, hu⟩ := hflows.streams
  have hcursor : u.cursor = (c ++ data).length := (hu.current y hy).cursor
  refine Op.Does.modify_bind rfl (Op.Does.pure ⟨rfl, ?_, hcursor.trans List.length_append⟩)
  have hsought := hu.seek (Nat.le_of_eq hcursor)
  -- the call ends with the position behind the data
  exact (hflows.after hrests.logged).trans hagrees hu
    (Flows.of_rests hsought (Rests.of_seek u g _ _) hflows.inStep)

end Vault.Session.Streams
