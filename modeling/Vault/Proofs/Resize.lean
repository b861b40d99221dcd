import Vault.Container.Resize
import Vault.Proofs.Launching

/-!
# `Vault/Proofs/Resize.lean` — other sizes of the content

**Growing appends zeros and shrinking cuts.** Growing is writing at the end. Shrinking goes through
a state in which the file is shorter by whole chunks, and writes the rest of the last chunk again;
in between there is no telling what stands behind the chunk data.

What a failure leaves behind is some content at the same place (`Session.Stays`).

The state in between is shown as a shorter content with nothing in memory (`Session.Shows.cut`): the
chunk data up to a chunk are the chunk data of the content up to it. So a shrink needs no statement
of its own about what a cut file holds, and the rest of the last chunk is written as any data are.
-/

set_option autoImplicit false

namespace Vault

namespace Session

variable {s s' : Session} {g : Site} {c d : Bytes} {x : Chunk}

/-- The container is still open where it was, whatever it shows. -/
def Stays (s : Session) (g : Site) : Prop :=
  ∃ (seekCursor : Nat) (trail : Trail) (c d : Bytes),
    s.Shows { g with seekCursor, trail } c d

theorem Shows.stays (h : s.Shows g c d) : s.Stays g := ⟨g.seekCursor, g.trail, c, d, h⟩

theorem Survives.stays (h : s.Survives s' g c) : s'.Stays g :=
  let ⟨_, _, _, h', _⟩ := h
  h'.stays

/-- **With nothing in memory, the container can be said to end in front of a chunk.** -/
theorem Shows.cut (h : s.Shows g c c) (hwrite : g.mode.isWrite = true) (hnone : s.current = none)
    (hpool : s.pool.entries = []) (last size ciphertextSize : Nat) (hlast : last ≤ s.eofSeqnum)
    (hsize : size = g.metadata.layout.startOf last)
    (hct : g.metadata.dataOffset + ciphertextSize = g.metadata.layout.rawStartOf last) :
    Shows { s with size, ciphertextSize, eofSeqnum := last, sizeDirty := true } g.untrailed
      (c.take size) (c.take size) := by
  subst hsize
  have hstart := h.stores.start
  have hmono := g.metadata.layout.startOf_mono hlast
  have hstores := h.stores.cut hlast
  rw [show g.metadata.layout.rawStartOf last - g.metadata.dataOffset = ciphertextSize by omega]
    at hstores
  refine
    { { h.toStands with } with
      stores := hstores, header := by simp, headerClean := by simp [hwrite], trail := trivial
      recalls := ?_, size := ?_, early := by simp [hpool], unpooled := fun _ => hpool
      readOnly := by simp [hwrite], points := by simp [hnone] }
  · simp only [hnone, hpool]
    exact Metadata.Recalls.of_stored hstores
  · simp only [List.length_take]
    omega

/-- The first bytes of a chunk go on where what is in front of it ends. -/
theorem take_append_part {l : Layout} {i newSize keep : Nat}
    (hplace : newSize = l.startOf i + keep) (hwithin : l.Within i newSize) :
    c.take (l.startOf i) ++ (l.part c i).take keep = c.take newSize := by
  have hend : l.Within i (l.startOf i + 0 + keep) := by rwa [Nat.add_zero, ← hplace]
  have hpart := Layout.slice_part c hend
  have hsplit := Bytes.slice_append_slice c 0 (l.startOf i) keep
  simp only [Bytes.slice, List.drop_zero, Nat.add_zero, Nat.zero_add] at hpart hsplit
  rw [hpart, hsplit, hplace]

end Session

namespace Container

open Session

variable {s : Session} {g : Site} {e i : Nat} {c d : Bytes} {x : Chunk} {full : Prop}

/-! ## Growing

The zeros go in by blocks, whose size says nothing about the result. The cursor is where the end
is before each block and comes back afterwards; only where nothing but appending is allowed does
it stay. -/

theorem growBlocks_does (h : s.Shows g c d) (hwrite : g.mode.isWrite = true)
    (hx : s.current = some x) (hcursor : s.cursor = c.length) {newSize block turns : Nat}
    (hblock : 0 < block) (hle : c.length ≤ newSize) (hturns : newSize - c.length ≤ turns) :
    (growBlocks newSize block turns).Does (g.metadata.layout.Spills newSize) s
      (fun _ s' => ∃ y d', s'.current = some y ∧ s'.Shows g (c.resize newSize) d')
      (fun s' => s'.Placed ∧ ∃ c' d', s'.Shows g c' d') := by
  induction turns generalizing s c d x with
  | zero =>
    have hsame : c.resize newSize = c := by
      rw [Bytes.resize_of_le (by omega)]
      exact List.take_of_length_le (by omega)
    exact Op.Does.pure ⟨x, d, hx, hsame.symm ▸ h⟩
  | succ turns ih =>
    unfold growBlocks
    refine Op.Does.get_bind (Op.Does.when (fun hlt => ?_) fun hge => ?_)
    · rw [h.size] at hlt ⊢
      have hlen : (Bytes.zeros (min (newSize - c.length) block)).length
          = min (newSize - c.length) block := List.length_replicate
      generalize hdata : Bytes.zeros (min (newSize - c.length) block) = data at hlen
      have hover : c.overlay s.cursor data = c ++ data := by rw [hcursor, Bytes.overlay_length]
      refine Op.Does.bind ((writeAll_does h hwrite hx data).relax
        fun hspills => hspills.mono (by omega)) ?_
      rintro - t ⟨hcursor', y, d₁, hy, ht⟩
      rw [hover] at ht
      have hsize : t.size = c.length + data.length := by rw [ht.size, List.length_append]
      refine Op.Does.get_bind ?_
      simp only [hsize]
      rw [if_neg (by omega)]
      -- Induction on the turns: one block of zeros more, and the rest grows to the same size.
      have hgrown : (c ++ data).resize newSize = c.resize newSize := by
        rw [← hdata]
        exact Bytes.resize_append_zeros (by omega)
      rw [← hgrown]
      refine ih ht hy ?_ ?_ ?_
      · rw [hcursor', hcursor, List.length_append]
      · rw [List.length_append]
        omega
      · rw [List.length_append]
        omega
    · rw [h.size] at hge
      have hsame : c.resize newSize = c := by
        rw [Bytes.resize_of_le (by omega)]
        exact List.take_of_length_le (by omega)
      exact ⟨x, d, hx, hsame.symm ▸ h⟩

/-- **Growing appends zeros.** The cursor comes back, and where only appending is allowed it goes to
the new end, which then needs a chunk number. The zeros need a buffer. -/
theorem grow_does (h : s.Shows g c d) (hwrite : g.mode.isWrite = true) {newSize : Nat}
    (hlt : c.length < newSize) :
    (grow newSize).Does (g.metadata.layout.Spills newSize ∨
        (g.mode.isAppend = true ∧ g.metadata.layout.seqnumOf? newSize = none) ∨ ¬s.Placed ∨
        allocationLimit < zerosAtOnce s newSize) s
      (fun _ s' => s'.cursor = (if g.mode.isAppend then newSize else s.cursor) ∧
        (g.mode.isAppend = true → g.metadata.layout.seqnumOf? newSize ≠ none) ∧
        ∃ x d', s'.current = some x ∧ s'.Shows
          { g with seekCursor := if g.mode.isAppend then newSize else g.seekCursor }
          (c.resize newSize) d')
      (fun s' => s'.Stays g ∧ (s.Placed → s'.Placed)) := by
  have hlen : (c.resize newSize).length = newSize := Bytes.length_resize c newSize
  have hbehind (hle : newSize ≤ s.cursor) : ¬s.Placed := by
    intro hplaced
    have hcursor : s.cursor ≤ c.length := h.size ▸ hplaced
    omega
  have hsome : 0 < zerosAtOnce s newSize := zerosAtOnce_pos (h.size.symm ▸ hlt)
  unfold grow
  refine Op.Does.get_bind ?_
  by_cases hlarge : allocationLimit < zerosAtOnce s newSize
  · simp only [if_pos hlarge]
    exact fun _ => ⟨.inr ⟨Fault.Worn.refl _, .inr (.inr (.inr hlarge))⟩, h.stays, id⟩
  simp only [if_neg hlarge]
  rw [h.size, h.mode]
  refine Op.Does.bind (((moveTo_shows h (Nat.le_refl _) fun _ => rfl).mono (fun _ _ => id)
    fun _ h' => ⟨h'.stays, h'.1⟩).relax fun hnone => .inl ⟨c.length, hlt, hnone⟩) ?_
  rintro - t ⟨hcursor, -, x, d₁, hx, -, ht⟩
  refine Op.Does.bind (((growBlocks_does ht hwrite hx hcursor hsome (Nat.le_of_lt hlt)
    (Nat.le_refl _)).mono (fun _ _ => id) ?_).relax .inl) ?_
  · rintro s' ⟨hplaced, c', d', h'⟩
    exact ⟨h'.stays, fun _ => hplaced⟩
  rintro - u ⟨y, d₂, hy, hu⟩
  have hplaced : u.Placed := hu.placed hy
  cases happ : g.mode.isAppend with
  | true =>
    simp only [if_true]
    have hseek := hu.seek u.size
    have hsize : u.size = newSize := hu.size.trans hlen
    refine Op.Does.modify_bind rfl (Op.Does.get_bind ?_)
    refine ((moveTo_shows hseek (Nat.le_of_eq hu.size) fun _ => hu.size).mono ?_ ?_).relax ?_
    · rintro _ s' ⟨hcursor', -, z, d', hz, hnum, h'⟩
      exact ⟨hcursor'.trans hsize, fun _ => by simp [← hsize, hnum], z, d', hz, hsize ▸ h'⟩
    · rintro s' ⟨hplaced', c', d', h', -⟩
      exact ⟨⟨u.size, g.trail, c', d', h'⟩, fun _ => hplaced' hplaced⟩
    · rw [hsize]
      exact fun hnone => .inr (.inl ⟨trivial, hnone⟩)
  | false =>
    simp only [Bool.false_eq_true, if_false]
    -- Only a cursor that was behind the new end has no place to come back to.
    rcases Nat.lt_or_ge newSize s.cursor with hlate | hle
    · refine (moveTo_refused hu ?_ 0 (.inr (.inr (.inl (hbehind (Nat.le_of_lt hlate)))))).mono
        (fun _ _ => id) ?_
      · rwa [if_neg (by simp [happ]), hlen]
      · rintro _ rfl
        exact ⟨hu.stays, fun _ => hplaced⟩
    · refine ((moveTo_shows hu (hlen.symm ▸ hle) (by simp [happ])).mono ?_ fun _ h' =>
        ⟨h'.stays, fun _ => h'.1 hplaced⟩).relax ?_
      · rintro _ s' ⟨hcursor', -, z, d', hz, -, h'⟩
        exact ⟨hcursor', by simp, z, d', hz, h'⟩
      · intro hnone
        rcases Nat.lt_or_eq_of_le hle with hinside | heq
        · exact .inl ⟨s.cursor, hinside, hnone⟩
        · exact .inr (.inr (.inl (hbehind (Nat.le_of_eq heq.symm))))

/-! ## Shrinking

Everything is written and forgotten first, so that what is cut is the file alone. What stands in
front of the chunk to be cut is what is left of the whole when that chunk and the later ones are
taken away one by one: only what is stored says how long each of them is. -/

/-- A chunk that is read and not about to be overwritten has its part of the stored content. -/
theorem loadWhole_does (h : s.OnDisk g e d) (hi : i ≤ e) :
    (loadChunk i 0 0).Does full s
      (fun y s' => y.seqnum = i ∧ y.content = g.metadata.layout.part d i ∧
        y.ciphertextSize = g.metadata.storedSize s.ciphertextSize e i ∧ s.PassesBy s')
      s.PassesBy := by
  refine (loadChunk_does h hi 0 0).mono ?_ fun _ => id
  rintro y s' ⟨hpass, hnum, -, hmirrors, hcontent | ⟨-, -, hcap, hcovered, -⟩⟩
  · have hstored := hmirrors.ciphertextSize
    simp only [hnum] at hstored
    exact ⟨hnum, hcontent, hstored, hpass⟩
  · exact absurd (Nat.lt_of_lt_of_le hcap hcovered) (Nat.lt_irrefl 0)

/-- **What stands in front of a chunk** is what is there without this chunk and all later ones. -/
theorem extentBefore_does (h : s.OnDisk g e d) {later : Nat} (hlast : x.seqnum + later = e)
    (hcontent : x.content = g.metadata.layout.part d x.seqnum)
    (hstored : x.ciphertextSize = g.metadata.storedSize s.ciphertextSize e x.seqnum)
    (plain cipher raw : Nat) {extent : Extent}
    (hextent : extent = ⟨plain + (d.length - g.metadata.layout.startOf x.seqnum),
      cipher + (g.metadata.dataOffset + s.ciphertextSize - g.metadata.layout.rawStartOf x.seqnum),
      raw + (g.metadata.dataOffset + s.ciphertextSize - g.metadata.layout.rawStartOf x.seqnum)⟩) :
    (extentBefore x later extent).Does full s
      (fun y s' => y = ⟨plain, cipher, raw⟩ ∧ s.PassesBy s') s.PassesBy := by
  have hle := h.stores.rawStart_add_storedSize_le (Nat.le.intro hlast)
  have hlength := congrArg List.length hcontent
  -- On the chunks that follow: each one takes its part from the extent and hands on to the next.
  induction later generalizing s x extent with
  | zero =>
    obtain rfl : x.seqnum = e := by omega
    rw [h.stores.length_part_last] at hlength
    rw [Metadata.storedSize_last] at hstored
    refine Op.Does.ofExcept ?_ ⟨rfl, PassesBy.refl s⟩
    rw [hextent, Extent.without, if_pos (by simp only; omega)]
    exact congrArg Except.ok (by simp only [Extent.mk.injEq]; omega)
  | succ later ih =>
    have hlt : x.seqnum < e := by omega
    have hbehind := g.metadata.layout.startOf_add_capacity_le hlt
    have hstart := h.stores.start
    have hcap := h.stores.reaches x.seqnum hlt
    rw [h.stores.length_part_of_lt hlt] at hlength
    rw [Metadata.storedSize_of_lt hlt] at hstored hle
    have hnext := Layout.rawStartOf_succ h.stores.packs hcap
    have hnext' := h.stores.rawStart_add_storedSize_le (i := x.seqnum + 1) (by omega)
    refine Op.Does.bind (P := fun y t => t = s ∧
      y = ⟨plain + (d.length - g.metadata.layout.startOf (x.seqnum + 1)),
        cipher + (g.metadata.dataOffset + s.ciphertextSize
          - g.metadata.layout.rawStartOf (x.seqnum + 1)),
        raw + (g.metadata.dataOffset + s.ciphertextSize
          - g.metadata.layout.rawStartOf (x.seqnum + 1))⟩) (Op.Does.ofExcept ?_ ⟨rfl, rfl⟩) ?_
    · rw [hextent, Extent.without, if_pos (by simp only; omega), Layout.startOf_succ, hnext]
      exact congrArg Except.ok (by simp only [Extent.mk.injEq]; omega)
    rintro y t ⟨rfl, hy⟩
    refine Op.Does.bind (loadWhole_does h (i := x.seqnum + 1) (by omega)) ?_
    rintro z u ⟨hnum, hpart, hsize, hpass⟩
    have hct : u.ciphertextSize = t.ciphertextSize := by
      obtain ⟨w, rfl⟩ := hpass
      rfl
    refine (ih (h.passesBy hpass) (by omega) (hnum ▸ hpart) (by rw [hct, hnum, hsize])
      ?_ ?_ ?_).mono ?_ fun _ => hpass.trans
    · rw [hct, hnum, hy]
    · rw [hct, hnum]
      exact hnext'
    · rw [hpart, hnum]
    · rintro _ s' ⟨hres, hpass'⟩
      exact ⟨hres, hpass.trans hpass'⟩

/-- The chunk in front of which the content is to end is read, and the chunks behind it tell what
stands in front of it. -/
theorem measure_does {α : Type} {f : Chunk → Extent → Op α} {ok : α → Session → Prop}
    {err : Session → Prop} (h : s.Shows g c c) (hi : i ≤ s.eofSeqnum)
    (hf : ∀ y t, y.content = g.metadata.layout.part c i → s.PassesBy t →
      (f y ⟨g.metadata.layout.startOf i, g.metadata.layout.rawStartOf i - g.metadata.dataOffset,
        g.metadata.layout.rawStartOf i⟩).Does full t ok err)
    (herr : ∀ t, s.PassesBy t → err t) :
    Op.Does (do
      let rawEnd := min (← Raw.size) (← get).eofPos
      let chunk ← loadChunk i 0 0
      let t ← get
      let x ← extentBefore chunk (t.eofSeqnum - i) ⟨t.size, t.ciphertextSize, rawEnd⟩
      f chunk x) full s ok err := by
  obtain ⟨p, hp⟩ := h.handle
  refine Op.Does.bind ((Raw.size_does hp).mono (fun _ _ => id) fun _ => herr _) ?_
  rintro found - ⟨rfl, y, rfl⟩
  refine Op.Does.get_bind ?_
  simp only [eofPos_beside, Nat.min_eq_right h.eofPos_le]
  have h₀ := h.beside y
  have hpass₀ : s.PassesBy (s.beside y) := ⟨y, rfl⟩
  refine Op.Does.bind ((loadWhole_does h₀.toOnDisk hi).mono (fun _ _ => id)
    fun _ hpass => herr _ (hpass₀.trans hpass)) ?_
  rintro x t ⟨hx, hcontent, hstored, hpass⟩
  have hpass₁ := hpass₀.trans hpass
  have ht := h.passesBy hpass₁
  obtain ⟨hct, hsize, heof⟩ : t.ciphertextSize = s.ciphertextSize ∧ t.size = s.size ∧
      t.eofSeqnum = s.eofSeqnum := by
    obtain ⟨z, rfl⟩ := hpass₁
    exact ⟨rfl, rfl, rfl⟩
  have hstart := g.metadata.layout.startOf_mono hi
  have hend := h.stores.start
  have hrawStart := h.stores.rawStart_last_le
  have hrawMono := g.metadata.layout.rawStartOf_mono hi
  have hoffset := g.metadata.layout.dataOffset_le_rawStartOf i
  rw [Metadata.dataOffset_layout] at hoffset
  refine Op.Does.get_bind (Op.Does.bind ((extentBefore_does ht.toOnDisk ?_ (hx ▸ hcontent)
    (by rw [hct, heof, hx]; exact hstored) (g.metadata.layout.startOf i)
    (g.metadata.layout.rawStartOf i - g.metadata.dataOffset)
    (g.metadata.layout.rawStartOf i) ?_).mono (fun _ _ => id)
    fun _ hpass' => herr _ (hpass₁.trans hpass')) ?_)
  · rw [hx, heof]
    omega
  · rw [hx, hsize, hct, h.size, h.eofPos_eq, Extent.mk.injEq]
    omega
  rintro _ u ⟨rfl, hpass'⟩
  exact hf x u hcontent (hpass₁.trans hpass')

/-- The raw file is cut behind the chunk data. -/
theorem cutRaw_does (h : s.Shows g.untrailed c c) (hwrite : g.mode.isWrite = true) {size : Nat}
    (hsize : size = s.eofPos) (durable : Bool) :
    (Raw.truncate size durable).Does full s (fun _ s' => s'.Shows g.trimmed c c ∧ s.SameMemory s')
      (fun s' => s'.Shows g.untrailed c c) := by
  obtain ⟨p, hp⟩ := h.handle
  subst hsize
  refine (Raw.truncate_does hp (g.mayWrite hwrite) _ durable).mono ?_ fun _ => h.passesBy
  rintro - - ⟨x, rfl⟩
  refine ⟨Shows.beside ?_ x, ⟨rfl, rfl, rfl, rfl⟩, rfl⟩
  exact
    { OnDisk.cutTail (g := g.trimmed) h.toOnDisk s.tailCut nofun with
      recalls := h.recalls, size := h.size, early := h.early, unpooled := h.unpooled
      readOnly := h.readOnly, points := fun y hy => { h.points y hy with } }

/-- The sizes are written and the file is cut. -/
theorem writeCut_does (h : s.Shows g.untrailed c c) (hwrite : g.mode.isWrite = true) :
    writeSize.Does full s (fun _ s' => s'.Shows g.untrailed c c ∧ s'.eofPos = s.eofPos)
      (fun s' => s'.Shows g.untrailed c c) := by
  refine (writeSize_does h.toOnDisk hwrite).mono ?_ ?_
  · rintro - s' ⟨hmem, hdisk, hct, -, -⟩
    refine ⟨h.of_onDisk hmem hdisk hct, ?_⟩
    rw [hdisk.eofPos_eq, h.eofPos_eq, hct]
  · rintro s' ⟨hmem, hdisk, hct⟩
    exact h.of_onDisk hmem hdisk hct

theorem shrinkToNothing_does (h : s.Shows g c c) (hwrite : g.mode.isWrite = true)
    (happ : g.mode.isAppend = false) (hnone : s.current = none) (hpool : s.pool.entries = [])
    (durable : Bool) :
    (shrinkToNothing durable).Does full s
      (fun _ s' => s'.cursor = 0 ∧ ∃ x d', s'.current = some x ∧ s'.Shows g.trimmed [] d')
      (fun s' => s'.Stays g) := by
  have hcut := h.cut hwrite hnone hpool 0 0 0 (Nat.zero_le _) rfl rfl
  rw [List.take_zero] at hcut
  unfold shrinkToNothing
  refine Op.Does.modify_bind rfl (Op.Does.bind ((writeCut_does hcut hwrite).mono (fun _ _ => id)
    fun _ h' => h'.stays) ?_)
  rintro - t ⟨ht, heof⟩
  refine Op.Does.get_bind (Op.Does.bind ((cutRaw_does ht hwrite ?_ durable).mono (fun _ _ => id)
    fun _ h' => h'.stays) ?_)
  · rw [heof]
    show t.layout.dataOffset = s.layout.dataOffset + 0
    rw [ht.layout, h.layout]
    rfl
  rintro - u ⟨hu, -⟩
  have hroom : ¬g.metadata.layout.seqnumOf? ([] : Bytes).length = none := by
    rw [List.length_nil, Layout.seqnumOf?_zero]
    simp
  refine ((moveTo_shows hu (Nat.le_refl 0) (by simp [happ])).mono ?_ fun _ h' =>
    h'.stays).relax fun hbad => absurd hbad hroom
  rintro _ s' ⟨hcursor, -, x, d', hx, -, h'⟩
  exact ⟨hcursor, x, d', hx, h'⟩

/-- A tail is written behind the end. The content ends where it is to end then, and the cursor goes
to its place. -/
theorem appendTail_does (h : s.Shows g c d) (hwrite : g.mode.isWrite = true)
    (happ : g.mode.isAppend = false) {tail : Bytes} {newSize newPos : Nat}
    (hlen : (c ++ tail).length = newSize) (hpos : newPos ≤ newSize)
    (hnum : g.metadata.layout.seqnumOf? newSize ≠ none) :
    Op.Does (do
      moveTo (← get).size 0
      writeAll tail
      let size := (← get).size
      if size ≠ newSize then throw (.aborted newSize size)
      moveTo newPos 0) full s
      (fun _ s' => s'.cursor = newPos ∧ ∃ x d', s'.current = some x ∧ s'.Shows g (c ++ tail) d')
      (fun s' => s'.Stays g) := by
  have hnumbered {n : Nat} (hn : n ≤ newSize) (hnone : g.metadata.layout.seqnumOf? n = none) :
      full :=
    absurd (Layout.seqnumOf?_eq_none_of_le hn hnone) hnum
  have hsum : c.length + tail.length = newSize := List.length_append.symm.trans hlen
  refine Op.Does.get_bind ?_
  rw [h.size]
  refine Op.Does.bind (((moveTo_shows h (Nat.le_refl _) fun _ => rfl).mono (fun _ _ => id)
    fun _ h' => h'.stays).relax (hnumbered (Nat.le.intro hsum))) ?_
  rintro - t ⟨hcursor, -, x, d₁, hx, -, ht⟩
  have hwritten := writeAll_does ht hwrite hx tail
  rw [hcursor, hsum, Bytes.overlay_length] at hwritten
  refine Op.Does.bind ((hwritten.mono (fun _ _ => id) ?_).relax
    fun hspills => hnumbered (Nat.le_refl _) hspills.seqnumOf?_eq_none) ?_
  · rintro s' ⟨-, c', d', h'⟩
    exact h'.stays
  rintro - u ⟨-, y, d₂, hy, hu⟩
  refine Op.Does.get_bind ?_
  simp only [hu.size, hlen]
  rw [if_neg (by simp)]
  refine ((moveTo_shows hu (hlen.symm ▸ hpos) (by simp [happ])).mono ?_ fun _ h' =>
    h'.stays).relax (hnumbered hpos)
  rintro _ s' ⟨hcursor', -, z, d', hz, -, h'⟩
  exact ⟨hcursor', z, d', hz, h'⟩

theorem shrinkToBoundary_does (h : s.Shows g c c) (hwrite : g.mode.isWrite = true)
    (happ : g.mode.isAppend = false) (hnone : s.current = none) (hpool : s.pool.entries = [])
    {newSize newPos boundary keep : Nat} (hlt : newSize < c.length)
    (hplace : g.metadata.layout.locate? newSize = some (boundary, keep)) (hpos : newPos ≤ newSize)
    (durable : Bool) :
    (shrinkToBoundary newSize newPos boundary keep durable).Does full s
      (fun _ s' => s'.cursor = newPos ∧ ∃ x d', s'.current = some x ∧
        s'.Shows g.trimmed (c.take newSize) d')
      (fun s' => s'.Stays g) := by
  obtain ⟨hnum, hkeep⟩ := Layout.locate?_eq_some_iff.mp hplace
  obtain ⟨hreaches, hstart, hend, -⟩ := Layout.seqnumOf?_eq_some_iff.mp hnum
  have hwithin : g.metadata.layout.Within boundary newSize := by
    unfold Layout.Within
    omega
  -- The new end lies in front of the old one, so its chunk is one that is stored.
  have hb : boundary ≤ s.eofSeqnum := by
    refine Nat.le_of_not_lt fun hbad => ?_
    have hcap := hreaches s.eofSeqnum hbad
    have hbehind := g.metadata.layout.startOf_add_capacity_le hbad
    have hlast := h.recalls.within
    unfold Layout.Within at hlast
    omega
  have hkept := take_append_part (c := c) hkeep hwithin
  unfold shrinkToBoundary
  refine measure_does h hb (fun x t hcontent hpass => ?_) fun _ hpass => (h.passesBy hpass).stays
  have ht := h.passesBy hpass
  obtain ⟨heof, hnone', hpool'⟩ : t.eofSeqnum = s.eofSeqnum ∧ t.current = none ∧
      t.pool.entries = [] := by
    obtain ⟨y, rfl⟩ := hpass
    exact ⟨rfl, hnone, hpool⟩
  -- From here on the boundary chunk is the last one and empty; what is kept of it is written anew.
  have hoffset := g.metadata.layout.dataOffset_le_rawStartOf boundary
  rw [Metadata.dataOffset_layout] at hoffset
  have hcut := ht.cut hwrite hnone' hpool' boundary (g.metadata.layout.startOf boundary)
    (g.metadata.layout.rawStartOf boundary - g.metadata.dataOffset) (heof.symm ▸ hb) rfl (by omega)
  refine Op.Does.modify_bind rfl (Op.Does.bind ((writeCut_does hcut hwrite).mono (fun _ _ => id)
    fun _ h' => h'.stays) ?_)
  rintro - u ⟨hu, heof'⟩
  refine Op.Does.bind ((cutRaw_does hu hwrite ?_ durable).mono (fun _ _ => id)
    fun _ h' => h'.stays) ?_
  · rw [heof', hcut.eofPos_eq]
    show g.metadata.layout.rawStartOf boundary = g.metadata.dataOffset
      + (g.metadata.layout.rawStartOf boundary - g.metadata.dataOffset)
    omega
  rintro - v ⟨hv, -⟩
  rw [hcontent, ← hkept]
  refine appendTail_does hv hwrite happ ?_ hpos (h.seqnumOf?_ne_none hlt)
  rw [hkept, List.length_take]
  exact Nat.min_eq_left (Nat.le_of_lt hlt)

/-- **Shrinking cuts,** for which there are always enough chunk numbers. -/
theorem shrink_does (h : s.Shows g c d) (hwrite : g.mode.isWrite = true)
    (happ : g.mode.isAppend = false) {newSize newPos : Nat} (hlt : newSize < c.length)
    (hpos : newPos ≤ newSize) (durable : Bool) :
    (shrink newSize newPos durable).Does full s
      (fun _ s' => s'.cursor = newPos ∧ ∃ x d', s'.current = some x ∧
        s'.Shows g.trimmed (c.take newSize) d')
      (fun s' => s'.Stays g) := by
  unfold shrink
  refine Op.Does.bind ((flushAll_does h none).mono (fun _ _ => id) ?_) ?_
  · rintro s' ⟨-, d', h'⟩
    exact h'.stays
  rintro - t ⟨-, -, -, ht⟩
  refine Op.Does.bind (P := fun _ u => u.Shows g c c ∧ u.current = none ∧ u.pool.entries = [])
    (Op.Does.modify rfl ⟨ht.toShows.forget ht.clean (.inr rfl), rfl, rfl⟩) ?_
  rintro - u ⟨hu, hnone, hpool⟩
  by_cases hzero : newSize = 0
  · subst hzero
    obtain rfl : newPos = 0 := Nat.le_zero.mp hpos
    rw [if_pos rfl, List.take_zero]
    exact shrinkToNothing_does hu hwrite happ hnone hpool durable
  · rw [if_neg hzero]
    refine Op.Does.get_bind ?_
    simp only [hu.layout]
    cases hplace : g.metadata.layout.locate? newSize with
    | none =>
      exact absurd (Layout.locate?_eq_none_iff.mp hplace) (hu.seqnumOf?_ne_none hlt)
    | some place =>
      obtain ⟨boundary, keep⟩ := place
      exact shrinkToBoundary_does hu hwrite happ hnone hpool hlt hplace hpos durable

end Container

end Vault
