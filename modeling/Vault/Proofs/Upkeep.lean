import Vault.Container.Upkeep
import Vault.Proofs.Access

/-!
# `Vault/Proofs/Upkeep.lean` — what does not change the content

Flushing, asking for sizes and telling the container which chunks to keep. **After a flush the file
holds what is seen and its header tells the sizes.** A flush that fails loses nothing, because
every chunk stays where it is until it is written; when the pool gets smaller, the chunks that made
way are lost if they cannot be written.
-/

set_option autoImplicit false

namespace Vault

namespace Session

variable {s s' : Session} {g : Site} {e : Nat} {c d : Bytes}

/-- The file holds what is seen, and there is nothing to be written. -/
structure Flushed (s : Session) (g : Site) (c : Bytes) : Prop extends s.Shows g c c, s.Idle

theorem Flushed.passesBy (h : s.Flushed g c) (hp : s.PassesBy s') : s'.Flushed g c := by
  obtain ⟨x, rfl⟩ := hp
  exact { h.toShows.beside x with clean := h.clean, sized := h.sized }

/-- With clean chunks only, the file holds what is seen. -/
theorem Shows.eq_of_clean (h : s.Shows g c d) (hclean : ∀ x ∈ s.memory, x.dirty = false) : c = d :=
  h.recalls.eq_of_clean hclean h.stores.within

theorem Shows.of_onDisk (h : s.Shows g c d) (hmem : s.SameMemory s')
    (hdisk : s'.OnDisk g s.eofSeqnum d) (hct : s'.ciphertextSize = s.ciphertextSize) :
    s'.Shows g c d :=
  h.of_sameWork hmem.toSameWork (h.toHolds.of_onDisk hdisk hmem (hct ▸ h.recalls) fun _ hx _ => hx)
    rfl

theorem Shows.flushed (h : s.Shows g c d) (hidle : s.Idle) : s.Flushed g c := by
  obtain rfl := h.eq_of_clean hidle.clean
  exact { h, hidle with }

/-- Chunks of which nothing is left to be written can be forgotten, the current one or none. -/
theorem Shows.forget (h : s.Shows g c d) (hclean : ∀ x ∈ s.memory, x.dirty = false)
    {current : Option Chunk} (hcurrent : current = s.current ∨ current = none) :
    Shows { s with pool := s.pool.clear, current } g c d := by
  have hsub : (current.toList ++ s.pool.clear.entries).Sublist s.memory := by
    simp only [Pool.clear, List.append_nil, memory]
    rcases hcurrent with rfl | rfl
    · exact List.sublist_append_left _ _
    · simp
  have hdisk : OnDisk { s with pool := s.pool.clear, current } g s.eofSeqnum d :=
    (h.toOnDisk.repool s.pool.clear).goto current s.cursor s.eofSeqnum
  have hheld : Holds { s with pool := s.pool.clear, current } g s.eofSeqnum c d current.toList :=
    h.of_recalls hdisk rfl (h.recalls.forget hclean hsub) (fun x hx _ => hsub.subset hx)
      (by simp [Pool.clear]) (fun _ => rfl)
  refine Shows.of_holds hheld fun x hx => ?_
  rcases hcurrent with rfl | rfl
  · exact h.points x hx
  · exact absurd hx (by simp)

/-- The configuration says nothing about the content. -/
theorem OnDisk.configure (h : s.OnDisk g e d) (config : ContainerConfig) (useCache : Bool) :
    OnDisk { s with config, useCache } { g with config, useCache } e d := by
  have hstands : Stands { s with config, useCache } { g with config, useCache } :=
    { h.toStands with config := rfl, useCache := rfl }
  exact
    { hstands with
      stores := h.stores, header := h.header, headerClean := h.headerClean, trail := h.trail }

theorem Shows.configure (h : s.Shows g c d) (config : ContainerConfig) {useCache : Bool}
    (hunpooled : useCache = false → s.pool.entries = []) :
    Shows { s with config, useCache } { g with config, useCache } c d :=
  { h.toOnDisk.configure config useCache with
    recalls := h.recalls, size := h.size, early := h.early, unpooled := hunpooled
    readOnly := h.readOnly
    points := fun x hx => { h.points x hx with } }

/-- A size in the header is no part of the content. -/
theorem OnDisk.overlay_size (h : s.OnDisk g e d) (hdirty : s.sizeDirty = true) {at_ : Nat}
    {data : Bytes} (h6 : 6 ≤ at_) (hend : at_ + data.length ≤ Header.size) :
    (s.withContents g.file ((s.disk.contents g.file).overlay at_ data)).OnDisk g e d := by
  have hcontents := h.contents_withContents ((s.disk.contents g.file).overlay at_ data)
  have hsize : Header.size ≤ s.eofPos := by
    rw [h.eofPos_eq, Metadata.dataOffset]
    omega
  refine
    { h.toStands.withContents _ with
      stores := ?stores, header := ?header, headerClean := h.headerClean, trail := ?trail }
  case stores =>
    rw [hcontents]
    exact h.stores.overlay_size h6 hend
  case header =>
    intro hclean
    exact absurd (hdirty.symm.trans hclean) (by simp)
  case trail =>
    rw [hcontents]
    exact h.trail.overlay_front (Nat.le_trans hend hsize)

end Session

namespace Container

open Session

variable {s : Session} {g : Site} {e : Nat} {c d : Bytes} {x : Chunk} {hand : List Chunk}
  {full : Prop}

/-! ## Flushing

A flush writes the pooled chunks, then the current one, then the sizes, and flushes the raw file
last. After each of these steps what is seen is what it was; a failure stops there, with the rest
of the chunks still dirty and still in memory. -/

theorem writeSizeAt_does (h : s.OnDisk g e d) (hwrite : g.mode.isWrite = true)
    (hdirty : s.sizeDirty = true) {at_ size : Nat} (h6 : 6 ≤ at_) (hend : at_ + 8 ≤ Header.size) :
    (writeAt at_ (Bytes.ofNatLE 8 size)).Does full s
      (fun _ s' => s.SameMemory s' ∧ s'.OnDisk g e d ∧ s'.ciphertextSize = s.ciphertextSize ∧
        s'.sizeDirty = true ∧ s'.disk.contents g.file
          = (s.disk.contents g.file).overlay at_ (Bytes.ofNatLE 8 size))
      (fun s' => s.SameMemory s' ∧ s'.OnDisk g e d ∧ s'.ciphertextSize = s.ciphertextSize) := by
  have hlen : (Bytes.ofNatLE 8 size).length = 8 := Bytes.length_ofNatLE 8 size
  have hne : Bytes.ofNatLE 8 size ≠ [] := by
    rw [ne_eq, ← List.length_eq_zero_iff]
    omega
  refine (writeAt_does h.toLocated hwrite at_ hne).mono ?_ ?_
  · rintro - - ⟨y, rfl⟩
    have hover :=
      (h.overlay_size hdirty h6 (Nat.le_trans (Nat.le_of_eq (by rw [hlen])) hend)).beside y
    exact ⟨⟨⟨rfl, rfl, rfl, rfl⟩, rfl⟩, hover, rfl, hdirty, h.contents_withContents _⟩
  · rintro s' hpass
    refine ⟨hpass.sameMemory, h.passesBy hpass, ?_⟩
    obtain ⟨y, rfl⟩ := hpass
    rfl

theorem writeSize_does (h : s.OnDisk g e d) (hwrite : g.mode.isWrite = true) :
    writeSize.Does full s
      (fun _ s' => s.SameMemory s' ∧ s'.OnDisk g e d ∧ s'.ciphertextSize = s.ciphertextSize ∧
        s'.sizeDirty = false ∧ (s.sizeDirty = false → s' = s))
      (fun s' => s.SameMemory s' ∧ s'.OnDisk g e d ∧ s'.ciphertextSize = s.ciphertextSize) := by
  unfold writeSize
  refine Op.Does.get_bind (Op.Does.when (fun hdirty => ?_) fun hclean => ?_)
  · refine Op.Does.bind (writeSizeAt_does h hwrite hdirty (by decide) (by decide)) ?_
    rintro - s₁ ⟨hmem₁, h₁, hct₁, hdirty₁, hcontents₁⟩
    refine Op.Does.bind ((writeSizeAt_does h₁ hwrite hdirty₁ (by decide) (by decide)).mono
      (fun _ _ => id) ?_) ?_
    · rintro s' ⟨hmem, h', hct⟩
      exact ⟨hmem₁.trans hmem, h', hct.trans hct₁⟩
    -- both sizes are written, in two calls, and only then they count as written
    rintro - s₂ ⟨hmem₂, h₂, hct₂, -, hcontents₂⟩
    have hmem := hmem₁.trans hmem₂
    have hct := hct₂.trans hct₁
    refine Op.Does.modify rfl ⟨⟨⟨hmem.current, hmem.cursor, hmem.size, hmem.eofSeqnum⟩, hmem.pool⟩,
      ?_, hct, rfl, by simp [hdirty]⟩
    have hheader : (s₂.disk.contents g.file).slice Header.plaintextAt 8 = Bytes.ofNatLE 8 s₂.size ∧
        (s₂.disk.contents g.file).slice Header.ciphertextAt 8
          = Bytes.ofNatLE 8 s₂.ciphertextSize := by
      have hpresent := h.stores.present
      have hdata : Header.size + g.metadata.descriptor.length = g.metadata.dataOffset := rfl
      have hsize : Header.size = 22 := rfl
      have hfirst := Bytes.slice_overlay_self (s.disk.contents g.file) Header.plaintextAt
        (Bytes.ofNatLE 8 s.size)
      have hsecond := Bytes.slice_overlay_self (s₁.disk.contents g.file) Header.ciphertextAt
        (Bytes.ofNatLE 8 s.ciphertextSize)
      rw [Bytes.length_ofNatLE] at hfirst hsecond
      refine ⟨?_, by rw [hcontents₂, hsecond, hct]⟩
      -- the second size stands behind the first one and leaves it alone
      rw [hcontents₂, Bytes.slice_overlay_of_le (by decide), hcontents₁, hfirst, hmem.size]
      rw [hcontents₁, Bytes.length_overlay]
      simp only [Header.ciphertextAt]
      omega
    exact
      { { h₂.toStands with } with
        stores := h₂.stores, header := fun _ => hheader, headerClean := fun _ => rfl
        trail := h₂.trail }
  · exact ⟨SameMemory.refl s, h, rfl, by simpa using hclean, fun _ => rfl⟩

/-- Once every chunk is written, the sizes are written and the raw file is flushed. -/
theorem settle_does (h : s.Shows g c d) (hclean : ∀ x ∈ s.memory, x.dirty = false)
    (hwrite : g.mode.isWrite = true) (raw : Option Bool) :
    Op.Does (do
        writeSize
        match raw with
        | some deep => Raw.flush deep
        | none => pure ()) full s
      (fun _ s' => s'.cursor = s.cursor ∧ s'.eofSeqnum = s.eofSeqnum ∧ s.Onward s' ∧
        s'.Flushed g c)
      (fun s' => (s.Placed → s'.Placed) ∧ ∃ d', s'.Shows g c d') := by
  -- with every chunk written, what the file holds is what is seen
  have heq := h.eq_of_clean hclean
  subst heq
  refine Op.Does.bind ((writeSize_does h.toOnDisk hwrite).mono (fun _ _ => id) ?_) ?_
  · rintro s' ⟨hmem, hdisk, hct⟩
    exact ⟨hmem.placed, c, h.of_onDisk hmem hdisk hct⟩
  rintro - u ⟨hmem, hdisk, hct, hsized, hsame⟩
  have hu : u.Flushed g c :=
    { h.of_onDisk hmem hdisk hct with
      clean := by rwa [hmem.memory], sized := hsized }
  have honward : s.Onward u := by
    refine ⟨fun i hi => by rwa [hmem.memory] at hi, Nat.le_of_eq hmem.eofSeqnum.symm, ?_,
      hmem.placed⟩
    intro hidle
    rw [hsame hidle.sized]
    exact ⟨rfl, hidle.sized⟩
  have hdone {s' : Session} (hpass : u.PassesBy s') :
      s'.cursor = s.cursor ∧ s'.eofSeqnum = s.eofSeqnum ∧ s.Onward s' ∧ s'.Flushed g c := by
    have hmem' := hmem.trans hpass.sameMemory
    exact ⟨hmem'.cursor, hmem'.eofSeqnum, honward.trans hpass.onward, hu.passesBy hpass⟩
  cases raw with
  | none => exact Op.Does.pure (hdone (PassesBy.refl u))
  | some deep =>
    obtain ⟨p, hp⟩ := hu.handle
    exact (Raw.flush_does hp deep).mono (fun _ _ => hdone) fun _ hpass =>
      have hdone := hdone hpass
      ⟨hdone.2.2.1.placed, c, hdone.2.2.2.toShows⟩

/-- **After a flush the file holds what is seen,** and a flush that fails loses nothing. -/
theorem flushAll_does (h : s.Shows g c d) (raw : Option Bool) :
    (flushAll raw).Does full s
      (fun _ s' => s'.cursor = s.cursor ∧ s'.eofSeqnum = s.eofSeqnum ∧ s.Onward s' ∧
        s'.Flushed g c)
      (fun s' => (s.Placed → s'.Placed) ∧ ∃ d', s'.Shows g c d') := by
  unfold flushAll
  refine Op.Does.get_bind (Op.Does.when (fun hc => ?_) fun hc => ?_)
  · have hwrite : g.mode.isWrite = true := by
      rw [← h.mode]
      simpa [h.isOpen] using hc
    refine Op.Does.bind ((flushPooled_does h.toHolds [] rfl (by simp)).mono
      (fun _ _ => id) ?_) ?_
    · rintro s' ⟨hwork, d', h'⟩
      exact ⟨hwork.placed, d', h.of_sameWork hwork h' rfl⟩
    rintro - s₁ ⟨hwork₁, hpool₁, hidle₁, d₁, hheld₁⟩
    have h₁ := h.of_sameWork hwork₁ hheld₁ rfl
    have honward₁ : s.Onward s₁ := by
      refine ⟨?_, Nat.le_of_eq hwork₁.eofSeqnum.symm, fun hidle => ?quiet, hwork₁.placed⟩
      case quiet =>
        rw [hidle₁ fun x hx => hidle.clean x (List.mem_append_right _ hx)]
        exact ⟨rfl, hidle.sized⟩
      rintro i ⟨x, hx, hi, hd⟩
      rcases List.mem_append.mp hx with hx | hx
      · exact ⟨x, List.mem_append_left _ (hwork₁.current ▸ hx), hi, hd⟩
      · exact absurd hd (by simp [hpool₁ x hx])
    -- what is left to do starts from a session that came out of this one
    have hfinish {t : Session} {x : Op Unit}
        (hx : x.Does full t
          (fun _ s' => s'.cursor = t.cursor ∧ s'.eofSeqnum = t.eofSeqnum ∧ t.Onward s' ∧
            s'.Flushed g c)
          (fun s' => (t.Placed → s'.Placed) ∧ ∃ d', s'.Shows g c d'))
        (hcursor : t.cursor = s.cursor) (heof : t.eofSeqnum = s.eofSeqnum) (honward : s.Onward t) :
        x.Does full t
          (fun _ s' => s'.cursor = s.cursor ∧ s'.eofSeqnum = s.eofSeqnum ∧ s.Onward s' ∧
            s'.Flushed g c)
          (fun s' => (s.Placed → s'.Placed) ∧ ∃ d', s'.Shows g c d') := by
      refine hx.mono ?_ ?_
      · rintro - s' ⟨hcursor', heof', honward', h'⟩
        exact ⟨hcursor'.trans hcursor, heof'.trans heof, honward.trans honward', h'⟩
      · rintro s' ⟨hplaced, h'⟩
        exact ⟨hplaced ∘ honward.placed, h'⟩
    refine Op.Does.get_bind ?_
    cases hx : s₁.current with
    | none =>
      simp only [Option.any_none, Bool.false_eq_true, if_false]
      refine hfinish (settle_does h₁ ?_ hwrite raw) hwork₁.cursor hwork₁.eofSeqnum honward₁
      simpa [memory, hx] using hpool₁
    | some x =>
      cases hdirty : x.dirty with
      | false =>
        simp only [Option.any_some, hdirty, Bool.false_eq_true, if_false]
        refine hfinish (settle_does h₁ ?_ hwrite raw) hwork₁.cursor hwork₁.eofSeqnum honward₁
        simpa [memory, hx, hdirty] using hpool₁
      | true =>
        simp only [Option.any_some, hdirty, if_true]
        refine Op.Does.bind ((flushDirty_does h₁ hx hdirty).mono (fun _ _ => id) ?_) ?_
        · rintro s' ⟨hmem, h'⟩
          exact ⟨fun hplaced => hmem.placed (hwork₁.placed hplaced), d₁, h'⟩
        rintro - s₂ ⟨hcurrent, hcursor, hsize, heof, hpool, d₂, h₂⟩
        refine hfinish (settle_does h₂ ?_ hwrite raw) (hcursor.trans hwork₁.cursor)
          (heof.trans hwork₁.eofSeqnum) ?_
        · simpa [memory, hcurrent, hpool] using hpool₁
        · refine honward₁.trans (Onward.of_current hx hcurrent rfl (by simp) hpool
            (Nat.le_of_eq heof.symm) (fun hidle => ?_) fun hplaced => ?_)
          · exact absurd hdirty (by simp [hidle.clean x (by simp [memory, hx])])
          · simpa [Placed, hcursor, hsize] using hplaced
  -- nothing is dirty where nothing may be written
  · have hread : g.mode.isWrite = false := by
      rw [← h.mode]
      simpa [h.isOpen] using hc
    have hclean := h.readOnly hread
    have heq := h.eq_of_clean hclean
    subst heq
    exact ⟨rfl, rfl, Onward.refl s, { h with clean := hclean, sized := h.headerClean hread }⟩

theorem flush_does (h : s.Shows g c d) (deep : Bool) :
    (flush deep).Does full s (fun _ s' => s.Onward s' ∧ s'.Flushed g c)
      (fun s' => (s.Placed → s'.Placed) ∧ ∃ d', s'.Shows g c d') :=
  (flushAll_does h (some deep)).mono (fun _ _ h' => h'.2.2) fun _ => id

/-- Flushing, and then a call that asks for nothing but to be made lasting. -/
theorem settled_does (h : s.Shows g c d) {x : Op Unit}
    (hx : ∀ {s : Session} {handle : Handle}, s.handle = some handle →
      x.Does full s (fun _ s' => s.PassesBy s') s.PassesBy) :
    Op.Does (do ensureOpen; flushAll none; x) full s
      (fun _ s' => s.Onward s' ∧ s'.Flushed g c)
      (fun s' => (s.Placed → s'.Placed) ∧ ∃ d', s'.Shows g c d') := by
  refine Op.Does.bind (ensureOpen_does h.toStands) ?_
  rintro - s rfl
  refine Op.Does.bind (flushAll_does h none) ?_
  rintro - t ⟨-, -, honward, ht⟩
  obtain ⟨p, hp⟩ := ht.handle
  have hdone {s' : Session} (hpass : t.PassesBy s') : s.Onward s' ∧ s'.Flushed g c :=
    ⟨honward.trans hpass.onward, ht.passesBy hpass⟩
  exact (hx hp).mono (fun _ _ => hdone) fun _ hpass =>
    ⟨(hdone hpass).1.placed, c, (hdone hpass).2.toShows⟩

theorem sync_does (h : s.Shows g c d) :
    sync.Does full s (fun _ s' => s.Onward s' ∧ s'.Flushed g c)
      (fun s' => (s.Placed → s'.Placed) ∧ ∃ d', s'.Shows g c d') :=
  settled_does h Raw.sync_does

theorem fsync_does (h : s.Shows g c d) :
    fsync.Does full s (fun _ s' => s.Onward s' ∧ s'.Flushed g c)
      (fun s' => (s.Placed → s'.Placed) ∧ ∃ d', s'.Shows g c d') :=
  settled_does h Raw.fsync_does

/-! ## Sizes

Sizes are known without the chunks. `usedSize` flushes the last chunk first, so that its packed
form is counted. -/

theorem contentSize_does (h : s.Shows g c d) (err : Session → Prop) :
    contentSize.Does full s (fun n s' => n = c.length ∧ s' = s) err := by
  unfold contentSize
  refine Op.Does.get_bind ?_
  rw [if_pos h.isOpen]
  exact Op.Does.get_bind (Op.Does.pure ⟨h.size, rfl⟩)

theorem usedSize_does (h : s.Shows g c d) :
    usedSize.Does full s (fun _ s' => s.Onward s' ∧ ∃ d', s'.Shows g c d')
      (fun s' => s.SameMemory s' ∧ s'.Shows g c d) := by
  unfold usedSize
  refine Op.Does.get_bind ?_
  rw [if_pos h.isOpen]
  refine Op.Does.bind (flushLast_does h) ?_
  rintro - t ⟨-, honward, -, ht⟩
  exact Op.Does.get_bind (Op.Does.pure ⟨honward, ht⟩)

/-! ## Chunks in memory

Which chunks are kept is nobody's business but the container's. Keeping fewer of them can fail on
the way, and then those that made way are the ones that may be lost. -/

/-- Chunks are written, forgotten and read again. After a failure the cursor may be behind the
end, and then there is nothing to be read. -/
theorem invalidate_does (h : s.Shows g c d) :
    invalidate.Does (g.metadata.layout.seqnumOf? c.length = none ∨ ¬s.Placed) s
      (fun _ s' => s.Onward s' ∧ ∃ d', s'.Shows g c d')
      (fun s' => (s.Placed → s'.Placed) ∧ ∃ d', s'.Shows g c d') := by
  unfold invalidate
  refine Op.Does.bind (ensureOpen_does h.toStands) ?_
  rintro - s rfl
  refine Op.Does.get_bind ?_
  -- once all is written, forgetting the chunks changes nothing; the current one is read again
  have hfinish {t : Session} {d₁ : Bytes} (ht : t.Shows g c d₁)
      (hclean : ∀ x ∈ t.memory, x.dirty = false) (honward : s.Onward t) :
      Op.Does (do
          modify fun s => { s with pool := s.pool.clear }
          if !s.mode.isAppend then
            modify fun s => { s with current := none }
            moveTo (← get).cursor 0)
        (g.metadata.layout.seqnumOf? c.length = none ∨ ¬s.Placed) t
        (fun _ s' => s.Onward s' ∧ ∃ d', s'.Shows g c d')
        (fun s' => (s.Placed → s'.Placed) ∧ ∃ d', s'.Shows g c d') := by
    have hforget {current : Option Chunk} (hcurrent : current = t.current ∨ current = none) :
        s.Onward { t with pool := t.pool.clear, current } := by
      refine ⟨?_, honward.eof, honward.quiet, honward.placed⟩
      rintro i ⟨x, hx, -, hdirty⟩
      have hmem : x ∈ t.memory := by
        rcases hcurrent with rfl | rfl
        · exact List.mem_append_left _ (by simpa [memory, Pool.clear] using hx)
        · simp [memory, Pool.clear] at hx
      exact absurd hdirty (by simp [hclean x hmem])
    refine Op.Does.modify_bind rfl (Op.Does.when (fun hmode => ?_) fun _ => ?_)
    · have happending : g.mode.isAppend = false := by
        rw [← h.mode]
        simpa using hmode
      have hshows := ht.forget hclean (.inr rfl)
      refine Op.Does.modify_bind rfl (Op.Does.get_bind ?_)
      -- after a call that failed the cursor may be behind the end
      rcases Nat.lt_or_ge c.length t.cursor with hbehind | hcursor
      · have hunplaced : ¬s.Placed := fun hplaced => by
          have hle : t.cursor ≤ t.size := honward.placed hplaced
          rw [ht.size] at hle
          omega
        refine (moveTo_refused hshows ?_ 0 (.inr hunplaced)).mono (fun _ _ => id) ?_
        · rwa [if_neg (by simp [happending])]
        · rintro _ rfl
          exact ⟨honward.placed, d₁, hshows⟩
      · refine ((moveTo_shows hshows hcursor (by simp [happending])).mono ?_ ?_).relax fun hnone =>
          .inl (Layout.seqnumOf?_eq_none_of_le hcursor hnone)
        · rintro _ s' ⟨-, honward', x, d', -, -, h'⟩
          exact ⟨(hforget (.inr rfl)).trans honward', d', h'⟩
        · rintro s' ⟨hplaced, c', d', h', hforgets⟩
          obtain rfl := hforgets.eq_of_clean (by simp [memory, Pool.clear]) hshows.recalls.within
          exact ⟨fun hp => hplaced (honward.placed hp), d', h'⟩
    · exact ⟨hforget (.inl rfl), d₁, ht.forget hclean (.inl rfl)⟩
  by_cases hwrite : s.mode.isWrite = true
  · simp only [if_pos hwrite]
    refine Op.Does.bind (flushAll_does h none) ?_
    rintro - t ⟨-, -, honward, ht⟩
    exact hfinish ht.toShows ht.clean honward
  · simp only [if_neg hwrite]
    refine hfinish h (h.readOnly ?_) (Onward.refl s)
    rw [← h.mode]
    simpa using hwrite

/-- Chunks that made way in the pool are written back, whatever the container is told to keep. -/
theorem evict_does (h : s.Shows g c d) (config : ContainerConfig) (useCache : Bool)
    {evicted : List Chunk} {pool : Pool} (hperm : (evicted ++ pool.entries).Perm s.pool.entries)
    (hunpooled : useCache = false → pool.entries = []) :
    (flushEvicted evicted).Does full { s with config, useCache, pool }
      (fun _ s' => s.Onward s' ∧ ∃ d', s'.Shows { g with config, useCache } c d')
      (fun s' => s.Survives s' { g with config, useCache } c) := by
  -- what makes way and what stays are together what was kept
  have hmem {y : Chunk} (hy : y ∈ evicted ++ pool.entries) : y ∈ s.pool.entries :=
    hperm.mem_iff.mp hy
  have hlist : (s.current.toList ++ s.pool.entries).Perm
      (evicted ++ s.current.toList ++ pool.entries) := by
    refine (hperm.symm.append_left _).trans ?_
    rw [← List.append_assoc]
    exact List.perm_append_comm.append_right _
  have hheld : Holds { s with config, useCache, pool } { g with config, useCache } s.eofSeqnum c d
      (evicted ++ s.current.toList) :=
    { (h.toOnDisk.configure config useCache).repool pool with
      recalls := h.recalls.perm hlist, size := h.size
      early := fun y hy => h.early y (hmem (List.mem_append_right _ hy))
      unpooled := hunpooled
      readOnly := fun hmode y hy => h.readOnly hmode y (hlist.mem_iff.mpr hy) }
  have hshows {s' : Session} {c' d' : Bytes}
      (hsame : SameMemory { s with config, useCache, pool } s')
      (h' : s'.Holds { g with config, useCache } s.eofSeqnum c' d' s.current.toList)
      (hlen : c'.length = c.length) : s'.Shows { g with config, useCache } c' d' := by
    refine Shows.of_holds ?_ ?_
    · rw [hsame.eofSeqnum, hsame.current]
      exact h'
    · rw [hsame.current, hsame.cursor, hlen]
      exact fun x hx => { h.points x hx with }
  have hearly : ∀ y ∈ evicted, y.dirty = true → y.seqnum ≠ s.eofSeqnum :=
    fun y hy => h.early y (hmem (List.mem_append_left _ hy))
  refine (flushEvicted_does hheld hearly).mono ?_ ?_
  · rintro _ s' ⟨hsame, hidle', d', h'⟩
    refine ⟨⟨fun i hi => hi.mono fun y hy _ => ?_, Nat.le_of_eq hsame.eofSeqnum.symm,
      fun hidle => ?_, fun hplaced => hsame.placed hplaced⟩, d', hshows hsame h' rfl⟩
    · -- chunks of the new memory were in memory before
      rw [hsame.memory] at hy
      rcases List.mem_append.mp hy with hy | hy
      · exact List.mem_append_left _ hy
      · exact List.mem_append_right _ (hmem (List.mem_append_right _ hy))
    · rw [hidle' fun y hy =>
        hidle.clean y (List.mem_append_right _ (hmem (List.mem_append_left _ hy)))]
      exact ⟨rfl, hidle.sized⟩
  · rintro s' ⟨hsame, c', d', h', hagree⟩
    refine ⟨fun hplaced => hsame.placed hplaced, c', d', hshows hsame h' hagree.length,
      hagree.mono fun i hi => ⟨?_, ?_⟩⟩
    · exact hi.mono fun y hy _ => List.mem_append_right _ (hmem (List.mem_append_left _ hy))
    · obtain ⟨y, hy, rfl, -⟩ := hi
      rw [hsame.memory]
      refine Chunk.absent_of_nodup ?_ hy
      have hdistinct := hheld.recalls.distinct
      rwa [List.append_assoc] at hdistinct

/-- The container is told how many chunks to keep. -/
theorem setMaxCached_does (h : s.Shows g c d) (count : Nat) :
    (setMaxCached count).Does full s
      (fun _ s' => s.Onward s' ∧ ∃ d', s'.Shows
        { g with config := { g.config with maxCachedChunks := max count 1 } } c d')
      (fun s' => s.Survives s'
        { g with config := { g.config with maxCachedChunks := max count 1 } } c) := by
  unfold setMaxCached
  refine Op.Does.get_bind ?_
  have hentries := s.pool.entries_setCapacity (max count 1)
  generalize s.pool.setCapacity (max count 1) = shrunk at hentries ⊢
  obtain ⟨evicted, pool⟩ := shrunk
  have hperm : (evicted ++ pool.entries).Perm s.pool.entries := List.Perm.of_eq hentries
  refine Op.Does.set_bind rfl ?_
  rw [h.config]
  refine (evict_does h { g.config with maxCachedChunks := max count 1 } s.useCache hperm
    fun hu => ?_).mono ?_ ?_
  · rw [h.unpooled (h.useCache ▸ hu)] at hperm
    exact (List.append_eq_nil_iff.mp hperm.eq_nil).2
  · rw [h.useCache]
    exact fun _ _ => id
  · rw [h.useCache]
    exact fun _ => id

/-- The container is told whether to keep chunks. -/
theorem setCacheEnabled_does (h : s.Shows g c d) (enabled : Bool) :
    ∃ useCache, (setCacheEnabled enabled).Does full s
      (fun _ s' => s.Onward s' ∧ ∃ d', s'.Shows
        { g with config := { g.config with cacheEnabled := enabled }, useCache } c d')
      (fun s' => s.Survives s'
        { g with config := { g.config with cacheEnabled := enabled }, useCache } c) := by
  let config : ContainerConfig := { g.config with cacheEnabled := enabled }
  refine ⟨Container.cachePolicy { s.toContainer with config }, ?_⟩
  unfold setCacheEnabled
  refine Op.Does.bind (P := fun _ t => t = { s with config }) (Op.Does.modify rfl ?_) ?_
  · rw [h.config]
  rintro - t ht
  have hopen : t.isOpen = true := by
    rw [ht]
    exact h.isOpen
  have hsame : SameMemory s t := by
    rw [ht]
    exact ⟨⟨rfl, rfl, rfl, rfl⟩, rfl⟩
  -- a container that is closed has no chunks to write
  refine Op.Does.get_bind (Op.Does.when (fun _ => ?_) fun hclosed => absurd hopen hclosed)
  have hpolicy : Container.cachePolicy { s.toContainer with config } = t.cachePolicy := by rw [ht]
  rw [hpolicy]
  generalize t.cachePolicy = useCache
  cases useCache with
  -- all chunks may stay, so only a setting changes
  | true =>
    refine Op.Does.set rfl ⟨⟨fun i hi => ?_, Nat.le_of_eq hsame.eofSeqnum.symm, fun hidle => ?_,
      hsame.placed⟩, d, ?_⟩
    · rw [← hsame.memory]
      exact hi
    · rw [ht]
      exact ⟨rfl, hidle.sized⟩
    · rw [ht]
      exact h.configure config (by simp)
  | false =>
    -- all of the pool makes way
    refine Op.Does.set_bind rfl ?_
    rw [ht]
    exact evict_does h config false (List.Perm.of_eq (List.append_nil _)) fun _ => rfl

theorem shows_setBlock (h : s.Shows g c d) (size : Nat) :
    Shows { s with toContainer := s.toContainer.setBlock size }
      { g with config := { g.config with maxProcessingSize := max size 1 } } c d := by
  have hsite : ({ g with
        config := { s.config with maxProcessingSize := max size 1 }
        useCache := s.useCache } : Site)
      = { g with config := { g.config with maxProcessingSize := max size 1 } } := by
    rw [h.config, h.useCache]
  rw [← hsite]
  exact h.configure { s.config with maxProcessingSize := max size 1 }
    fun hu => h.unpooled (h.useCache ▸ hu)

end Container

end Vault
