import Vault.Proofs.Resize

/-!
# `Vault/Proofs/Backup.lean` — shrinking with a way back

A backup copy is a copy of the raw file after everything was written, so it keeps the content that
is seen. **When shrinking fails after the copy was taken, putting it back makes the container show
that content again,** with cursor, position and mode as they were. Taking the copy closes the
container and opens it again, and so does putting it back; when that fails, the container stays
closed.

The copy is only as good as what was in the file when it was taken, and so the container is closed
first, which writes its dirty chunks. All that a failure leaves behind is one of two things
(`Session.Leaves`).
-/

set_option autoImplicit false

namespace Vault

/-- Two places at which the same container is open in the same way. -/
structure Site.Matches (g g' : Site) : Prop where
  path : g'.path = g.path
  mode : g'.mode = g.mode
  config : g'.config = g.config
  metadata : g'.metadata = g.metadata

theorem Site.Matches.refl (g : Site) : g.Matches g := ⟨rfl, rfl, rfl, rfl⟩

namespace Session

variable {s s' : Session} {g g' : Site} {c d : Bytes} {x : Chunk}

/-- What is left after a size could not be changed: a container that is open as it was, or a closed
one. -/
def Leaves (s : Session) (g : Site) : Prop :=
  s.handle = none ∨ ∃ g', g.Matches g' ∧ s.Stays g'

theorem Stays.leaves (h : s.Stays g) : s.Leaves g := .inr ⟨g, Site.Matches.refl g, h⟩

/-- The mode and the position asked for may be changed, as long as writing anywhere is allowed. -/
theorem Flushed.remode (h : s.Flushed g c) {mode : Mode} (hwrite : mode.isWrite = true)
    (happ : mode.isAppend = false) (hwritable : g.writable = true) (seekCursor : Nat) :
    Flushed { s with mode, seekCursor }
      { g with mode, seekCursor, mayWrite := fun _ => hwritable } c :=
  { { h.toLocated with } with
    mode := rfl, seekCursor := rfl, processor := h.processor, layout := h.layout
    stores := h.stores, header := h.header, headerClean := by simp [hwrite], trail := h.trail
    recalls := h.recalls, size := h.size, early := h.early, unpooled := h.unpooled
    readOnly := by simp [hwrite]
    points := fun x hx => { h.points x hx with appending := by simp [happ] }
    clean := h.clean, sized := h.sized }

/-- Backup copies are kept in a place of their own. -/
theorem Leaves.keepBackup (h : s.Leaves g) {backup : Bytes} :
    Leaves { s with disk := s.disk.keepBackup backup } g := by
  rcases h with h | ⟨g', hmatches, seekCursor, trail, c, d, h⟩
  · exact .inl h
  · refine .inr ⟨g', hmatches, seekCursor, trail, c, d, ?_⟩
    exact
      { { h.toLocated with } with
        seekCursor := h.seekCursor, processor := h.processor, layout := h.layout
        stores := h.stores, header := h.header, headerClean := h.headerClean, trail := h.trail
        recalls := h.recalls, size := h.size, early := h.early, unpooled := h.unpooled
        readOnly := h.readOnly, points := h.points }

end Session

namespace Container

open Session

variable {s : Session} {g : Site} {e i : Nat} {c d : Bytes} {x : Chunk} {full : Prop}

/-! ## Taking a copy

The container is closed, opened again to read the file, and given back its mode and position.
Between closing and opening the file is not touched, so the copy is what closing left. -/

/-- **A backup copy is the raw file with everything written.** -/
theorem takeBackup_does (h : s.Shows g c d) (hwrite : g.mode.isWrite = true)
    (happ : g.mode.isAppend = false) (hfits : g.metadata.Fits c.length) :
    takeBackup.Does (g.metadata.layout.seqnumOf? c.length = none) s
      (fun data s' => g.metadata.layout.seqnumOf? c.length ≠ none ∧
        ∃ g', g.Matches g' ∧ g'.seekCursor = g.seekCursor ∧ g'.trail = g.trail ∧
          s'.Flushed g' c ∧ data = s'.disk.contents g'.file)
      (fun s' => s'.handle = none) := by
  unfold takeBackup
  refine Op.Does.get_bind (Op.Does.bind ((shut_does h).mono (fun _ _ => id) ?_) ?_)
  · rintro s' ⟨t, d', -, x, rfl⟩
    rfl
  rintro - u ⟨t, ht, hforgot⟩
  have hwaits := ht.waits_forgotten hforgot
  have hread : u.disk.read? s.path = some (u.disk.contents g.file) := by
    obtain ⟨x, rfl⟩ := hforgot
    rw [h.path]
    exact ht.read?
  refine Op.Does.get_bind (Op.Does.bind (launch_does hwaits hfits rfl g.trail ?_) ?_)
  · -- closing can cut off what stood behind the chunk data, but keeps what is known of it
    obtain ⟨x, rfl⟩ := hforgot
    have htrail := ht.trail.reopen
    rwa [ht.size, ht.eofPos_eq] at htrail
  rintro - v ⟨hv, -, hdisk, hroom, -⟩
  have hpath : u.path = g.path := by
    obtain ⟨x, rfl⟩ := hforgot
    exact ht.path
  have hconfig : u.config = g.config := by
    obtain ⟨x, rfl⟩ := hforgot
    exact ht.config
  let g' : Site :=
    { hwaits.site .writeExisting g.trail with
      mode := s.mode, seekCursor := s.seekCursor, mayWrite := fun _ => rfl }
  have hwrite' : s.mode.isWrite = true := h.mode ▸ hwrite
  have happ' : s.mode.isAppend = false := h.mode ▸ happ
  refine Op.Does.modify_bind rfl ?_
  simp only [hread]
  refine Op.Does.pure ⟨hroom, g', ⟨hpath, h.mode, hconfig, rfl⟩, h.seekCursor, rfl,
    hv.remode hwrite' happ' rfl s.seekCursor, ?_⟩
  rw [hdisk]
  rfl

/-! ## Putting it back

The file is removed and made again, under a number of its own, with the bytes of the copy. Of the
container that was open nothing is needed but its path, its mode and its keys: whatever the
failed shrinking did to the chunks in memory, they are forgotten. -/

/-- **A file that was removed and made again from a backup copy,** under another number, waits to be
opened. -/
theorem waits_restored (h : s.Shows g c d) (y : Surroundings) {backup c' : Bytes} {ct : Nat}
    (hkeeps : g.metadata.Keeps backup ct e c') :
    Waits { s.shutDown y with disk := ((s.disk.remove s.path).create s.path backup).2 }
      g.metadata (s.disk.remove s.path).files.length ct e c' :=
  { closed := rfl
    found := Disk.find?_create _ _ _
    there := Disk.lt_length_create _ _ _
    keeps := by
      rw [Disk.contents_create]
      exact hkeeps
    master := by
      show s.processor.master = _
      rw [h.processor, g.master]
    kind := h.blockwise.trans g.sealed.symm }

/-- The place and the position asked for are put back, unless the content ends in front of the
place. -/
theorem returnTo_does (h : s.Flushed g c) (happ : g.mode.isAppend = false)
    (cursor seekCursor : Nat) :
    (do moveTo cursor 0; modify fun s => { s with seekCursor } : Op Unit).Does
      (g.metadata.layout.seqnumOf? c.length = none ∨ c.length < cursor) s
      (fun _ s' => s'.Flushed { g with seekCursor } c ∧ s'.cursor = cursor ∧ cursor ≤ c.length ∧
        s'.disk.contents g.file = s.disk.contents g.file)
      (fun s' => ∃ c' d', s'.Shows g c' d') := by
  -- a place behind the content is refused before anything is moved
  rcases Nat.lt_or_ge c.length cursor with hbehind | hle
  · refine Op.Does.bind (P := fun _ _ => False)
      ((moveTo_refused h.toShows ?_ 0 (.inr hbehind)).mono (fun _ _ => id) ?_)
      fun _ _ => False.elim
    · rwa [if_neg (by simp [happ])]
    · rintro _ rfl
      exact ⟨c, _, h.toShows⟩
  · refine Op.Does.bind (((moveTo_shows h.toShows hle (by simp [happ])).mono
      (fun _ _ => id) ?_).relax fun hnone => .inl (Layout.seqnumOf?_eq_none_of_le hle hnone)) ?_
    · rintro s' ⟨-, hshows⟩
      obtain ⟨c', d', h', -⟩ := hshows
      exact ⟨c', d', h'⟩
    rintro - w ⟨hcursor, honward, x, d', -, -, hw⟩
    -- nothing in memory is dirty after opening, so moving about writes nothing
    have hidle : Idle s := { h with }
    have hquiet := honward.idle hidle
    have hdone := (hw.flushed hquiet).toShows.seek seekCursor
    exact Op.Does.modify rfl ⟨{ hdone with clean := hquiet.clean, sized := hquiet.sized }, hcursor,
      hle, congrArg (·.contents g.file) (honward.quiet hidle).1⟩

/-- **Putting a backup copy back makes the container show what the copy keeps.** -/
theorem rollback_does (h : s.Stays g) (hwrite : g.mode.isWrite = true)
    (happ : g.mode.isAppend = false) {backup : Bytes} {ct : Nat}
    (hkeeps : g.metadata.Keeps backup ct e c) (hfits : g.metadata.Fits c.length)
    (cursor seekCursor : Nat) :
    (rollback backup cursor seekCursor).Does
      (g.metadata.layout.seqnumOf? c.length = none ∨ c.length < cursor) s
      (fun _ s' => ∃ g', g.Matches g' ∧ g'.seekCursor = seekCursor ∧ s'.Flushed g' c ∧
        s'.cursor = cursor ∧ cursor ≤ c.length ∧ s'.disk.contents g'.file = backup)
      (fun s' => s'.Leaves g) := by
  obtain ⟨seekCursor₀, trail, c₀, d₀, hs⟩ := h
  obtain ⟨p, hp⟩ := hs.handle
  have hmode : s.mode = g.mode := hs.mode
  unfold rollback
  refine Op.Does.get_bind ?_
  have hforgotten {s' : Session} (hf : s.Forgotten s') : s'.handle = none := by
    obtain ⟨x, rfl⟩ := hf
    rfl
  refine Op.Does.bind ((shutOnly_does hp).mono (fun _ _ => id) fun _ hf => .inl (hforgotten hf)) ?_
  rintro - u ⟨y, rfl⟩
  have hfound : s.disk.find? s.path = some g.file := by
    rw [hs.path]
    exact hs.found
  refine Op.Does.get_bind ?_
  have hthere : (s.shutDown y).disk.contains (s.shutDown y).path = true := by
    show (s.disk.find? s.path).isSome = true
    rw [hfound]
    rfl
  simp only [hthere, Bool.not_true, Bool.false_eq_true, if_false]
  -- from here on it is the copy that waits to be opened
  have hwaits := waits_restored hs y hkeeps
  have hcontents := Disk.contents_create (s.disk.remove s.path) s.path backup
  refine Op.Does.set_bind rfl ?_
  refine Op.Does.bind (((launch_does hwaits hfits rfl .unknown trivial).mono (fun _ _ => id)
    fun _ => .inl).relax .inl) ?_
  rintro - v ⟨hv, -, hdisk, -⟩
  let g₁ : Site :=
    { hwaits.site .writeExisting .unknown with mode := s.mode, mayWrite := fun _ => rfl }
  have hmatches : g.Matches g₁ := ⟨hs.path, hmode, hs.config, rfl⟩
  have hwrite' : s.mode.isWrite = true := hmode ▸ hwrite
  have happ' : s.mode.isAppend = false := hmode ▸ happ
  have hseek : v.seekCursor = 0 := hv.seekCursor
  have hremoded : Flushed { v with mode := s.mode } g₁ c := by
    have hremoded := hv.remode hwrite' happ' rfl v.seekCursor
    exact hseek ▸ hremoded
  refine Op.Does.modify_bind rfl ((returnTo_does hremoded happ' cursor seekCursor).mono ?_ ?_)
  · rintro - w ⟨hw, hcursor, hle, hkept⟩
    refine ⟨{ g₁ with seekCursor }, { hmatches with }, rfl, hw, hcursor, hle, ?_⟩
    calc w.disk.contents g₁.file = v.disk.contents g₁.file := hkept
      _ = backup := by rw [hdisk]; exact hcontents
  · rintro s' ⟨c', d', h'⟩
    exact .inr ⟨g₁, hmatches, h'.stays⟩

/-! ## Shrinking with a way back

After the copy everything that can go wrong is a fault of the surroundings, and putting the copy
back undoes it. Before the copy there is nothing to put back; that is the case in which a
container without any fault can end up closed. -/

/-- **Shrinking with a backup copy:** the content is cut, or there was a failure. Without faults
only the copy can fail, which leaves the container closed. -/
theorem shrinkWithBackup_does (h : s.Shows g c d) (hwrite : g.mode.isWrite = true)
    (happ : g.mode.isAppend = false) (hfits : g.metadata.Fits c.length) {newSize : Nat}
    (hlt : newSize < c.length) :
    (shrinkWithBackup newSize).Does (g.metadata.layout.seqnumOf? c.length = none ∨ ¬s.Placed) s
      (fun _ s' => s'.cursor = min s.cursor newSize ∧ ∃ g' x d', g.Matches g' ∧
        g'.seekCursor = g.seekCursor ∧ g'.trail = .cut ∧ s'.current = some x ∧
        s'.Shows g' (c.take newSize) d')
      (fun s' => s'.Leaves g ∧ (s.faults = [] → s'.handle = none)) := by
  unfold shrinkWithBackup
  refine Op.Does.get_bind (Op.Does.bind (((takeBackup_does h hwrite happ hfits).spared.mono
    (fun _ _ => id) fun _ ⟨_, hclosed⟩ => ⟨.inl hclosed, fun _ => hclosed⟩).relax .inl) ?_)
  rintro backup t ⟨hspared, hroom, g', hmatches, hseek, -, ht, hbackup⟩
  have hwrite' : g'.mode.isWrite = true := hmatches.mode ▸ hwrite
  have happ' : g'.mode.isAppend = false := hmatches.mode ▸ happ
  have hleaves {s' : Session} (h' : s'.Leaves g') : s'.Leaves g := by
    rcases h' with h' | ⟨g'', h', hs'⟩
    · exact .inl h'
    · exact .inr ⟨g'', ⟨h'.path.trans hmatches.path, h'.mode.trans hmatches.mode,
        h'.config.trans hmatches.config, h'.metadata.trans hmatches.metadata⟩, hs'⟩
  refine Op.Does.attempt_bind ((shrink_does ht.toShows hwrite' happ' hlt
    (Nat.min_le_right s.cursor newSize) true).spared.relax False.elim) ?_ ?_
  · rintro - s' ⟨-, hcursor, x, d', hx, h'⟩
    exact Op.Does.pure ⟨hcursor, g'.trimmed, x, d', { hmatches with }, hseek, rfl, hx, h'⟩
  · -- without faults shrinking itself does not fail, so there is nothing to put back
    rintro - u ⟨⟨e, hhalts⟩, hu⟩
    have hquiet {s' : Session} (hfaults : s.faults = []) : s'.handle = none := by
      rw [hfaults] at hspared
      rw [hspared.nil] at hhalts
      exact absurd hhalts (Fault.not_halts_nil not_false)
    have hkeeps := ht.keeps
    rw [← hbackup] at hkeeps
    refine Op.Raises.attempt_bind ((rollback_does hu hwrite' happ' hkeeps
      (hmatches.metadata ▸ hfits) s.cursor s.seekCursor).relax ?_) ?_ ?_
    · rw [hmatches.metadata]
      refine Or.imp id fun hbehind hplaced => ?_
      unfold Placed at hplaced
      rw [h.size] at hplaced
      omega
    · rintro - s' ⟨g'', hmatches', -, hs', -⟩
      exact Op.Raises.throw ⟨hleaves (.inr ⟨g'', hmatches', hs'.toShows.stays⟩), hquiet⟩
    · intro e' s' hs'
      exact .inr (Op.Raises.modify_bind rfl (Op.Raises.throw ⟨hleaves hs'.keepBackup, hquiet⟩))

end Container

end Vault
