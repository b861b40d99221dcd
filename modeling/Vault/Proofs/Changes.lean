import Vault.Proofs.Backup

/-!
# `Vault/Proofs/Changes.lean` — truncating and writing

The two operations of users that change the content. **Truncating cuts or appends zeros, and
writing lays data over the content at the position,** behind zeros if that is behind the end. What
a mode does not allow is refused before anything else happens.

Both put together what is proved of their parts, and what is added is what becomes of the position.
A truncation keeps it, even where it is behind the new end; it goes to the end only in an appending
mode. A write leaves it behind the data.
-/

set_option autoImplicit false

namespace Vault

namespace Session

/-- Without faults, a failure that leaves the container open leaves the cursor inside the content.
-/
def Steady (s s' : Session) : Prop :=
  s.faults = [] → s.Placed → s'.handle = none ∨ s'.Placed

end Session

namespace Container

open Session

variable {s : Session} {g : Site} {c d : Bytes} {full : Prop}

/-! ## Refusals

These are equalities and not only statements about what may come out: the error is the one named,
and the session is returned as it was. Breaking off for want of a buffer is told here too, since
nothing has happened by then either. -/

theorem seek_refused (h : s.Shows g c d) (happ : g.mode.isAppend = true) {pos : Nat}
    (hpos : pos ≠ c.length) : seek pos s = .error (.invalidSeek pos c.length) s := by
  simp [seek, ensureOpen, bind, EStateM.bind, h.isOpen, h.mode, happ, hpos, h.size]

theorem read_refused (h : s.Shows g c d) (happ : g.mode.isAppend = true) {n : Nat} (hn : n ≠ 0) :
    read n s = .error .readFailed s := by
  simp [read, ensureOpen, bind, EStateM.bind, h.isOpen, h.mode, happ, hn]

theorem truncate_refused (h : s.Shows g c d) (happ : g.mode.isAppend = true) {newSize : Nat}
    (hlt : newSize < c.length) (backup : Bool) :
    truncate newSize backup s = .error (.invalidSeek newSize c.length) s := by
  have hwrite : g.mode.isWrite = true := Mode.isWrite_of_isAppend happ
  have hne : newSize ≠ c.length := Nat.ne_of_lt hlt
  have hge : ¬c.length < newSize := Nat.not_lt.mpr (Nat.le_of_lt hlt)
  simp [truncate, resize, bind, EStateM.bind, h.isOpen, h.mode, happ, hwrite, hne, hge, h.size]

theorem write_refused (h : s.Shows g c d) (hread : g.mode.isWrite = false) {data : Bytes}
    (hdata : data ≠ []) : write data s = .error .writeFailed s := by
  simp [write, ensureOpen, bind, EStateM.bind, h.isOpen, h.mode, hread, hdata]

theorem truncate_readOnly (h : s.Shows g c d) (hread : g.mode.isWrite = false) (newSize : Nat)
    (backup : Bool) : truncate newSize backup s = .error .writeFailed s := by
  simp [truncate, bind, EStateM.bind, h.isOpen, h.mode, hread]

/-- Growing breaks off before anything is done if the zeros need too large a buffer. -/
theorem grow_breaksOff {newSize : Nat} (hlarge : allocationLimit < zerosAtOnce s newSize) :
    grow newSize s = .error .brokenOff s := by
  simp [grow, bind, EStateM.bind, hlarge]

theorem truncate_breaksOff (h : s.Shows g c d) (hwrite : g.mode.isWrite = true) {newSize : Nat}
    (hlarge : allocationLimit < zerosAtOnce s newSize) (backup : Bool) :
    truncate newSize backup s = .error .brokenOff s := by
  have hlt : s.size < newSize := lt_of_zerosAtOnce_pos (Nat.zero_lt_of_lt hlarge)
  simp [truncate, resize, bind, EStateM.bind, h.isOpen, h.mode, hwrite, Nat.ne_of_gt hlt, hlt,
    grow_breaksOff hlarge]

theorem write_breaksOff (h : s.Shows g c d) (hwrite : g.mode.isWrite = true) {data : Bytes}
    (hdata : data ≠ []) (hlarge : allocationLimit < zerosAtOnce s s.pos) :
    write data s = .error .brokenOff s := by
  have hlt : s.size < s.seekCursor := lt_of_zerosAtOnce_pos (Nat.zero_lt_of_lt hlarge)
  have hgrow : grow s.seekCursor s = .error .brokenOff s := grow_breaksOff hlarge
  simp [write, ensureOpen, resize, bind, EStateM.bind, h.isOpen, h.mode, hwrite, hdata,
    Nat.ne_of_gt hlt, hlt, hgrow]

/-! ## Truncating

Growing, shrinking and shrinking with a copy fail in different ways. All that a failed truncation is
said to leave is a container that is closed, or open at the same place with some content
(`Session.Leaves`); what becomes of the content is said where the failures are looked at one by one.
-/

/-- **Resizing cuts or appends zeros,** as far as there is a buffer for those. -/
theorem resize_does (h : s.Shows g c d) (hwrite : g.mode.isWrite = true)
    (hfits : g.metadata.Fits c.length) {newSize : Nat} (backup : Bool)
    (happending : g.mode.isAppend = true → c.length ≤ newSize) :
    (resize newSize backup).Does (g.metadata.layout.seqnumOf? (max c.length newSize) = none ∨
        ¬s.Placed ∨ allocationLimit < zerosAtOnce s newSize) s
      (fun _ s' => ∃ g' d', g.Matches g' ∧
        g'.trail = (if newSize < c.length then .cut else g.trail) ∧
        g'.seekCursor = (if g.mode.isAppend ∧ c.length < newSize then newSize else g.seekCursor) ∧
        s'.Shows g' (c.resize newSize) d' ∧ (s.Placed → s'.Placed))
      (fun s' => s'.Leaves g ∧ s.Steady s') := by
  have hcut : ¬newSize = c.length → ¬c.length < newSize → newSize < c.length := by omega
  have hroom : g.metadata.layout.seqnumOf? c.length = none →
      g.metadata.layout.seqnumOf? (max c.length newSize) = none :=
    Layout.seqnumOf?_eq_none_of_le (Nat.le_max_left _ _)
  unfold resize
  refine Op.Does.get_bind ?_
  rw [h.size, h.mode]
  by_cases hsame : newSize = c.length
  · rw [if_pos hsame]
    have hkept : c.resize newSize = c := by
      rw [hsame, Bytes.resize_of_le (Nat.le_refl _), List.take_length]
    refine Op.Does.pure ⟨g, d, Site.Matches.refl g, ?_, ?_, hkept.symm ▸ h, id⟩
    · rw [if_neg (by omega)]
    · rw [if_neg (by omega)]
  · rw [if_neg hsame]
    -- Growing goes on in any writing mode; cutting is left to modes that may write anywhere.
    by_cases hlt : c.length < newSize
    · rw [if_pos hlt]
      refine ((grow_does h hwrite hlt).mono ?_ fun _ ⟨hstays, hplaced⟩ =>
        ⟨hstays.leaves, fun _ hp => .inr (hplaced hp)⟩).relax ?_
      · rintro - s' ⟨-, -, x, d', hx, h'⟩
        refine ⟨{ g with seekCursor := if g.mode.isAppend then newSize else g.seekCursor }, d',
          ⟨rfl, rfl, rfl, rfl⟩, (if_neg (by omega)).symm, ?_, h', fun _ => ?_⟩
        · simp only [hlt, and_true]
        · exact h'.placed hx
      · rw [Nat.max_eq_right (Nat.le_of_lt hlt)]
        rintro (hspills | ⟨-, hnone⟩ | hunplaced)
        · exact .inl hspills.seqnumOf?_eq_none
        · exact .inl hnone
        · exact .inr hunplaced
    · rw [if_neg hlt]
      have hshort := hcut hsame hlt
      have happ : g.mode.isAppend = false := by
        cases hmode : g.mode.isAppend with
        | false => rfl
        | true => exact absurd (happending hmode) (Nat.not_le.mpr hshort)
      rw [if_neg (by simp [happ]), Bytes.resize_of_le (Nat.le_of_lt hshort)]
      have hkept : g.seekCursor = if g.mode.isAppend ∧ c.length < newSize then newSize
          else g.seekCursor := by
        rw [if_neg (by simp [happ])]
      cases backup with
      | true =>
        refine ((shrinkWithBackup_does h hwrite happ hfits hshort).mono ?_
          fun _ ⟨hleaves, hclosed⟩ => ⟨hleaves, fun hfaults _ => .inl (hclosed hfaults)⟩).relax
            (Or.imp hroom .inl)
        rintro - s' ⟨-, g', x, d', hmatches, hseek, htrail, hx, h'⟩
        refine ⟨g', d', hmatches, htrail.trans (if_pos hshort).symm, hseek.trans hkept, h',
          fun _ => ?_⟩
        exact h'.placed hx
      | false =>
        refine ((shrink_does h hwrite happ hshort (Nat.min_le_right s.cursor newSize)
          false).spared.mono ?_ ?_).relax False.elim
        case refine_2 =>
          rintro s' ⟨⟨e, hhalts⟩, hstays⟩
          refine ⟨hstays.leaves, fun hfaults => ?_⟩
          exact absurd (hfaults ▸ hhalts) (Fault.not_halts_nil not_false)
        rintro - s' ⟨-, -, x, d', hx, h'⟩
        refine ⟨g.trimmed, d', ⟨rfl, rfl, rfl, rfl⟩, (if_pos hshort).symm, hkept, h', fun _ => ?_⟩
        exact h'.placed hx

theorem truncate_does (h : s.Shows g c d) (hwrite : g.mode.isWrite = true)
    (hfits : g.metadata.Fits c.length) {newSize : Nat} (backup : Bool)
    (happending : g.mode.isAppend = true → c.length ≤ newSize) :
    (truncate newSize backup).Does (g.metadata.layout.seqnumOf? (max c.length newSize) = none ∨
        ¬s.Placed ∨ allocationLimit < zerosAtOnce s newSize) s
      (fun _ s' => ∃ g' d', g.Matches g' ∧
        g'.trail = (if newSize < c.length then .cut else g.trail) ∧
        g'.seekCursor = (if g.mode.isAppend ∧ c.length < newSize then newSize else g.seekCursor) ∧
        s'.Shows g' (c.resize newSize) d' ∧ (s.Placed → s'.Placed))
      (fun s' => s'.Leaves g ∧ s.Steady s') := by
  unfold truncate
  refine Op.Does.get_bind ?_
  have hallowed : ¬(!s.mode.isWrite) = true := by simp [h.mode, hwrite]
  simp only [h.isOpen, if_true, if_neg hallowed]
  exact resize_does h hwrite hfits backup happending

/-- **Growing needs a chunk number for every byte,** and for the new end only where the cursor goes
there. It needs a buffer for the zeros, too. -/
theorem truncate_grows (h : s.Shows g c d) (hwrite : g.mode.isWrite = true) {newSize : Nat}
    (hlt : c.length < newSize) (backup : Bool) :
    (truncate newSize backup).Does (g.metadata.layout.Spills newSize ∨
        (g.mode.isAppend = true ∧ g.metadata.layout.seqnumOf? newSize = none) ∨ ¬s.Placed ∨
        allocationLimit < zerosAtOnce s newSize) s
      (fun _ s' => (g.mode.isAppend = true → g.metadata.layout.seqnumOf? newSize ≠ none) ∧
        ∃ pos d', s'.Shows { g with seekCursor := pos } (c.resize newSize) d')
      (fun s' => s'.Stays g) := by
  unfold truncate resize
  refine Op.Does.get_bind ?_
  have hallowed : ¬(!s.mode.isWrite) = true := by simp [h.mode, hwrite]
  simp only [h.isOpen, if_true, if_neg hallowed]
  refine Op.Does.get_bind ?_
  rw [h.size, if_neg (Nat.ne_of_gt hlt), if_pos hlt]
  refine (grow_does h hwrite hlt).mono ?_ fun _ => And.left
  rintro - s' ⟨-, hend, x, d', -, h'⟩
  exact ⟨hend, _, d', h'⟩

/-! ## Writing

A position behind the end makes the content grow up to it first, and from there on the data go in as
at any other position. So both ways of writing share the part that starts at a position inside. -/

/-- Writing at a position that is not behind the end. -/
theorem writeThere_does (h : s.Shows g c d) (hwrite : g.mode.isWrite = true)
    (hpos : g.seekCursor ≤ c.length) {data : Bytes} (hdata : data ≠ []) :
    Op.Does (do
        syncCursor
        writeAll data
        modify fun s => { s with seekCursor := s.cursor }
        return data.length)
      (g.metadata.layout.Spills (g.seekCursor + data.length) ∨
        (g.mode.isAppend = true ∧ g.seekCursor < c.length)) s
      (fun n s' => n = data.length ∧ s'.Placed ∧ ∃ d',
        s'.Shows { g with seekCursor := g.seekCursor + data.length }
          (c.overlay g.seekCursor data) d')
      (fun s' => s'.Stays g ∧ (s.Placed → s'.Placed)) := by
  -- Where only appending is allowed, the cursor of the container is at the end, so that it has to
  -- move and cannot.
  have hbytes := List.length_pos_iff.mpr hdata
  by_cases hrefused : g.mode.isAppend = true ∧ g.seekCursor < c.length
  · refine Op.Does.bind (P := fun _ _ => False) ?_ fun _ _ => False.elim
    unfold syncCursor
    refine Op.Does.get_bind ?_
    rw [h.seekCursor]
    refine Op.Does.when (fun _ => ?_) fun hskip => ?_
    · refine (moveTo_refused h ?_ 0 (.inr hrefused)).mono (fun _ _ => id) ?_
      · rw [if_pos hrefused.1]
        omega
      · rintro _ rfl
        exact ⟨h.stays, id⟩
    · obtain ⟨hsome, hcursor⟩ : s.current.isSome ∧ g.seekCursor = s.cursor := by
        simpa [Option.ne_none_iff_isSome] using hskip
      obtain ⟨x, hx⟩ := Option.isSome_iff_exists.mp hsome
      have hend := (h.points x hx).appending hrefused.1
      omega
  · have happending (happ : g.mode.isAppend = true) : g.seekCursor = c.length :=
      Nat.le_antisymm hpos (Nat.le_of_not_lt fun hlt => hrefused ⟨happ, hlt⟩)
    refine Op.Does.bind (((syncCursor_does h hpos happending).mono (fun _ _ => id)
      fun _ h' => ⟨h'.stays, h'.1⟩).relax fun hnone => .inl ⟨g.seekCursor, by omega, hnone⟩) ?_
    rintro - t ⟨hcursor, -, x, d₁, hx, ht⟩
    have hwritten := writeAll_does ht hwrite hx data
    rw [hcursor] at hwritten
    refine Op.Does.bind ((hwritten.mono (fun _ _ => id) ?_).relax .inl) ?_
    · rintro s' ⟨hplaced, c', d', h'⟩
      exact ⟨h'.stays, fun _ => hplaced⟩
    rintro - u ⟨hcursor', y, d₂, hy, hu⟩
    refine Op.Does.modify_bind rfl (Op.Does.pure ⟨rfl, ?_, d₂, ?_⟩)
    · exact hu.placed hy
    · rw [← hcursor']
      exact hu.seek u.cursor

/-- **Writing lays the data over the content at the position,** behind zeros if that is behind the
end. Every byte of the data needs a chunk number, the position behind them does not, and the zeros
need a buffer. -/
theorem write_does (h : s.Shows g c d) (hwrite : g.mode.isWrite = true) {data : Bytes}
    (hdata : data ≠ []) :
    (write data).Does
      (g.metadata.layout.Spills (g.seekCursor + data.length) ∨
        (g.mode.isAppend = true ∧ g.seekCursor < c.length) ∨ ¬s.Placed ∨
        allocationLimit < zerosAtOnce s g.seekCursor) s
      (fun n s' => n = data.length ∧ s'.Placed ∧ ∃ d',
        s'.Shows { g with seekCursor := g.seekCursor + data.length }
          (c.overlay g.seekCursor data) d')
      (fun s' => s'.Stays g ∧ (s.Placed → s'.Placed)) := by
  have hbytes := List.length_pos_iff.mpr hdata
  have hroom : g.metadata.layout.seqnumOf? g.seekCursor = none →
      g.metadata.layout.Spills (g.seekCursor + data.length) :=
    fun hnone => ⟨g.seekCursor, by omega, hnone⟩
  unfold write
  rw [if_neg hdata]
  refine Op.Does.bind (ensureOpen_does h.toStands) ?_
  rintro - s rfl
  refine Op.Does.get_bind ?_
  have hallowed : ¬(!s.mode.isWrite) = true := by simp [h.mode, hwrite]
  simp only [if_neg hallowed]
  refine Op.Does.get_bind ?_
  rw [h.size, h.seekCursor]
  -- A gap in front of the data is filled with zeros first, and then writing starts at the end.
  by_cases hgap : c.length < g.seekCursor
  · rw [if_pos hgap]
    have hlen : (c.resize g.seekCursor).length = g.seekCursor := Bytes.length_resize c g.seekCursor
    have hgrow : (resize g.seekCursor false).Does
        (g.metadata.layout.Spills (g.seekCursor + data.length) ∨
          (g.mode.isAppend = true ∧ g.seekCursor < c.length) ∨ ¬s.Placed ∨
          allocationLimit < zerosAtOnce s g.seekCursor) s
        (fun _ s' => s'.Placed ∧ ∃ d', s'.Shows g (c.resize g.seekCursor) d')
        (fun s' => s'.Stays g ∧ (s.Placed → s'.Placed)) := by
      unfold resize
      refine Op.Does.get_bind ?_
      rw [h.size, if_neg (Nat.ne_of_gt hgap), if_pos hgap]
      refine ((grow_does h hwrite hgap).mono ?_ fun _ => id).relax ?_
      · rintro - s' ⟨-, -, x, d', hx, h'⟩
        rw [ite_self] at h'
        exact ⟨h'.placed hx, d', h'⟩
      · rintro (hspills | ⟨-, hnone⟩ | hunplaced)
        · exact .inl (hspills.mono (by omega))
        · exact .inl (hroom hnone)
        · exact .inr (.inr hunplaced)
    refine Op.Does.bind hgrow ?_
    rintro - t ⟨hplaced, d₁, ht⟩
    refine Op.Does.bind (((moveTo_shows ht (Nat.le_of_eq hlen.symm) fun _ => hlen.symm).mono
      (fun _ _ => id) fun _ h' => ⟨h'.stays, fun _ => h'.1 hplaced⟩).relax fun hnone => .inl
        (hroom (hlen ▸ hnone))) ?_
    rintro - u ⟨-, honward, x, d₂, -, -, hu⟩
    have hthere := writeThere_does hu hwrite (Nat.le_of_eq hlen.symm) hdata
    rw [hlen, Bytes.overlay_resize data (Nat.le_of_lt hgap)] at hthere
    refine (hthere.mono (fun _ _ => id) fun _ h' =>
      ⟨h'.1, fun _ => h'.2 (honward.placed hplaced)⟩).relax
        (Or.imp id fun hbad => ?_)
    exact absurd hbad.2 (Nat.lt_irrefl _)
  · rw [if_neg hgap]
    exact (writeThere_does h hwrite (Nat.le_of_not_lt hgap) hdata).relax (Or.imp id .inl)

end Container

end Vault
