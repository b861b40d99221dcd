import Vault.Container.Access
import Vault.Proofs.Moving

/-!
# `Vault/Proofs/Access.lean` — seeking, reading and writing the content

**Reading answers the bytes at the position, and writing lays the data over them.** Both go chunk
by chunk; what one turn does to the chunk is told of the content as a whole, and the turns are put
together by induction.

Writing is told of two states, because the chunk it goes into may not have been read: one about to
be overwritten as a whole is `Session.Blank` until the data are in it, and shows the content again
afterwards. `Session.shows_written` joins the two, so that one turn of the loop is proved once.
-/

set_option autoImplicit false

namespace Vault

namespace Session

variable {s : Session} {g : Site} {e : Nat} {c d : Bytes} {x : Chunk}

/-- The position asked for is no part of what is shown. -/
theorem Shows.seek (h : s.Shows g c d) (seekCursor : Nat) :
    Shows { s with seekCursor } { g with seekCursor } c d :=
  { h with seekCursor := rfl, points := fun x hx => { h.points x hx with } }

/-- The current chunk has its part of what is seen. -/
theorem Shows.mirrors (h : s.Shows g c d) (hx : s.current = some x) :
    g.metadata.Mirrors s.ciphertextSize s.eofSeqnum c x :=
  h.recalls.mirrors x (by simp [hx])

/-- At a position inside the content there is something left in the chunk that holds it. -/
theorem Shows.remaining_pos (h : s.Shows g c d) (hx : s.current = some x)
    (hnum : g.metadata.layout.seqnumOf? s.cursor = some x.seqnum) (hlt : s.cursor < c.length) :
    x.remaining ≠ 0 := by
  obtain ⟨-, hstart, hend, -⟩ := Layout.seqnumOf?_eq_some_iff.mp hnum
  have hcursor := (h.points x hx).eq
  rw [Chunk.remaining, (h.mirrors hx).content, Layout.length_part]
  split <;> omega

/-- The place in the current chunk is moved inside the content of the chunk. -/
theorem Shows.advance (h : s.Shows g c d) (hx : s.current = some x)
    (hmode : g.mode.isAppend = false) {n : Nat} (hn : n ≤ x.remaining) :
    Shows { s with current := some { x with offset := x.offset + n }, cursor := s.cursor + n }
      g c d := by
  have hheld : s.Holds g s.eofSeqnum c d [x] := by simpa [hx] using h.toHolds
  have hpoints := h.points x hx
  have hcontent := congrArg List.length (h.mirrors hx).content
  rw [Layout.length_part] at hcontent
  rw [Chunk.remaining] at hn
  have hle := hpoints.le
  have heq := hpoints.eq
  have hwithin := hpoints.within
  refine (hheld.place (x.offset + n)).shows (some { x with offset := x.offset + n })
    (s.cursor + n) ?_
  rintro _ ⟨⟩
  refine ⟨by simp only [heq, Nat.add_assoc], ?_, ?_, by simp [hmode]⟩
  · split at hcontent <;> omega
  · simp only [Layout.Within] at hwithin ⊢
    split at hcontent <;> omega

/-- What is read of the current chunk is read of the content. -/
theorem Shows.slice_eq (h : s.Shows g c d) (hx : s.current = some x) {n : Nat}
    (hn : n ≤ x.remaining) : Bytes.slice x.content x.offset n = Bytes.slice c s.cursor n := by
  have hpoints := h.points x hx
  have hcontent := congrArg List.length (h.mirrors hx).content
  rw [Layout.length_part] at hcontent
  rw [Chunk.remaining] at hn
  have hwithin := hpoints.within
  rw [(h.mirrors hx).content, hpoints.eq]
  have heq := hpoints.eq
  refine Layout.slice_part c ?_
  unfold Layout.Within at hwithin ⊢
  split at hcontent <;> omega

/-- **One turn of reading** takes what it reads of the content, and goes on behind it. -/
theorem Shows.read_current (h : s.Shows g c d) (hx : s.current = some x)
    (hmode : g.mode.isAppend = false) (n : Nat) :
    (x.read n).1 = Bytes.slice c s.cursor (x.read n).1.length ∧
      (x.read n).1.length = min n x.remaining ∧
      Shows { s with current := some (x.read n).2, cursor := s.cursor + (x.read n).1.length }
        g c d ∧
      s.Onward { s with
        current := some (x.read n).2, cursor := s.cursor + (x.read n).1.length } := by
  have hlen := x.length_read n
  have hle : (x.read n).1.length ≤ x.remaining := hlen ▸ Nat.min_le_right _ _
  have hadvanced := h.advance hx hmode hle
  refine ⟨?_, hlen, hadvanced, ?_⟩
  · rw [← h.slice_eq hx hle]
    exact (Bytes.slice_length_slice ..).symm
  · refine Onward.of_current (y := (x.read n).2) hx rfl rfl id rfl (Nat.le_refl _)
      (fun hidle => ⟨rfl, hidle.sized⟩) fun _ => ?_
    exact Nat.le_trans (hadvanced.points _ rfl).le (Nat.le_of_eq h.size.symm)

/-! ## Data in the current chunk

What is said here is about one chunk and no run: where the place in it lies, how much more fits,
and what the content as a whole becomes when the chunk's own content is overlaid. The size
follows the chunk only if the chunk holds the end. -/

/-- The session after data was written into its current chunk. -/
def written (s : Session) (x : Chunk) (data : Bytes) : Session :=
  let grown := (x.write data).1
  let grows := x.seqnum = s.eofSeqnum ∧ 0 < grown
  { s with
    current := some { (x.write data).2 with dirty := true }
    size := if grows then s.size + grown else s.size
    sizeDirty := s.sizeDirty || grows
    cursor := s.cursor + data.length }

/-- The place in the current chunk lies inside its content or right behind it. -/
theorem Shows.offset_le (h : s.Shows g c d) (hx : s.current = some x) :
    x.offset ≤ x.content.length := by
  have hcontent := congrArg List.length (h.mirrors hx).content
  rw [Layout.length_part] at hcontent
  obtain ⟨hcursor, hle, hwithin, -⟩ := h.points x hx
  unfold Layout.Within at hwithin
  split at hcontent <;> omega

/-- Data for which there is room ends inside the chunk. -/
theorem Shows.within_written (h : s.Shows g c d) (hx : s.current = some x) {data : Bytes}
    (hroom : ∀ room, x.available = some room → data.length ≤ room) :
    g.metadata.layout.Within x.seqnum (s.cursor + data.length) := by
  have hmax := (h.mirrors hx).maxSize
  obtain ⟨hcursor, -, hwithin, -⟩ := h.points x hx
  unfold Layout.Within at hwithin ⊢
  by_cases hcap : g.metadata.layout.capacity x.seqnum = 0
  · exact .inl hcap
  · have hfits := hroom (x.maxSize - x.offset) (by rw [Chunk.available, hmax, if_neg hcap])
    rw [hmax] at hfits
    omega

/-- The content gets longer only by what the last chunk gains. -/
theorem Shows.size_written (h : s.Shows g c d) (hx : s.current = some x) {data : Bytes}
    (hroom : ∀ room, x.available = some room → data.length ≤ room) :
    (s.written x data).size = (c.overlay s.cursor data).length := by
  have hmirrors := h.mirrors hx
  have hoffset := h.offset_le hx
  have hwithin := h.within_written hx hroom
  obtain ⟨hcursor, hle, -, -⟩ := h.points x hx
  rw [hcursor] at hwithin
  have hgrown : (x.write data).1 = max x.content.length (x.offset + data.length)
      - x.content.length := by
    simp only [Chunk.write, Bytes.length_overlay]
  show (if x.seqnum = s.eofSeqnum ∧ 0 < (x.write data).1 then s.size + (x.write data).1
    else s.size) = _
  rw [hgrown, Bytes.length_overlay, h.size, hcursor]
  rcases Nat.lt_or_eq_of_le hmirrors.le with hlt | heq
  · have hbehind := g.metadata.layout.startOf_add_capacity_le hlt
    have hstart := h.recalls.startOf_le_seen (Nat.le_refl s.eofSeqnum)
    have hcap := h.recalls.reaches x.seqnum hlt
    rw [if_neg (fun hbad => Nat.ne_of_lt hlt hbad.1)]
    unfold Layout.Within at hwithin
    omega
  · have hlast := Layout.length_part_of_within h.recalls.within
    rw [← heq, ← hmirrors.content] at hlast
    split <;> omega

/-- **Data written into the current chunk is laid over the content.** -/
theorem Shows.written (h : s.Shows g c d) (hx : s.current = some x) (hwrite : g.mode.isWrite = true)
    {data : Bytes} (hdata : data ≠ [])
    (hroom : ∀ room, x.available = some room → data.length ≤ room) :
    (s.written x data).Shows g (c.overlay s.cursor data) d := by
  obtain ⟨hcursor, hle, -, happending⟩ := h.points x hx
  have hwithin := h.within_written hx hroom
  have hsize := h.size_written hx hroom
  have hlength := Bytes.length_overlay c s.cursor data
  have hrec : g.metadata.Recalls s.ciphertextSize s.eofSeqnum c d (x :: s.pool.entries) := by
    simpa [hx] using h.recalls
  have hheader : (s.written x data).sizeDirty = false →
      s.sizeDirty = false ∧ (s.written x data).size = s.size := by
    intro hclean
    obtain ⟨hold, hgrows⟩ : s.sizeDirty = false ∧
        ¬(x.seqnum = s.eofSeqnum ∧ 0 < (x.write data).1) := by
      simpa [Session.written] using hclean
    exact ⟨hold, if_neg hgrows⟩
  have hdisk : (s.written x data).OnDisk g s.eofSeqnum d :=
    { { h.toStands with } with
      stores := h.stores
      header := fun hclean => by
        rw [(hheader hclean).2]
        exact h.header (hheader hclean).1
      headerClean := by simp [hwrite]
      trail := h.trail.grow (by
        show s.size ≤ (s.written x data).size
        rw [hsize, hlength, h.size]
        exact Nat.le_max_left _ _) }
  have hheld : (s.written x data).Holds g s.eofSeqnum (c.overlay s.cursor data) d
      [{ (x.write data).2 with dirty := true }] :=
    { hdisk with
      recalls := by
        rw [hcursor] at hwithin ⊢
        exact hrec.write (h.offset_le hx) hwithin rfl rfl rfl rfl hdata rfl
      size := hsize, early := h.early, unpooled := h.unpooled, readOnly := by simp [hwrite] }
  refine Shows.of_holds hheld ?_
  rintro _ ⟨⟩
  refine ⟨?_, ?_, ?_, fun happ => ?_⟩
  · show s.cursor + data.length = g.metadata.layout.startOf x.seqnum + (x.offset + data.length)
    rw [hcursor, Nat.add_assoc]
  · rw [hlength]
    exact Nat.le_max_right _ _
  · exact hwithin
  · show s.cursor + data.length = _
    rw [hlength, happending happ]
    exact (Nat.max_eq_right (Nat.le_add_right _ _)).symm

theorem Blank.available {overwrite : Nat} (h : s.Blank g c d overwrite x) :
    x.available = some (g.metadata.layout.capacity x.seqnum) := by
  have hmax : x.maxSize = g.metadata.layout.capacity x.seqnum := (h.shows.mirrors rfl).maxSize
  rw [Chunk.available, hmax, if_neg (Nat.ne_of_gt h.bounded), h.offset, Nat.sub_zero]

/-- A chunk that was not read because it is overwritten as a whole might as well have been read. -/
theorem Blank.written {overwrite : Nat} (h : s.Blank g c d overwrite x) {data : Bytes}
    (hlen : data.length = g.metadata.layout.capacity x.seqnum) :
    s.written x data = Session.written { s with
        current := some { x with content := g.metadata.layout.part c x.seqnum } }
      { x with content := g.metadata.layout.part c x.seqnum } data := by
  have hfull : Bytes.overlay (g.metadata.layout.part c x.seqnum) 0 data = data := by
    refine Bytes.overlay_zero ?_
    rw [Layout.length_part, hlen]
    have hbounded := h.bounded
    split <;> omega
  have hnil : Bytes.overlay [] 0 data = data := Bytes.overlay_zero (Nat.zero_le _)
  have hinside := h.inside
  simp only [Session.written, Chunk.write, h.content, h.offset, hfull, hnil]
  simp [Nat.ne_of_lt hinside]

/-- **One turn of writing** lays its data over the content, also in a chunk that was not read if
the data fill it. -/
theorem shows_written {overwrite : Nat} (h : s.Shows g c d ∨ s.Blank g c d overwrite x)
    (hx : s.current = some x) (hwrite : g.mode.isWrite = true) {data : Bytes} (hdata : data ≠ [])
    (hroom : ∀ room, x.available = some room → data.length ≤ room)
    (hcovers : s.Blank g c d overwrite x → data.length = g.metadata.layout.capacity x.seqnum) :
    (s.written x data).Shows g (c.overlay s.cursor data) d := by
  rcases h with hshows | hblank
  · exact hshows.written hx hwrite hdata hroom
  · rw [hblank.written (hcovers hblank)]
    exact hblank.shows.written rfl hwrite hdata hroom

end Session

namespace Container

open Session

variable {s : Session} {g : Site} {c d : Bytes} {x : Chunk} {full : Prop}

/-! ## Seeking

A position behind the end may be asked for too; the chunk is then looked for by the next call. So
what a seek leaves is stated with the position asked for changed, whether or not the container has
moved. -/

/-- Any position can be asked for; the container moves there at once if it lies in the content or
right behind it. -/
theorem seek_does (h : s.Shows g c d) {pos : Nat}
    (happending : g.mode.isAppend = true → pos = c.length) :
    (seek pos).Does (pos ≤ c.length ∧ g.metadata.layout.seqnumOf? pos = none) s
      (fun _ s' => s.Onward s' ∧ ∃ d', s'.Shows { g with seekCursor := pos } c d')
      (fun s' => s.Survives s' { g with seekCursor := pos } c) := by
  unfold seek
  refine Op.Does.bind (ensureOpen_does h.toStands) ?_
  rintro - s rfl
  refine Op.Does.get_bind ?_
  have hallowed : ¬(s.mode.isAppend && decide (pos ≠ s.size)) = true := by
    rw [h.mode, h.size]
    simpa using happending
  rw [if_neg hallowed]
  have hseek := h.seek pos
  refine Op.Does.set_bind rfl (Op.Does.when (fun hc => ?_) fun _ =>
    ⟨⟨fun _ => id, Nat.le_refl _, fun hidle => ⟨rfl, hidle.sized⟩, id⟩, d, hseek⟩)
  have hpos : pos ≤ c.length := h.size ▸ hc.2
  refine ((moveTo_shows hseek hpos happending).mono ?_ fun _ => id).relax fun hnone => ⟨hpos, hnone⟩
  rintro _ s' ⟨-, honward, x, d', -, -, h'⟩
  exact ⟨{ honward with quiet := fun hidle => honward.quiet { hidle with } }, d', h'⟩

/-! ## Reading

A turn reads what is left in the current chunk, and goes to the chunk at the cursor first if nothing
is. Every turn reads at least one byte, so as many turns as bytes are wanted are never too few. -/

theorem readChunks_does (h : s.Shows g c d) (hx : s.current = some x)
    (hmode : g.mode.isAppend = false) {turns want : Nat} (hturns : want ≤ turns) :
    (readChunks turns want).Does full s
      (fun data s' => data = Bytes.slice c s.cursor want ∧ s'.cursor = s.cursor + data.length ∧
        s.Onward s' ∧ ∃ d', s'.Shows g c d')
      (fun s' => s.Survives s' g c) := by
  induction turns generalizing s d x want with
  | zero =>
    obtain rfl : want = 0 := by omega
    exact Op.Does.pure ⟨by simp [Bytes.slice], rfl, Onward.refl s, d, h⟩
  | succ turns ih =>
    unfold readChunks
    refine Op.Does.get_bind ?_
    by_cases hdone : want = 0 ∨ s.size ≤ s.cursor
    · rw [if_pos hdone]
      have hnil : Bytes.slice c s.cursor want = [] := by
        rw [← List.length_eq_zero_iff, Bytes.length_slice, ← h.size]
        omega
      exact Op.Does.pure ⟨hnil.symm, rfl, Onward.refl s, d, h⟩
    · rw [if_neg hdone]
      obtain ⟨hwant, hinside⟩ : want ≠ 0 ∧ s.cursor < c.length := by
        rw [h.size] at hdone
        omega
      -- Induction on the turns. Reading goes on in the same way in a chunk that was current before
      -- and in one that was moved to.
      have hhere {t : Session} {d₁ : Bytes} {y : Chunk} (ht : t.Shows g c d₁)
          (hy : t.current = some y) (hleft : y.remaining ≠ 0) (hcursor : t.cursor = s.cursor)
          (honward : s.Onward t) :
          Op.Does (do
              let chunk ← active
              if chunk.remaining = 0 then return []
              else
                let s ← get
                let read := chunk.read (min want (s.size - s.cursor))
                set { s with current := some read.2, cursor := s.cursor + read.1.length }
                return read.1 ++ (← readChunks turns (want - read.1.length)))
            full t
            (fun data s' => data = Bytes.slice c s.cursor want ∧
              s'.cursor = s.cursor + data.length ∧ s.Onward s' ∧ ∃ d', s'.Shows g c d')
            (fun s' => s.Survives s' g c) := by
        refine Op.Does.bind (active_does hy) ?_
        rintro y t ⟨rfl, rfl⟩
        rw [if_neg hleft]
        refine Op.Does.get_bind ?_
        obtain ⟨hslice, hlen, hread, hpassed⟩ :=
          ht.read_current hy hmode (min want (t.size - t.cursor))
        generalize y.read (min want (t.size - t.cursor)) = read at *
        obtain ⟨data, z⟩ := read
        dsimp only at *
        rw [ht.size] at hlen
        have hahead := honward.trans hpassed
        refine Op.Does.set_bind rfl (Op.Does.bind ((ih hread rfl (by omega)).mono
          (fun _ _ => id) fun _ h' => h'.after hahead) ?_)
        rintro rest s' ⟨hrest, hcursor', honward', d', h'⟩
        refine Op.Does.pure ⟨?_, ?_, hahead.trans honward', d', h'⟩
        · calc data ++ rest
            _ = Bytes.slice c t.cursor data.length
                ++ Bytes.slice c (t.cursor + data.length) (want - data.length) := by
              rw [hrest, ← hslice]
            _ = Bytes.slice c s.cursor want := by
              rw [Bytes.slice_append_slice, hcursor, Nat.add_sub_cancel' (by omega)]
        · rw [hcursor', List.length_append, ← hcursor]
          exact Nat.add_assoc _ _ _
      refine Op.Does.bind (active_does hx) ?_
      rintro x s ⟨rfl, rfl⟩
      by_cases hleft : x.remaining = 0
      · simp only [if_pos hleft]
        refine Op.Does.bind ((moveTo_shows h (h.points x hx).le (by simp [hmode])).relax
          fun hfull => absurd hfull (h.seqnumOf?_ne_none hinside)) ?_
        rintro - t ⟨hcursor, honward, y, d₁, hy, hnum, ht⟩
        rw [← hcursor] at hnum hinside
        exact hhere ht hy (ht.remaining_pos hy hnum hinside) hcursor honward
      · simp only [if_neg hleft]
        exact hhere h hx hleft rfl (Onward.refl s)

/-- **Reading answers the bytes at the position,** as many as asked for if there are so many. -/
theorem read_does (h : s.Shows g c d) (hmode : g.mode.isAppend = false) (n : Nat) :
    (read n).Does full s
      (fun data s' => data = Bytes.slice c g.seekCursor n ∧ s.Onward s' ∧
        ∃ d', s'.Shows { g with seekCursor := g.seekCursor + data.length } c d')
      (fun s' => s.Survives s' g c) := by
  have hnothing (hnil : Bytes.slice c g.seekCursor n = []) :
      [] = Bytes.slice c g.seekCursor n ∧ s.Onward s ∧
        ∃ d', s.Shows { g with seekCursor := g.seekCursor + List.length ([] : Bytes) } c d' :=
    ⟨hnil.symm, Onward.refl s, d, h⟩
  unfold read
  by_cases hn : n = 0
  · rw [if_pos hn]
    exact Op.Does.pure (hnothing (by simp [hn, Bytes.slice]))
  · rw [if_neg hn]
    refine Op.Does.bind (ensureOpen_does h.toStands) ?_
    rintro - s rfl
    refine Op.Does.get_bind ?_
    simp only [h.mode, hmode, Bool.false_eq_true, if_false]
    rw [h.size, h.seekCursor]
    by_cases hend : c.length ≤ g.seekCursor
    · rw [if_pos hend]
      refine Op.Does.pure (hnothing ?_)
      rw [← List.length_eq_zero_iff, Bytes.length_slice]
      omega
    · rw [if_neg hend]
      refine Op.Does.bind ((syncCursor_does h (by omega) (by simp [hmode])).relax
        fun hfull => absurd hfull (h.seqnumOf?_ne_none (Nat.lt_of_not_le hend))) ?_
      rintro - t ⟨hcursor, honward, x, d₁, hx, ht⟩
      refine Op.Does.bind ((readChunks_does ht hx hmode (Nat.le_refl n)).mono (fun _ _ => id)
        fun _ h' => h'.after honward) ?_
      rintro data s' ⟨hdata, hcursor', honward', d', h'⟩
      refine Op.Does.modify_bind rfl (Op.Does.pure ⟨?_, ?_, d', ?_⟩)
      · rw [hdata, hcursor]
      · exact { honward.trans honward' with }
      · rw [← hcursor, ← hcursor']
        exact h'.seek s'.cursor

/-! ## Writing

Unlike reading, writing may run out of chunk numbers. The failure then is not one of the backing
file, and the statements carry it as `Layout.Spills`, a fact about the position behind the data
alone. -/

/-- There is room at the cursor, if need be in the next chunk. -/
theorem roomAtCursor_does (h : s.Shows g c d) (hx : s.current = some x) (remaining : Nat) :
    (roomAtCursor remaining).Does (g.metadata.layout.seqnumOf? s.cursor = none) s
      (fun room s' => s'.cursor = s.cursor ∧ ∃ y d', s'.current = some y ∧ room = y.available ∧
        room ≠ some 0 ∧ (s'.Shows g c d' ∨ s'.Blank g c d' remaining y))
      (fun s' => s'.Placed ∧ ∃ c' d', s'.Shows g c' d') := by
  have hpoints := h.points x hx
  have hmirrors := h.mirrors hx
  have heq := hpoints.eq
  have hwithin := hpoints.within
  have hplaced : s.Placed := Nat.le_trans hpoints.le (Nat.le_of_eq h.size.symm)
  unfold roomAtCursor
  refine Op.Does.bind (active_does hx) ?_
  rintro x s ⟨rfl, rfl⟩
  by_cases hend : x.available = some 0
  · rw [if_pos hend]
    have hcap : 0 < g.metadata.layout.capacity x.seqnum ∧
        s.cursor = g.metadata.layout.startOf (x.seqnum + 1) := by
      simp only [Chunk.available, hmirrors.maxSize, Option.ite_none_left_eq_some,
        Option.some.injEq] at hend
      rw [Layout.startOf_succ]
      unfold Layout.Within at hwithin
      omega
    obtain ⟨hcap, hcursor⟩ := hcap
    have hreaches : g.metadata.layout.Reaches (x.seqnum + 1) :=
      (h.recalls.reaches.mono hmirrors.le).succ hcap
    by_cases hlimit : seqnumLimit ≤ x.seqnum + 1
    · simp only [if_pos hlimit]
      -- No chunk may follow, so the cursor has no number.
      have hfull : g.metadata.layout.seqnumOf? s.cursor = none := by
        cases hlen : g.metadata.layout.seqnumOf? s.cursor with
        | none => rfl
        | some j =>
          obtain ⟨-, -, hlast, hnumber⟩ := Layout.seqnumOf?_eq_some_iff.mp hlen
          have hj : j < x.seqnum + 1 := by omega
          have hle := g.metadata.layout.startOf_add_capacity_le hj
          have hpos := hreaches j hj
          omega
      exact fun _ => ⟨.inr ⟨Fault.Worn.refl _, hfull⟩, hplaced, c, d, h⟩
    · simp only [if_neg hlimit]
      refine Op.Does.get_bind ?_
      rw [h.layout, ← hcursor]
      refine Op.Does.bind ((moveTo_does h remaining hpoints.le hpoints.appending).mono
        (fun _ _ => id) ?_) ?_
      · rintro s' ⟨hplaced', c', d', h', -⟩
        exact ⟨hplaced' hplaced, c', d', h'⟩
      rintro - t ⟨⟨hcursor', y, d₁, hy, hnum, hshows⟩, -⟩
      -- The cursor is where the next chunk starts.
      have hnext : y.seqnum = x.seqnum + 1 := by
        rw [hcursor, Layout.seqnumOf?_startOf hreaches (by omega)] at hnum
        simpa using hnum.symm
      obtain ⟨hoffset, hmax⟩ : y.offset = 0 ∧ y.maxSize = g.metadata.layout.capacity y.seqnum := by
        rcases hshows with hshows | hblank
        · have hplace := (hshows.points y hy).eq
          rw [hcursor', hcursor, hnext] at hplace
          exact ⟨by omega, (hshows.mirrors hy).maxSize⟩
        · exact ⟨hblank.offset, (hblank.shows.mirrors rfl).maxSize⟩
      have hroom : y.available ≠ some 0 := by
        simp only [Chunk.available, hoffset, hmax]
        split <;> simp_all
      refine Op.Does.bind (active_does hy) ?_
      rintro y t ⟨rfl, rfl⟩
      simp only [if_neg hroom]
      exact Op.Does.pure ⟨hcursor', y, d₁, hy, rfl, hroom, hshows⟩
  · rw [if_neg hend]
    exact Op.Does.pure ⟨rfl, x, d, hx, rfl, hend, .inl h⟩

theorem writeCurrent_does (hblock : s.processor.config.streaming = false) (hx : s.current = some x)
    (data : Bytes) (err : Session → Prop) :
    (writeCurrent data).Does full s (fun _ s' => s' = s.written x data) err := by
  unfold writeCurrent
  refine Op.Does.bind (active_does hx) ?_
  rintro x s ⟨rfl, rfl⟩
  refine Op.Does.modify_bind rfl (Op.Does.get_bind ?_)
  rw [if_neg (by simpa using hblock)]
  exact Op.Does.pure rfl

/-- **Writing lays the data over the content at the cursor,** in as many chunks as it takes. Every
byte of the data needs a chunk number, the position behind them does not. -/
theorem writeChunks_does (h : s.Shows g c d) (hwrite : g.mode.isWrite = true)
    (hx : s.current = some x) {turns : Nat} {data : Bytes} (hturns : data.length ≤ turns) :
    (writeChunks turns data).Does (g.metadata.layout.Spills (s.cursor + data.length)) s
      (fun _ s' => s'.cursor = s.cursor + data.length ∧ ∃ y d', s'.current = some y ∧
        s'.Shows g (c.overlay s.cursor data) d')
      (fun s' => s'.Placed ∧ ∃ c' d', s'.Shows g c' d') := by
  induction turns generalizing s c d x data with
  | zero =>
    obtain rfl : data = [] := List.eq_nil_of_length_eq_zero (by omega)
    refine Op.Does.pure ⟨rfl, x, d, hx, ?_⟩
    rw [Bytes.overlay_nil (h.points x hx).le]
    exact h
  | succ turns ih =>
    unfold writeChunks
    refine Op.Does.when (fun hdata => ?_) fun hdata => ?_
    · have hle := (h.points x hx).le
      have hpos := List.length_pos_iff.mpr hdata
      refine Op.Does.bind ((roomAtCursor_does h hx data.length).relax
        fun hnone => ⟨s.cursor, by omega, hnone⟩) ?_
      rintro room t ⟨hcursor, y, d₁, hy, rfl, hroom, hshows⟩
      have hblock : t.processor.config.streaming = false := by
        rcases hshows with hshows | hblank
        · exact hshows.blockwise
        · exact hblank.shows.blockwise
      -- Induction on the turns. A turn writes as much as fits; a chunk that was not read is filled
      -- as a whole.
      have hstep (len : Nat) (hlen : 0 < len ∧ len ≤ data.length)
          (hfits : ∀ room, y.available = some room → len ≤ room)
          (hcovers : t.Blank g c d₁ data.length y →
            len = g.metadata.layout.capacity y.seqnum) :
          Op.Does (do writeCurrent (data.take len); writeChunks turns (data.drop len))
            (g.metadata.layout.Spills (s.cursor + data.length)) t
            (fun _ s' => s'.cursor = s.cursor + data.length ∧ ∃ y d', s'.current = some y ∧
              s'.Shows g (c.overlay s.cursor data) d')
            (fun s' => s'.Placed ∧ ∃ c' d', s'.Shows g c' d') := by
        have htake : (data.take len).length = len := by
          rw [List.length_take]
          omega
        have hne : data.take len ≠ [] := by
          rw [ne_eq, ← List.length_eq_zero_iff]
          omega
        have hwritten := shows_written hshows hy hwrite hne (by rwa [htake])
          fun hblank => htake.trans (hcovers hblank)
        rw [hcursor] at hwritten
        refine Op.Does.bind (writeCurrent_does hblock hy (data.take len) _) ?_
        rintro - _ rfl
        have hcursor' : (t.written y (data.take len)).cursor = s.cursor + len := by
          show t.cursor + (data.take len).length = _
          rw [hcursor, htake]
        have hdrop : (data.drop len).length = data.length - len := List.length_drop
        have hrest := ih hwritten (x := { (y.write (data.take len)).2 with dirty := true }) rfl
          (Nat.le_trans (Nat.le_of_eq hdrop) (by omega))
        rw [hcursor'] at hrest
        have hend : s.cursor + len + (data.drop len).length = s.cursor + data.length := by omega
        have hover : (c.overlay s.cursor (data.take len)).overlay (s.cursor + len) (data.drop len)
            = c.overlay s.cursor data := by
          have hsplit := Bytes.overlay_overlay c s.cursor (data.take len) (data.drop len)
          rwa [htake, List.take_append_drop] at hsplit
        rw [hend, hover] at hrest
        exact hrest
      cases hroom' : y.available with
      | none =>
        refine hstep data.length ⟨hpos, Nat.le_refl _⟩ (by simp [hroom']) fun hblank => ?_
        rw [hblank.available] at hroom'
        exact absurd hroom' (by simp)
      | some room =>
        have hne : room ≠ 0 := fun h0 => hroom (by rw [hroom', h0])
        refine hstep (min room data.length) (by omega) ?_ fun hblank => ?_
        · rw [hroom']
          rintro _ ⟨⟩
          exact Nat.min_le_left _ _
        · rw [hblank.available] at hroom'
          obtain rfl : _ = room := by simpa using hroom'
          exact Nat.min_eq_left hblank.covered
    · obtain rfl : data = [] := Classical.not_not.mp hdata
      refine ⟨rfl, x, d, hx, ?_⟩
      rw [Bytes.overlay_nil (h.points x hx).le]
      exact h

theorem writeAll_does (h : s.Shows g c d) (hwrite : g.mode.isWrite = true)
    (hx : s.current = some x) (data : Bytes) :
    (writeAll data).Does (g.metadata.layout.Spills (s.cursor + data.length)) s
      (fun _ s' => s'.cursor = s.cursor + data.length ∧ ∃ y d', s'.current = some y ∧
        s'.Shows g (c.overlay s.cursor data) d')
      (fun s' => s'.Placed ∧ ∃ c' d', s'.Shows g c' d') :=
  writeChunks_does h hwrite hx (Nat.le_refl _)

end Container

end Vault
