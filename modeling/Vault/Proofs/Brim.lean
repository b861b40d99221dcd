import Vault.Proofs.Addressing
import Vault.Proofs.Reopen

/-!
# `Vault/Proofs/Brim.lean` — how full a container can get

Chunks are numbered in 32 bits, so a content ends somewhere. Two questions are asked at that end and
answered in two ways. Adding data asks, before each byte, for the number of the chunk that the byte
goes to. Opening asks for the number of the chunk that holds the position *behind* the last byte.
**A content that fills the last numbered chunk can be written and closed, and never be opened
again.**

Both questions are answered by where the content ends: `Layout.limit` is the position behind the
last byte that has a chunk number. `Shows.write_answers_iff` and `Shows.truncate_answers_iff` say up
to where data are added, and `Flushed.opens_iff` says what is opened again; the theorem at the end
puts them side by side.
-/

set_option autoImplicit false

namespace Vault

/-- Chunks of a container are bounded, unless they are said not to be. -/
theorem Metadata.reaches_layout {m : Metadata} (hchunk : 0 < m.chunkMax) (i : Nat) :
    m.layout.Reaches i :=
  Layout.reaches_ofSizes m.firstMax hchunk m.overhead m.dataOffset i

namespace Session

variable {s t u r : Session} {g : Site} {c d : Bytes} {n : Nat} {mode : Mode}

theorem Shows.length_le_limit (h : s.Shows g c d) (hchunk : 0 < g.metadata.chunkMax) :
    c.length ≤ g.metadata.layout.limit :=
  Layout.Within.le_limit (Metadata.reaches_layout hchunk _) h.stores.numbered h.recalls.within

/-! ## Calls that add to the content

A call that has answered leaves a container that shows its content, and what is shown never ends
behind the limit. The other direction is what the calls need to answer: a number for the last
byte, and in an appending mode, where growing moves to the new end, one for the end too. -/

/-- A write of some data or a growing truncation has answered. The content has this size then. -/
inductive Accepts (s : Session) : Nat → Session → Prop
  | wrote {data : Bytes} {told : Nat} {t : Session} (nonempty : data ≠ [])
      (run : Container.write data s = .ok told t) : Accepts s (max s.size (s.pos + data.length)) t
  | grew {n : Nat} {backup : Bool} {t : Session} (more : s.size < n)
      (run : Container.truncate n backup s = .ok () t) : Accepts s n t

/-- Such a call leaves an open container that shows a content of this size. -/
theorem Accepts.shows (haccepts : s.Accepts n t) (h : s.Shows g c d) (htame : Fault.Tame s.faults) :
    Fault.Spares s.faults t.faults ∧
      ∃ pos c' d', c'.length = n ∧ t.Shows { g with seekCursor := pos } c' d' := by
  cases haccepts with
  | @wrote data told _ hdata run =>
    cases hwrite : g.mode.isWrite with
    | false =>
      rw [Container.write_refused h hwrite hdata] at run
      exact absurd run (by simp)
    | true =>
      obtain ⟨hspares, -, -, d', h'⟩ := (Container.write_does h hwrite hdata).of_ok htame run
      refine ⟨hspares, _, _, d', ?_, h'⟩
      rw [Bytes.length_overlay, h.size, ← h.seekCursor]
      rfl
  | @grew _ backup _ hmore run =>
    cases hwrite : g.mode.isWrite with
    | false =>
      rw [Container.truncate_readOnly h hwrite] at run
      exact absurd run (by simp)
    | true =>
      rw [h.size] at hmore
      obtain ⟨hspares, -, pos, d', h'⟩ :=
        (Container.truncate_grows h hwrite hmore backup).of_ok htame run
      exact ⟨hspares, pos, _, d', Bytes.length_resize c n, h'⟩

/-- **A write is answered as long as its last byte has a chunk number.** -/
theorem Shows.write_answers_iff (h : s.Shows g c d) (hchunk : 0 < g.metadata.chunkMax)
    (hwrite : g.mode.isWrite = true) (hfaults : s.faults = []) (hplaced : s.Placed) {data : Bytes}
    (hdata : data ≠ []) (hend : g.mode.isAppend = true → s.pos = s.size) :
    (∃ told t, Container.write data s = .ok told t) ↔
      s.pos + data.length ≤ g.metadata.layout.limit ∧
        Container.zerosAtOnce s s.pos ≤ allocationLimit := by
  have hdoes := Container.write_does h hwrite hdata
  have htame : Fault.Tame s.faults := Fault.tame_of_nil hfaults
  have hpos : s.pos = g.seekCursor := h.seekCursor
  constructor
  · rintro ⟨told, t, run⟩
    obtain ⟨-, pos, c', d', hlen, h'⟩ := (Accepts.wrote hdata run).shows h htame
    have hle := h'.length_le_limit hchunk
    rw [hlen] at hle
    refine ⟨Nat.le_trans (Nat.le_max_right _ _) hle, Nat.le_of_not_lt fun hlarge => ?_⟩
    rw [Container.write_breaksOff h hwrite hdata hlarge] at run
    exact absurd run (by simp)
  · rintro ⟨hle, hsmall⟩
    have hroom : ¬(g.metadata.layout.Spills (g.seekCursor + data.length) ∨
        (g.mode.isAppend = true ∧ g.seekCursor < c.length) ∨ ¬s.Placed ∨
        allocationLimit < Container.zerosAtOnce s g.seekCursor) := by
      rintro (hspills | ⟨happ, hbefore⟩ | hunplaced | hlarge)
      · rw [Layout.spills_iff (Metadata.reaches_layout hchunk _)] at hspills
        omega
      · have hat := hend happ
        rw [h.size] at hat
        omega
      · exact hunplaced hplaced
      · exact Nat.not_lt.mpr hsmall (hpos ▸ hlarge)
    obtain ⟨told, t, run, -⟩ := hdoes.answers hfaults hroom
    exact ⟨told, t, run⟩

/-- **A growing truncation is answered as long as the last byte has a chunk number,** and in an
appending mode only if the new end has one. -/
theorem Shows.truncate_answers_iff (h : s.Shows g c d) (hchunk : 0 < g.metadata.chunkMax)
    (hwrite : g.mode.isWrite = true) (hfaults : s.faults = []) (hplaced : s.Placed)
    (hmore : s.size < n) (backup : Bool) :
    (∃ t, Container.truncate n backup s = .ok () t) ↔
      n ≤ g.metadata.layout.limit ∧ (g.mode.isAppend = true → n < g.metadata.layout.limit) ∧
        Container.zerosAtOnce s n ≤ allocationLimit := by
  have hlt : c.length < n := h.size ▸ hmore
  have hdoes := Container.truncate_grows h hwrite hlt backup
  have htame : Fault.Tame s.faults := Fault.tame_of_nil hfaults
  have hreaches := Metadata.reaches_layout hchunk seqnumLimit
  constructor
  · rintro ⟨t, run⟩
    obtain ⟨-, hnum, pos, d', h'⟩ := hdoes.of_ok htame run
    have hle := h'.length_le_limit hchunk
    rw [Bytes.length_resize] at hle
    refine ⟨hle, fun happ => Nat.lt_of_not_le fun hbehind => ?_, Nat.le_of_not_lt fun hlarge => ?_⟩
    · exact hnum happ ((Layout.seqnumOf?_eq_none_iff hreaches).mpr hbehind)
    · rw [Container.truncate_breaksOff h hwrite hlarge] at run
      exact absurd run (by simp)
  · rintro ⟨hle, happend, hsmall⟩
    have hroom : ¬(g.metadata.layout.Spills n ∨
        (g.mode.isAppend = true ∧ g.metadata.layout.seqnumOf? n = none) ∨ ¬s.Placed ∨
        allocationLimit < Container.zerosAtOnce s n) := by
      rintro (hspills | ⟨happ, hnone⟩ | hunplaced | hlarge)
      · exact absurd ((Layout.spills_iff hreaches).mp hspills) (Nat.not_lt_of_le hle)
      · have hbehind := (Layout.seqnumOf?_eq_none_iff hreaches).mp hnone
        exact absurd (happend happ) (Nat.not_lt_of_le hbehind)
      · exact hunplaced hplaced
      · exact Nat.not_lt.mpr hsmall hlarge
    obtain ⟨_, t, run, -⟩ := hdoes.answers hfaults hroom
    exact ⟨t, run⟩

/-! ## Opening what was filled

A file whose content ends at the limit is as sound as any other. What fails is the question for
the chunk of its end, which no mode can do without. -/

/-- **A flushed file opens if its content ends in front of the limit,** and only then. -/
theorem Flushed.opens_iff (h : s.Flushed g c) (hfits : g.metadata.Fits c.length)
    (hchunk : 0 < g.metadata.chunkMax) (hr : r.Comes g.metadata.master g.path s.disk)
    (hmode : mode.createsFile true = false) :
    (∃ r', Container.openIn mode r = .ok () r') ↔ c.length < g.metadata.layout.limit := by
  have hwaits := h.waits hr.closed hr.disk hr.path hr.master hr.sealed
  have hdoes := Container.openIn_does hwaits hfits hmode .unknown trivial
  have hnumbered := Layout.seqnumOf?_eq_none_iff (n := c.length)
    (Metadata.reaches_layout hchunk seqnumLimit)
  constructor
  · rintro ⟨r', run⟩
    obtain ⟨-, -, -, -, hnum, -⟩ := hdoes.of_ok (Fault.tame_of_nil hr.faults) run
    exact Nat.lt_of_not_le fun hle => hnum (hnumbered.mpr hle)
  · intro hlt
    obtain ⟨_, r', run, -⟩ := hdoes.answers hr.faults fun hnone =>
      absurd hlt (Nat.not_lt_of_le (hnumbered.mp hnone))
    exact ⟨r', run⟩

/-- Where it was opened, users can go to its end. -/
theorem Flushed.opens_to_end (h : s.Flushed g c) (hfits : g.metadata.Fits c.length)
    (hr : r.Comes g.metadata.master g.path s.disk) (hmode : mode.createsFile true = false)
    (run : Container.openIn mode r = .ok () u) :
    u.size = c.length ∧ ∃ u', Container.seek c.length u = .ok () u' := by
  have hwaits := h.waits hr.closed hr.disk hr.path hr.master hr.sealed
  obtain ⟨hspares, hflushed, -, -, hnum, -⟩ :=
    (Container.openIn_does hwaits hfits hmode .unknown trivial).of_ok
      (Fault.tame_of_nil hr.faults) run
  obtain ⟨_, u', hseek, -⟩ := (Container.seek_does hflushed.toShows fun _ => rfl).answers
    (Fault.Spares.nil (hr.faults ▸ hspares)) fun hnone => hnum hnone.2
  exact ⟨hflushed.size, u', hseek⟩

end Session

open Session

/-- **What fills the last numbered chunk cannot be opened again.** A container with bounded chunks
is open and shows a content. Without faults, data can be added until the content ends where the last
numbered chunk does; only a truncation in an appending mode stops one byte before that, and a gap
can be filled only where there is a buffer for the zeros. Whenever data was added, the content does
not end behind this limit. If it ends in front of it, its end has a chunk number, and whoever comes
to the file after the container was closed opens it and goes to that end. If it ends at the limit,
the call was answered as well, but the end has no chunk number, and no mode opens the file that is
left. -/
theorem brimful_cannot_be_reopened {s : Session} {g : Site} {c d : Bytes} (h : s.Shows g c d)
    (hchunk : 0 < g.metadata.chunkMax) (htame : Fault.Tame s.faults) :
    (s.faults = [] → s.Placed → s.mode.isWrite = true →
      (∀ data : Bytes, data ≠ [] → (s.mode.isAppend = true → s.pos = s.size) →
        ((∃ told t, Container.write data s = .ok told t) ↔
          s.pos + data.length ≤ s.layout.limit ∧
            Container.zerosAtOnce s s.pos ≤ allocationLimit)) ∧
      ∀ n backup, s.size < n →
        ((∃ t, Container.truncate n backup s = .ok () t) ↔
          n ≤ s.layout.limit ∧ (s.mode.isAppend = true → n < s.layout.limit) ∧
            Container.zerosAtOnce s n ≤ allocationLimit)) ∧
    ∀ n t, s.Accepts n t →
      t.size = n ∧ n ≤ s.layout.limit ∧ t.layout = s.layout ∧
      (t.layout.seqnumOf? n ≠ none ↔ n < s.layout.limit) ∧
      ∀ u, t.Bounded → Container.close t = .ok () u →
        ∀ r : Session, r.Comes s.processor.master s.path u.disk →
          ∀ mode : Mode, mode.createsFile true = false →
            ((∃ r', Container.openIn mode r = .ok () r') ↔ n < s.layout.limit) ∧
            ∀ r', Container.openIn mode r = .ok () r' →
              r'.size = n ∧ ∃ r'', Container.seek n r' = .ok () r'' := by
  have hmaster : s.processor.master = g.metadata.master := by rw [h.processor, g.master]
  rw [h.layout, h.mode, hmaster, h.path]
  refine ⟨fun hfaults hplaced hwrite =>
    ⟨fun data hdata hend => ?write, fun n backup hmore => ?grow⟩, fun n t haccepts => ?added⟩
  case write => exact h.write_answers_iff hchunk hwrite hfaults hplaced hdata hend
  case grow => exact h.truncate_answers_iff hchunk hwrite hfaults hplaced hmore backup
  case added =>
    obtain ⟨hspares, pos, c', d', rfl, ht⟩ := haccepts.shows h htame
    refine ⟨ht.size, ht.length_le_limit hchunk, ht.layout, ?number, ?reopen⟩
    case number =>
      rw [ht.layout, Ne, Layout.seqnumOf?_eq_none_iff (Metadata.reaches_layout hchunk _)]
      exact Nat.not_le
    case reopen =>
      -- closing writes what was unwritten, so the file that it leaves keeps all of the content
      intro u hbounded hclose r hr mode hmode
      have hfits := ht.fits hbounded
      have hcloses : Container.close.Does False t _ _ := Container.close_does ht
      obtain ⟨-, v, hv, x, rfl⟩ := hcloses.of_ok (hspares.worn.tame htame) hclose
      exact ⟨hv.opens_iff hfits hchunk hr hmode, fun r' => hv.opens_to_end hfits hr hmode⟩

/-- With one byte in each chunk, a new container can be grown to as many bytes as there are chunk
numbers and closed, and that was the last time that it was open. -/
theorem brimful_cannot_be_reopened_bytewise :
    ∃ s t u : Session,
      Container.openIn .writeNew (pristine "vault"
        (Processor.ofConfig ⟨[7]⟩ { chunkMax := 1 }) {} (Random.seeded 0)) = .ok () s ∧
      Container.truncate 0x100000000 false s = .ok () t ∧ t.size = 0x100000000 ∧
      t.layout.seqnumOf? 0x100000000 = none ∧ Container.close t = .ok () u ∧
      ∀ mode : Mode, mode.createsFile true = false →
        ∀ r', Container.openIn mode u ≠ .ok () r' := by
  have hvacant : Vacant (pristine "vault" (Processor.ofConfig ⟨[7]⟩ { chunkMax := 1 }) {}
      (Random.seeded 0)) .writeNew := vacant_pristine (by decide) rfl rfl rfl
  have hopens : (Container.openIn .writeNew).Does False _ _ _ := Container.openNew_does hvacant
  obtain ⟨_, s, hopen, hfaults, g, hg, hs, hplaced, -⟩ := hopens.answers rfl not_false
  have hfirst : g.metadata.firstMax = 0 := hg.firstMax
  have hchunk : g.metadata.chunkMax = 1 := hg.chunkMax
  have hmode : s.mode = .writeNew := hs.mode.trans hg.mode
  have hlimit : s.layout.limit = 0x100000000 := by
    rw [hs.layout]
    simp [Layout.limit, Layout.startOf, Metadata.layout, Layout.ofSizes, hfirst, hchunk,
      seqnumLimit]
  have htame : Fault.Tame s.faults := Fault.tame_of_nil hfaults
  obtain ⟨hanswers, hadded⟩ := brimful_cannot_be_reopened hs.toShows (by rw [hchunk]; decide) htame
  have hmore : s.size < 0x100000000 := by
    rw [hs.size]
    decide
  obtain ⟨t, hgrow⟩ := ((hanswers hfaults hplaced (by rw [hmode]; rfl)).2 _ false hmore).mpr
    ⟨Nat.le_of_eq hlimit.symm, by simp [hmode, Mode.isAppend],
      Container.zerosAtOnce_le_limit (by decide) s⟩
  have haccepts : s.Accepts 0x100000000 t := .grew hmore hgrow
  obtain ⟨hspares, pos, c, d, hlen, ht⟩ := haccepts.shows hs.toShows htame
  have hbounded : t.Bounded := by
    unfold Bounded
    rw [ht.layout, ht.size, hlen]
    exact Metadata.fits_of_lt (by decide)
  have hcloses : Container.close.Does False t _ _ := Container.close_does ht
  obtain ⟨_, u, hclose, hfaults', v, hv, hforgotten⟩ :=
    hcloses.answers (Fault.Spares.nil (hfaults ▸ hspares)) not_false
  have hwaits := hv.waits_forgotten hforgotten
  obtain ⟨hsize, -, -, hnumber, hreopen⟩ := hadded _ t haccepts
  -- the content ends at the limit exactly
  have hfull : ¬0x100000000 < s.layout.limit := Nat.not_lt_of_le (Nat.le_of_eq hlimit)
  refine ⟨s, t, u, hopen, hgrow, hsize, ?_, hclose, fun mode hexists r' hagain => ?_⟩
  · exact Classical.not_not.mp (mt hnumber.mp hfull)
  · have hcomes : u.Comes s.processor.master s.path u.disk := by
      obtain ⟨x, rfl⟩ := hforgotten
      exact ⟨rfl, hfaults', hwaits.master.trans (by rw [hs.processor, g.master]), hv.blockwise,
        hv.path.trans hs.path.symm, rfl⟩
    exact hfull ((hreopen u hbounded hclose u hcomes mode hexists).1.mp ⟨r', hagain⟩)

end Vault
