import Mathlib.Algebra.Group.Nat.Defs
import Vault.Proofs.Calls

/-!
# `Vault/Proofs/Flat.lean` — a container is a string of bytes

What a container is for: a string of bytes with a position, without chunks, memory or a disk
(`Flat`). **Without faults an open container answers every list of calls as the plain string does,**
whatever the capacities of its chunks are, and whatever it is told to keep in memory on the way.
Only the sizes have to be such that the end of the content has a chunk number.

The relation between the two is that the container shows the string (`Session.Depicts`), and each
call keeps it (`Depicts.step`).

Where the content gets shorter, what stood behind the chunk data is gone for good; the relation
carries that along with the place where the container is open (`Site.after`).
-/

set_option autoImplicit false

namespace Vault

/-- A string of bytes with a position in it or behind it. -/
structure Flat where
  content : Bytes
  pos : Nat
  /-- Is all that can be done to add bytes at the end? -/
  appending : Bool
deriving DecidableEq

namespace Flat

/-- The string that a container is when it was just opened. -/
def opened (mode : Mode) (content : Bytes) : Flat :=
  { content, pos := if mode.isAppend then content.length else 0, appending := mode.isAppend }

/-- What a call is answered, and the string after it. Reading answers what is there of the bytes
asked for, writing fills a gap with zeros, and truncating cuts or appends zeros. -/
def step (f : Flat) : Call → Except Error Answer × Flat
  | .seek pos =>
    if f.appending ∧ pos ≠ f.content.length then (.error (.invalidSeek pos f.content.length), f)
    else (.ok .done, { f with pos })
  | .read n =>
    if n = 0 then (.ok (.data []), f)
    else if f.appending then (.error .readFailed, f)
    else
      let data := f.content.slice f.pos n
      (.ok (.data data), { f with pos := f.pos + data.length })
  | .write data =>
    if data = [] then (.ok (.number 0), f)
    else
      (.ok (.number data.length),
        { f with content := f.content.overlay f.pos data, pos := f.pos + data.length })
  | .truncate newSize _ =>
    if f.appending ∧ newSize < f.content.length then
      (.error (.invalidSeek newSize f.content.length), f)
    else
      (.ok .done,
        { f with
          content := f.content.resize newSize
          pos := if f.appending then newSize else f.pos })
  | .contentSize => (.ok (.number f.content.length), f)
  | .position => (.ok (.number f.pos), f)
  | .flush _ | .sync | .fsync | .usedSize | .invalidate => (.ok .done, f)
  | .setMaxCached _ | .setCacheEnabled _ | .setBlock _ => (.ok .done, f)

/-- What a list of calls is answered, and the string after them. -/
def run (f : Flat) : List Call → List (Except Error Answer) × Flat
  | [] => ([], f)
  | call :: calls =>
    let rest := (f.step call).2.run calls
    ((f.step call).1 :: rest.1, rest.2)

/-- The strings on the way. -/
def reached (f : Flat) : List Call → List Flat
  | [] => [f]
  | call :: calls => f :: (f.step call).2.reached calls

theorem self_mem_reached (f : Flat) (calls : List Call) : f ∈ f.reached calls := by
  cases calls <;> exact List.mem_cons_self

theorem last_mem_reached (f : Flat) (calls : List Call) : (f.run calls).2 ∈ f.reached calls := by
  induction calls generalizing f with
  | nil => exact List.mem_cons_self
  | cons call calls ih => exact List.mem_cons_of_mem f (ih (f.step call).2)

/-- Where bytes are only added at the end, the position is the end. -/
def AtEnd (f : Flat) : Prop := f.appending = true → f.pos = f.content.length

theorem atEnd_opened (mode : Mode) (content : Bytes) : (opened mode content).AtEnd := fun h =>
  if_pos h

/-- On the way the content only gets longer. -/
def Grows (f : Flat) (calls : List Call) : Prop :=
  ∀ r ∈ f.reached calls, f.content.length ≤ r.content.length ∧
    r.content.length ≤ (f.run calls).2.content.length

theorem grows_nil (f : Flat) : f.Grows [] := by
  intro r hr
  obtain rfl := List.mem_singleton.mp hr
  exact ⟨Nat.le_refl _, Nat.le_refl _⟩

theorem Grows.cons {f : Flat} {call : Call} {calls : List Call}
    (h : (f.step call).2.Grows calls) (hle : f.content.length ≤ (f.step call).2.content.length) :
    f.Grows (call :: calls) := by
  intro r hr
  rcases List.mem_cons.mp hr with rfl | hr
  · exact ⟨Nat.le_refl _, Nat.le_trans hle (h _ (self_mem_reached _ calls)).2⟩
  · exact ⟨Nat.le_trans hle (h r hr).1, (h r hr).2⟩

theorem AtEnd.step {f : Flat} (h : f.AtEnd) (call : Call) : (f.step call).2.AtEnd := by
  unfold AtEnd at h ⊢
  cases call with
  | seek pos =>
    simp only [Flat.step]
    split
    · exact h
    · next hallowed =>
      exact fun happ => Classical.byContradiction fun hne => hallowed ⟨happ, hne⟩
  | read n =>
    simp only [Flat.step]
    split
    · exact h
    · split
      · exact h
      · next hmode => exact fun happ => absurd happ hmode
  | write data =>
    simp only [Flat.step]
    split
    · exact h
    · intro happ
      have hend := h happ
      simp only [Bytes.length_overlay]
      omega
  | truncate newSize backup =>
    simp only [Flat.step]
    split
    · exact h
    · intro happ
      rw [if_pos happ, Bytes.length_resize]
  | _ => exact h

end Flat

/-- Asks for one thing after the other. -/
def Call.runAll : List Call → Op (List (Except Error Answer))
  | [] => return []
  | call :: calls => do
    let answer ← Op.attempt call.run
    return answer :: (← runAll calls)

/-- Sizes of a content for which there is room: raw offsets are far from the limit, and the end has
a chunk number. -/
def Layout.Roomy (firstMax chunkMax : UInt32) (size : Nat) : Prop :=
  size < 2 ^ 62 ∧ (Layout.ofSizes firstMax chunkMax 0 0).seqnumOf? size ≠ none

instance (firstMax chunkMax : UInt32) (size : Nat) :
    Decidable (Layout.Roomy firstMax chunkMax size) :=
  inferInstanceAs (Decidable (_ ∧ _))

/-- The zeros in front of a size like this always have a buffer. -/
theorem Container.zerosAtOnce_le_limit {size : Nat} (hsize : size < 2 ^ 62) (s : Session) :
    zerosAtOnce s size ≤ allocationLimit := by
  have hle := zerosAtOnce_le s size
  unfold allocationLimit
  omega

theorem Metadata.fits_of_lt {m : Metadata} {n : Nat} (h : n < 2 ^ 62) : m.Fits n := by
  have hsmall := m.small
  have hoverhead : ChunkCipher.overhead = 28 := rfl
  unfold Fits Metadata.dataOffset seqnumLimit offsetLimit Header.size
  omega

/-! ## What becomes of a trail

A list of calls may cut the content and let it grow again to the same size. So what is known at
the end is not told by the sizes at both ends, but by all sizes on the way. -/

namespace Site

variable (g : Site) (f : Flat) (calls : List Call) {old new : Bytes}

/-- Where the container is open when its content is another one. What stood behind the chunk data is
cut off if the content got shorter. -/
def after (g : Site) (old new : Bytes) : Site := if new.length < old.length then g.trimmed else g

@[simp] theorem path_after : (g.after old new).path = g.path := by
  unfold after
  split <;> rfl

@[simp] theorem mode_after : (g.after old new).mode = g.mode := by
  unfold after
  split <;> rfl

@[simp] theorem metadata_after : (g.after old new).metadata = g.metadata := by
  unfold after
  split <;> rfl

theorem after_of_le (h : old.length ≤ new.length) : g.after old new = g :=
  if_neg (Nat.not_lt.mpr h)

@[simp] theorem after_self : g.after old old = g := g.after_of_le (Nat.le_refl _)

/-- Where the container is open after a list of calls. -/
def through (g : Site) (f : Flat) : List Call → Site
  | [] => g
  | call :: calls => (g.after f.content (f.step call).2.content).through (f.step call).2 calls

@[simp] theorem path_through : (g.through f calls).path = g.path := by
  induction calls generalizing g f with
  | nil => rfl
  | cons call calls ih => exact (ih _ _).trans (path_after g)

@[simp] theorem mode_through : (g.through f calls).mode = g.mode := by
  induction calls generalizing g f with
  | nil => rfl
  | cons call calls ih => exact (ih _ _).trans (mode_after g)

@[simp] theorem metadata_through : (g.through f calls).metadata = g.metadata := by
  induction calls generalizing g f with
  | nil => rfl
  | cons call calls ih => exact (ih _ _).trans (metadata_after g)

/-- What stood behind the chunk data is known to be gone because the size changed, or as much is
known of it as before and the content only grew. -/
theorem through_cases :
    ((g.through f calls).trail = .cut ∧
      ∃ r ∈ f.reached calls, r.content.length ≠ f.content.length) ∨
    (g.through f calls = g ∧ f.Grows calls) := by
  induction calls generalizing g f with
  | nil => exact .inr ⟨rfl, f.grows_nil⟩
  | cons call calls ih =>
    let f' := (f.step call).2
    have hself : f' ∈ f.reached (call :: calls) :=
      List.mem_cons_of_mem f (f'.self_mem_reached calls)
    by_cases hlt : f'.content.length < f.content.length
    · refine .inl ⟨?_, f', hself, Nat.ne_of_lt hlt⟩
      -- once it was cut off, none of the other calls brings it back
      have hcut : (g.after f.content f'.content).trail = .cut := by rw [after, if_pos hlt]
      rcases ih (g.after f.content f'.content) f' with ⟨htrail, -⟩ | ⟨hsame, -⟩
      · exact htrail
      · exact (congrArg trail hsame).trans hcut
    · have hle := Nat.le_of_not_lt hlt
      have hafter : g.after f.content f'.content = g := g.after_of_le hle
      rcases ih (g.after f.content f'.content) f' with ⟨htrail, r, hr, hne⟩ | ⟨hsame, hgrown⟩
      · refine .inl ⟨htrail, ?_⟩
        by_cases heq : f'.content.length = f.content.length
        · exact ⟨r, List.mem_cons_of_mem f hr, heq ▸ hne⟩
        · exact ⟨f', hself, heq⟩
      · exact .inr ⟨hsame.trans hafter, hgrown.cons hle⟩

theorem trail_through :
    (g.through f calls).trail = .cut ∨ (g.through f calls).trail = g.trail :=
  (g.through_cases f calls).imp And.left fun h => congrArg trail h.1

end Site

/-! ## One call

Every call is compared with one step of the string. A failure of the container would be a failure
of the surroundings or a lack of room; neither is there. -/

namespace Session

variable {s : Session} {g : Site} {f : Flat}

/-- The answer, and what holds after it. -/
def Answers (s : Session) (x : Op Answer) (answer : Except Error Answer) (after : Session → Prop) :
    Prop :=
  ∃ s', Op.attempt x s = .ok answer s' ∧ s'.faults = [] ∧ after s'

section Answers

variable {α : Type} {x : Op α} {k : α → Answer} {after : Session → Prop}

/-- A computation that needs no more room than there is comes to what it is specified to do. -/
theorem answers_of_does {answer : Answer} {full : Prop} {ok : α → Session → Prop}
    {err : Session → Prop} (hfaults : s.faults = []) (hx : x.Does full s ok err) (hroom : ¬full)
    (hok : ∀ a s', ok a s' → k a = answer ∧ after s') :
    s.Answers (do return k (← x)) (.ok answer) after := by
  obtain ⟨a, s', hrun, hfaults', ha⟩ := hx.answers hfaults hroom
  obtain ⟨rfl, hafter⟩ := hok a s' ha
  refine ⟨s', ?_, hfaults', hafter⟩
  simp only [Op.attempt, bind, EStateM.bind, hrun, Op.pure_run]

/-- A refusal changes nothing. -/
theorem answers_of_error {e : Error} (hfaults : s.faults = []) (hx : x s = .error e s)
    (hafter : after s) : s.Answers (do return k (← x)) (.error e) after := by
  refine ⟨s, ?_, hfaults, hafter⟩
  simp only [Op.attempt, bind, EStateM.bind, hx]

/-- Nothing is done. -/
theorem answers_of_pure {a : α} (hfaults : s.faults = []) (hx : x = pure a) (hafter : after s) :
    s.Answers (do return k (← x)) (.ok (k a)) after := by
  subst hx
  exact ⟨s, rfl, hfaults, hafter⟩

end Answers

/-- The open container shows the string. -/
structure Depicts (s : Session) (g : Site) (f : Flat) : Prop where
  appending : f.appending = g.mode.isAppend
  placed : s.Placed
  shows : ∃ g' d, g.Alike g' ∧ g'.seekCursor = f.pos ∧ s.Shows g' f.content d

theorem Shows.depicts {g' : Site} {c d : Bytes} (h : s.Shows g' c d) (halike : g.Alike g')
    (hcontent : f.content = c) (hpos : g'.seekCursor = f.pos)
    (happ : f.appending = g.mode.isAppend) (hplaced : s.Placed) : s.Depicts g f :=
  ⟨happ, hplaced, g', d, halike, hpos, hcontent ▸ h⟩

/-- A call is answered as by the string, and afterwards the container shows what became of it. -/
def Echoes (s : Session) (g : Site) (f : Flat) (call : Call) : Prop :=
  s.Answers call.run (f.step call).1 fun s' =>
    s'.Depicts (g.after f.content (f.step call).2.content) (f.step call).2

/-! A call that is refused answers like the string and leaves everything. Where it runs, its
specification gives the new content, and the room that is assumed excludes the ways to fail. -/

theorem Depicts.echoes_seek (h : s.Depicts g f) (hfaults : s.faults = [])
    (hroom : Layout.Roomy g.metadata.firstMax g.metadata.chunkMax f.content.length) (pos : Nat) :
    s.Echoes g f (.seek pos) := by
  have ⟨happ, hplaced, g', d, halike, _, hs⟩ := h
  have hmode : f.appending = g'.mode.isAppend := happ.trans (congrArg _ halike.mode.symm)
  simp only [Echoes, Flat.step]
  by_cases hbad : f.appending = true ∧ pos ≠ f.content.length
  · rw [if_pos hbad, Site.after_self]
    exact answers_of_error hfaults (Container.seek_refused hs (hmode ▸ hbad.1) hbad.2) h
  · rw [if_neg hbad, Site.after_self]
    have happending (happ : g'.mode.isAppend = true) : pos = f.content.length :=
      Classical.byContradiction fun hne => hbad ⟨hmode.trans happ, hne⟩
    refine answers_of_does hfaults (Container.seek_does hs happending) ?_ ?_
    · rintro ⟨hle, hnone⟩
      exact hroom.2 (halike.metadata ▸ Layout.seqnumOf?_eq_none_of_le hle hnone)
    · rintro _ t ⟨ho, d', h'⟩
      exact ⟨rfl, h'.depicts (halike.trans ⟨rfl, rfl, rfl, rfl⟩) rfl rfl happ (ho.placed hplaced)⟩

theorem Depicts.echoes_read (h : s.Depicts g f) (hfaults : s.faults = []) (n : Nat) :
    s.Echoes g f (.read n) := by
  have ⟨happ, hplaced, g', d, halike, hpos, hs⟩ := h
  have hmode : f.appending = g'.mode.isAppend := happ.trans (congrArg _ halike.mode.symm)
  simp only [Echoes, Flat.step]
  by_cases hn : n = 0
  · rw [if_pos hn, Site.after_self]
    exact answers_of_pure hfaults (if_pos hn) h
  · rw [if_neg hn]
    by_cases hrefused : f.appending = true
    · rw [if_pos hrefused, Site.after_self]
      exact answers_of_error hfaults (Container.read_refused hs (hmode ▸ hrefused) hn) h
    · rw [if_neg hrefused, Site.after_self]
      have hfree : g'.mode.isAppend = false := by rwa [hmode, Bool.not_eq_true] at hrefused
      refine answers_of_does hfaults (Container.read_does hs hfree n) not_false ?_
      rintro _ t ⟨rfl, ho, d', h'⟩
      rw [hpos] at h' ⊢
      exact ⟨rfl, h'.depicts (halike.trans ⟨rfl, rfl, rfl, rfl⟩) rfl rfl happ (ho.placed hplaced)⟩

theorem Depicts.echoes_write (h : s.Depicts g f) (hfaults : s.faults = []) (hend : f.AtEnd)
    (hwrite : g.mode.isWrite = true) {data : Bytes}
    (hroom : Layout.Roomy g.metadata.firstMax g.metadata.chunkMax
      (f.step (.write data)).2.content.length) :
    s.Echoes g f (.write data) := by
  have ⟨happ, hplaced, g', d, halike, hpos, hs⟩ := h
  have hmode : f.appending = g'.mode.isAppend := happ.trans (congrArg _ halike.mode.symm)
  simp only [Flat.step] at hroom
  simp only [Echoes, Flat.step]
  by_cases hdata : data = []
  · rw [if_pos hdata, Site.after_self]
    exact answers_of_pure hfaults (if_pos hdata) h
  · rw [if_neg hdata] at hroom ⊢
    simp only [Bytes.length_overlay] at hroom
    -- a write never makes the content shorter
    rw [Site.after_of_le g (by rw [Bytes.length_overlay]; exact Nat.le_max_left _ _)]
    refine answers_of_does hfaults (Container.write_does hs (halike.mode ▸ hwrite) hdata) ?_ ?_
    · rw [hpos]
      rintro (hspills | ⟨hmust, hbefore⟩ | hunplaced | hlarge)
      · exact hroom.2 (Layout.seqnumOf?_eq_none_of_le (Nat.le_max_right _ _)
          (halike.metadata ▸ hspills.seqnumOf?_eq_none))
      · have hat := hend (hmode.trans hmust)
        omega
      · exact hunplaced hplaced
      · have hsmall := hroom.1
        exact Nat.not_lt.mpr (Container.zerosAtOnce_le_limit (by omega) s) hlarge
    · rintro _ t ⟨rfl, hplaced', d', h'⟩
      rw [hpos] at h'
      exact ⟨rfl, h'.depicts (halike.trans ⟨rfl, rfl, rfl, rfl⟩) rfl rfl happ hplaced'⟩

theorem Depicts.echoes_truncate (h : s.Depicts g f) (hfaults : s.faults = []) (hend : f.AtEnd)
    (hwrite : g.mode.isWrite = true) {newSize : Nat} {backup : Bool}
    (hroom : Layout.Roomy g.metadata.firstMax g.metadata.chunkMax f.content.length)
    (hroom' : Layout.Roomy g.metadata.firstMax g.metadata.chunkMax
      (f.step (.truncate newSize backup)).2.content.length) :
    s.Echoes g f (.truncate newSize backup) := by
  have ⟨happ, hplaced, g', d, halike, hpos, hs⟩ := h
  have hmode : f.appending = g'.mode.isAppend := happ.trans (congrArg _ halike.mode.symm)
  simp only [Flat.step] at hroom'
  simp only [Echoes, Flat.step]
  by_cases hbad : f.appending = true ∧ newSize < f.content.length
  · rw [if_pos hbad, Site.after_self]
    exact answers_of_error hfaults (Container.truncate_refused hs (hmode ▸ hbad.1) hbad.2 backup) h
  · rw [if_neg hbad] at hroom' ⊢
    simp only [Bytes.length_resize] at hroom'
    have happending (hmust : g'.mode.isAppend = true) : f.content.length ≤ newSize :=
      Nat.le_of_not_lt fun hlt => hbad ⟨hmode.trans hmust, hlt⟩
    refine answers_of_does hfaults (Container.truncate_does hs (halike.mode ▸ hwrite)
      (Metadata.fits_of_lt hroom.1) backup happending) ?_ ?_
    · rw [halike.metadata]
      rintro (hnone | hunplaced | hlarge)
      · rcases Nat.le_total f.content.length newSize with hle | hle
        · exact hroom'.2 (Nat.max_eq_right hle ▸ hnone)
        · exact hroom.2 (Nat.max_eq_left hle ▸ hnone)
      · exact hunplaced hplaced
      · exact Nat.not_lt.mpr (Container.zerosAtOnce_le_limit hroom'.1 s) hlarge
    · rintro _ t ⟨g₁, d', hmatches, htrail, hseek, h', hplaced'⟩
      have hcut : (g.after f.content (f.content.resize newSize)).trail = g₁.trail := by
        rw [htrail, Site.after, Bytes.length_resize, halike.trail]
        split <;> rfl
      refine ⟨rfl, h'.depicts ?_ rfl ?_ (happ.trans (congrArg _ (Site.mode_after g).symm))
        (hplaced' hplaced)⟩
      · refine ⟨?_, ?_, ?_, hcut.symm⟩
        · rw [hmatches.path, halike.path, Site.path_after]
        · rw [hmatches.mode, halike.mode, Site.mode_after]
        · rw [hmatches.metadata, halike.metadata, Site.metadata_after]
      · -- in an appending mode the position goes to the new end, in any other it stays
        rw [hseek, hpos]
        by_cases hmust : f.appending = true
        · have hat := hend hmust
          have hle := happending (hmode ▸ hmust)
          have hmust' : g'.mode.isAppend = true := hmode ▸ hmust
          simp only [hmust, hmust', true_and, if_true]
          split <;> omega
        · have hfree : ¬g'.mode.isAppend = true := hmode ▸ hmust
          rw [if_neg hmust, if_neg fun h => hfree h.1]

/-- **A call is answered as by the string,** if there is room before and after it. -/
theorem Depicts.step (h : s.Depicts g f) (hfaults : s.faults = []) (hend : f.AtEnd)
    (hwrite : g.mode.isWrite = true) (call : Call)
    (hroom : Layout.Roomy g.metadata.firstMax g.metadata.chunkMax f.content.length)
    (hroom' : Layout.Roomy g.metadata.firstMax g.metadata.chunkMax
      (f.step call).2.content.length) : s.Echoes g f call := by
  have ⟨happ, hplaced, g', d, halike, hpos, hs⟩ := h
  have honward {t : Session} {g₁ : Site} (ht : s.Onward t ∧ ∃ d', t.Shows g₁ f.content d')
      (hg : g'.Alike g₁) (hseek : g₁.seekCursor = g'.seekCursor) : t.Depicts g f :=
    let ⟨ho, _, h'⟩ := ht
    h'.depicts (halike.trans hg) rfl (hseek.trans hpos) happ (ho.placed hplaced)
  have hflushed {t : Session} (ht : s.Onward t ∧ t.Flushed g' f.content) : t.Depicts g f :=
    honward ⟨ht.1, _, ht.2.toShows⟩ (Site.Alike.refl g') rfl
  -- Only the first four may be refused or change the string.
  cases call with
  | seek pos => exact h.echoes_seek hfaults hroom pos
  | read n => exact h.echoes_read hfaults n
  | write data => exact h.echoes_write hfaults hend hwrite hroom'
  | truncate newSize backup => exact h.echoes_truncate hfaults hend hwrite hroom hroom'
  | contentSize =>
    simp only [Echoes, Flat.step, Site.after_self]
    exact answers_of_does hfaults (Container.contentSize_does hs fun _ => False) not_false
      fun _ _ h' => ⟨congrArg _ h'.1, h'.2 ▸ h⟩
  | position =>
    simp only [Echoes, Flat.step, Site.after_self]
    refine ⟨s, ?_, hfaults, h⟩
    have hseek : s.pos = f.pos := hs.seekCursor.trans hpos
    simp [Call.run, Op.attempt, bind, EStateM.bind, hseek]
  | flush deep =>
    simp only [Echoes, Flat.step, Site.after_self]
    exact answers_of_does hfaults (Container.flush_does hs deep) not_false fun _ _ h' =>
      ⟨rfl, hflushed h'⟩
  | sync =>
    simp only [Echoes, Flat.step, Site.after_self]
    exact answers_of_does hfaults (Container.sync_does hs) not_false fun _ _ h' =>
      ⟨rfl, hflushed h'⟩
  | fsync =>
    simp only [Echoes, Flat.step, Site.after_self]
    exact answers_of_does hfaults (Container.fsync_does hs) not_false fun _ _ h' =>
      ⟨rfl, hflushed h'⟩
  | usedSize =>
    simp only [Echoes, Flat.step, Site.after_self]
    exact answers_of_does hfaults (Container.usedSize_does hs).discard not_false fun _ _ h' =>
      ⟨rfl, honward h' (Site.Alike.refl g') rfl⟩
  | invalidate =>
    simp only [Echoes, Flat.step, Site.after_self]
    refine answers_of_does hfaults (Container.invalidate_does hs) ?_ fun _ _ h' =>
      ⟨rfl, honward h' (Site.Alike.refl g') rfl⟩
    rintro (hnone | hunplaced)
    · exact hroom.2 (halike.metadata ▸ hnone)
    · exact hunplaced hplaced
  | setMaxCached count =>
    simp only [Echoes, Flat.step, Site.after_self]
    exact answers_of_does hfaults (Container.setMaxCached_does hs count) not_false fun _ _ h' =>
      ⟨rfl, honward h' ⟨rfl, rfl, rfl, rfl⟩ rfl⟩
  | setCacheEnabled enabled =>
    simp only [Echoes, Flat.step, Site.after_self]
    obtain ⟨useCache, hset⟩ := Container.setCacheEnabled_does hs enabled
    exact answers_of_does hfaults hset not_false fun _ _ h' =>
      ⟨rfl, honward h' ⟨rfl, rfl, rfl, rfl⟩ rfl⟩
  | setBlock size =>
    simp only [Echoes, Flat.step, Site.after_self]
    refine ⟨_, rfl, hfaults, ?_⟩
    exact (Container.shows_setBlock hs size).depicts (halike.trans ⟨rfl, rfl, rfl, rfl⟩) rfl hpos
      happ hplaced

/-! ## Whole sessions -/

/-- **A list of calls is answered as by the string,** if there is room all the way. -/
theorem Depicts.run (h : s.Depicts g f) (hfaults : s.faults = []) (hend : f.AtEnd)
    (hwrite : g.mode.isWrite = true) (calls : List Call)
    (hroom : ∀ r ∈ f.reached calls,
      Layout.Roomy g.metadata.firstMax g.metadata.chunkMax r.content.length) :
    ∃ s', Call.runAll calls s = .ok (f.run calls).1 s' ∧ s'.faults = [] ∧
      s'.Depicts (g.through f calls) (f.run calls).2 := by
  induction calls generalizing s g f with
  | nil => exact ⟨s, rfl, hfaults, h⟩
  | cons call calls ih =>
    have hrest : ∀ r ∈ (f.step call).2.reached calls,
        Layout.Roomy g.metadata.firstMax g.metadata.chunkMax r.content.length :=
      fun r hr => hroom r (List.mem_cons_of_mem f hr)
    obtain ⟨t, hstep, hfaults', ht⟩ := h.step hfaults hend hwrite call
      (hroom f (Flat.self_mem_reached f _)) (hrest _ (Flat.self_mem_reached _ calls))
    obtain ⟨s', hrun, hdone⟩ := ih ht hfaults' (hend.step call) (by rwa [Site.mode_after])
      (by rwa [Site.metadata_after])
    refine ⟨s', ?_, hdone⟩
    simp only [Call.runAll, bind, EStateM.bind, hstep, hrun]
    rfl

/-- **Opening shows the string that the container is.** -/
theorem Ready.opens {mode : Mode} {firstMax chunkMax : UInt32} {c : Bytes}
    (h : s.Ready mode firstMax chunkMax c) (hfaults : s.faults = [])
    (hroom : Layout.Roomy firstMax chunkMax c.length) :
    ∃ g s', Container.openIn mode s = .ok () s' ∧ s'.faults = [] ∧ s'.Flushed g c ∧
      g.Opens s mode firstMax chunkMax c ∧ s'.Depicts g (Flat.opened mode c) ∧
      g.trail = (if mode.createsFile (s.disk.contains s.path) then .cut
        else .kept c.length s'.eofPos ((s'.disk.contents g.file).drop s'.eofPos)) ∧
      (mode.createsFile (s.disk.contains s.path) = false → s'.disk = s.disk) := by
  obtain ⟨_, s', hopen, hfaults', g, hg, hs, hplaced, htrail, hsame, -⟩ :=
    (Container.open_does h).answers hfaults hroom.2
  refine ⟨g, s', hopen, hfaults', hs, hg, ?_, htrail, hsame⟩
  exact hs.toShows.depicts (Site.Alike.refl g) rfl hg.seekCursor
    (congrArg Mode.isAppend hg.mode.symm) hplaced

/-- A new file on an empty disk can be created for writing. -/
theorem reached_pristine {Allowed : List Fault → Prop} (hnil : Allowed []) {path : String}
    {processor : Processor} {config : ContainerConfig} {random : Random}
    (hplace : Disk.hasPlace path = true) (hvalid : processor.config.validate = .ok ())
    (hsealed : processor.config.streaming = false)
    (hroom : Layout.Roomy processor.config.firstMax processor.config.chunkMax 0) :
    Reached Allowed ((Container.openIn .write).after (pristine path processor config random)) := by
  have hready : Ready (pristine path processor config random) .write processor.config.firstMax
      processor.config.chunkMax [] :=
    .new (vacant_pristine hplace hvalid hsealed rfl)
  obtain ⟨g, s, hopen, -⟩ := hready.opens rfl hroom
  rw [Op.after_of_ok hopen]
  exact .opened hready rfl hnil hopen

end Session

open Session

/-- **An open container is a string of bytes:** without faults, and as long as there is room for the
content, every list of calls is answered as by the plain string. -/
theorem answers_eq_flat {s : Session} {mode : Mode} {firstMax chunkMax : UInt32} {c : Bytes}
    (hready : s.Ready mode firstMax chunkMax c) (hwrite : mode.isWrite = true)
    (hfaults : s.faults = []) (calls : List Call)
    (hroom : ∀ f ∈ (Flat.opened mode c).reached calls,
      Layout.Roomy firstMax chunkMax f.content.length) :
    ∃ s', (do Container.openIn mode; Call.runAll calls) s
      = .ok ((Flat.opened mode c).run calls).1 s' := by
  obtain ⟨g, t, hopen, hfaults', -, hg, hdepicts, -⟩ :=
    hready.opens hfaults (hroom _ (Flat.self_mem_reached _ calls))
  obtain ⟨s', hrun, -, -⟩ := hdepicts.run hfaults' (Flat.atEnd_opened mode c)
    (hg.mode ▸ hwrite) calls (by rwa [hg.firstMax, hg.chunkMax])
  refine ⟨s', ?_⟩
  simp only [bind, EStateM.bind, hopen, hrun]

/-- Two-byte chunks, of which one is kept in memory: writing, leaving a gap, cutting. -/
theorem answers_eq_flat_pristine :
    ∃ s', (do
        Container.openIn .write
        Call.runAll [.write [1, 2, 3], .setMaxCached 1, .seek 6, .write [4], .seek 1, .invalidate,
          .read 9, .truncate 2 true, .position, .contentSize])
      (pristine "vault" (Processor.ofConfig ⟨[7]⟩ { chunkMax := 2 }) {} (Random.seeded 0))
      = .ok [.ok (.number 3), .ok .done, .ok .done, .ok (.number 1), .ok .done, .ok .done,
          .ok (.data [2, 3, 0, 0, 0, 4]), .ok .done, .ok (.number 7), .ok (.number 2)] s' :=
  answers_eq_flat (.new (vacant_pristine (by decide) rfl rfl rfl)) rfl rfl _ (by decide)

end Vault
