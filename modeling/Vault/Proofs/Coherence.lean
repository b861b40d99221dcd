import Mathlib.Algebra.Ring.Nat
import Mathlib.Data.List.Nodup
import Vault.Proofs.Reopen

/-!
# `Vault/Proofs/Coherence.lean` — memory, file and numbers go together

An open container is told where a chunk lies by arithmetic alone: it keeps the number of the last
chunk and two sizes, and looks for no chunk anywhere else. That is right only as long as the chunks
in the file, the chunks in memory and these numbers agree. **In every state that is reached without
faults, by any calls and in any mode, they do** (`Session.Coheres`): every chunk in front of the
last one is stored full, the packed chunks lie one behind the other and are all the chunk data, and
a chunk in memory that is not dirty is what its stored bytes open to.

Most of it follows from what a container shows (`Session.Shows`); what is added here is the list of
packed chunks that a file is. Chunks are counted from there and no longer computed.
-/

set_option autoImplicit false

namespace Vault

/-! ## The packed chunks of a file

The content of a file is stored chunk by chunk already (`Metadata.Stores`). Here the chunks are
taken off the file one after the other, and put together they are the chunk data. -/

namespace Metadata

/-- The chunk data of a file are these packed chunks, of which those in front of the last one are
full. Of the last one there may be nothing. -/
structure Strings (m : Metadata) (raw : Bytes) (ciphertextSize last : Nat) (content : Bytes)
    (packed : List Bytes) : Prop where
  count : packed.length = last ∨ packed.length = last + 1
  data : raw.slice m.dataOffset ciphertextSize = packed.flatten
  length : packed.flatten.length = ciphertextSize
  place : ∀ i ≤ last, m.layout.rawStartOf i = m.dataOffset + (packed.take i).flatten.length
  size : ∀ i ≤ last, m.storedSize ciphertextSize last i = (packed.getD i []).length
  full : ∀ i < last, 0 < m.layout.capacity i ∧
    (m.layout.part content i).length = m.layout.capacity i
  opens : ∀ i p, packed[i]? = some p → m.cipher.unpack p i = .ok (m.layout.part content i) ∧
    p.length = (m.layout.part content i).length + ChunkCipher.overhead
  nothing : ∀ i ≤ last, packed[i]? = none → m.layout.part content i = []

variable {m : Metadata} {raw c : Bytes} {ct e i : Nat}

namespace Stores

/-- So many of the chunks are the chunk data, if nothing is stored of the others. -/
theorem strings_of (h : m.Stores raw ct e c) {n : Nat} (hn : n = e ∨ n = e + 1)
    (hstored : ∀ i ≤ e, i < n ↔ 0 < m.storedSize ct e i) :
    m.Strings raw ct e c ((List.range n).map (m.chunkAt raw ct e)) := by
  -- Where nothing is stored of the last chunk, it adds nothing to the string.
  have hflat : ((List.range n).map (m.chunkAt raw ct e)).flatten = raw.slice m.dataOffset ct := by
    rcases hn with rfl | rfl
    · have hnone : m.chunkAt raw ct n n = [] := by
        have hzero := hstored n (Nat.le_refl n)
        rw [← List.length_eq_zero_iff, h.length_chunkAt (Nat.le_refl n)]
        omega
      have hall := h.flatten_all
      rwa [List.range_succ, List.map_append, List.flatten_append, List.map_singleton,
        List.flatten_singleton, hnone, List.append_nil] at hall
    · exact h.flatten_all
  have hsize {i : Nat} (hi : i ≤ e) : m.storedSize ct e i
      = (((List.range n).map (m.chunkAt raw ct e)).getD i []).length := by
    by_cases hin : i < n
    · simp [List.getD_eq_getElem?_getD, hin, h.length_chunkAt hi]
    · have hzero := hstored i hi
      rw [List.getD_eq_getElem?_getD, List.getElem?_eq_none (by simpa using hin)]
      simp
      omega
  refine
    { count := by simpa using hn, data := hflat.symm, length := ?length, place := ?place
      size := fun i hi => hsize hi, full := fun i hi => ⟨h.reaches i hi, h.length_part_of_lt hi⟩
      opens := ?opens, nothing := ?nothing }
  case length =>
    have hpresent := h.present
    rw [hflat, Bytes.length_slice]
    omega
  case place =>
    intro i hi
    rw [← List.map_take, List.take_range, Nat.min_eq_left (by omega)]
    exact (h.length_flatten_chunks hi).symm
  case opens =>
    -- a chunk of the list is one of those counted, of which something is stored
    intro i p hp
    simp only [List.getElem?_map, Option.map_eq_some_iff] at hp
    obtain ⟨j, hj, rfl⟩ := hp
    obtain ⟨hin, rfl⟩ := List.getElem?_eq_some_iff.mp hj
    simp only [List.length_range] at hin
    simp only [List.getElem_range]
    have hi : i ≤ e := by omega
    have hsome := (hstored i hi).mp hin
    refine ⟨h.opens i hi hsome, ?_⟩
    rw [h.length_chunkAt hi]
    rcases h.storedSize_eq hi with ⟨hzero, -⟩ | hsize
    · omega
    · exact hsize
  case nothing =>
    intro i hi hnone
    have hout : ¬i < n := by simpa using hnone
    rcases h.storedSize_eq hi with ⟨-, hnil⟩ | hsize
    · exact hnil
    · have hover : ChunkCipher.overhead = 28 := rfl
      exact absurd ((hstored i hi).mpr (by omega)) hout

/-- **A file that holds a content is a string of packed chunks.** -/
theorem strings (h : m.Stores raw ct e c) : ∃ packed, m.Strings raw ct e c packed := by
  have hbefore {i : Nat} (hi : i < e) : 0 < m.storedSize ct e i := by
    rw [storedSize_of_lt hi]
    exact Nat.add_pos_left (h.reaches i hi) _
  -- an empty last chunk is not in the list, since nothing of it is in the file
  by_cases hlast : 0 < m.storedSize ct e e
  · refine ⟨_, h.strings_of (.inr rfl) fun i hi => ⟨fun _ => ?_, fun _ => Nat.lt_succ_of_le hi⟩⟩
    rcases Nat.lt_or_eq_of_le hi with hlt | rfl
    · exact hbefore hlt
    · exact hlast
  · refine ⟨_, h.strings_of (.inl rfl) fun i hi => ⟨hbefore, fun hsome => ?_⟩⟩
    rcases Nat.lt_or_eq_of_le hi with hlt | rfl
    · exact hlt
    · exact absurd hsome hlast

end Stores

end Metadata

/-! ## What goes together

What the program keeps in its fields is compared with the file alone; neither the content that is
seen nor the one that is stored is named. -/

namespace Session

/-- Raw offsets are far from the limit, and the end of the content has a chunk number. -/
def HasRoom (s : Session) : Prop := s.size < 2 ^ 62 ∧ s.layout.seqnumOf? s.size ≠ none

instance (s : Session) : Decidable s.HasRoom := inferInstanceAs (Decidable (_ ∧ _))

/-- The session's numbers and the chunks in memory go with a raw file and the packed chunks in it.
-/
structure Coheres (s : Session) (raw : Bytes) (packed : List Bytes) : Prop where
  /-- No chunk is in memory twice. -/
  distinct : (s.memory.map (·.seqnum)).Nodup
  /-- The last chunk is written before it is pooled. -/
  settled : ∀ x ∈ s.pool.entries, x.seqnum = s.eofSeqnum → x.dirty = false
  /-- The last chunk holds the end of the content, or the end is right behind it. -/
  last : s.layout.seqnumOf? s.size = some s.eofSeqnum ∨
    (s.layout.seqnumOf? s.size = some (s.eofSeqnum + 1) ∧
      s.size = s.layout.startOf (s.eofSeqnum + 1))
  /-- All chunks but the last are stored, and of the last there may be nothing. -/
  count : packed.length = s.eofSeqnum ∨ packed.length = s.eofSeqnum + 1
  /-- The packed chunks lie one behind the other and are all the chunk data. -/
  data : raw.slice s.layout.dataOffset s.ciphertextSize = packed.flatten
  total : (packed.map List.length).sum = s.ciphertextSize
  place : ∀ i ≤ s.eofSeqnum,
    s.layout.rawStartOf i = s.layout.dataOffset + ((packed.take i).map List.length).sum
  /-- A packed chunk opens, and in front of the last one it is full. -/
  opens : ∀ i p, packed[i]? = some p → ∃ plain, s.processor.unpackChunk p i = .ok plain ∧
    p.length = plain.length + ChunkCipher.overhead ∧
    (i < s.eofSeqnum → 0 < plain.length ∧ plain.length = s.processor.maxPlainSize i)
  /-- A chunk in memory that is not dirty is what its stored bytes open to. -/
  clean : ∀ x ∈ s.memory, x.dirty = false →
    (∀ p, packed[x.seqnum]? = some p → s.processor.unpackChunk p x.seqnum = .ok x.content) ∧
    (packed[x.seqnum]? = none → x.content = [])
  /-- A chunk in memory knows how many bytes are stored of it. -/
  stored : ∀ x ∈ s.memory, x.ciphertextSize = (packed.getD x.seqnum []).length
  /-- The current chunk stands where the cursor is, which may be its end. -/
  current : ∀ x, s.current = some x →
    s.layout.locate? s.cursor = some (x.seqnum, x.offset) ∨
      (x.offset = s.processor.maxPlainSize x.seqnum ∧
        s.cursor = s.layout.startOf x.seqnum + s.processor.maxPlainSize x.seqnum)
  cursor : s.cursor ≤ s.size
  /-- The content ends with the last chunk, as it is in memory or else in the file. -/
  size : ∃ tail : Bytes, s.size = s.layout.startOf s.eofSeqnum + tail.length ∧
    (∀ x ∈ s.memory, x.seqnum = s.eofSeqnum → x.content = tail) ∧
    ((∀ x ∈ s.memory, x.seqnum ≠ s.eofSeqnum) →
      (∀ p, packed[s.eofSeqnum]? = some p → s.processor.unpackChunk p s.eofSeqnum = .ok tail) ∧
      (packed[s.eofSeqnum]? = none → tail = []))
  /-- The header tells the sizes, unless it is known not to. -/
  header : s.sizeDirty = false →
    raw.slice Header.plaintextAt 8 = Bytes.ofNatLE 8 s.size ∧
      raw.slice Header.ciphertextAt 8 = Bytes.ofNatLE 8 s.ciphertextSize

variable {s : Session} {g : Site} {c d : Bytes}

/-- The end of a content that fills its last chunk belongs to the next one. -/
theorem Shows.seqnumOf?_size (h : s.Shows g c d) (hend : s.layout.seqnumOf? s.size ≠ none) :
    s.layout.seqnumOf? s.size = some s.eofSeqnum ∨
      (s.layout.seqnumOf? s.size = some (s.eofSeqnum + 1) ∧
        s.size = s.layout.startOf (s.eofSeqnum + 1)) := by
  have hreaches := h.recalls.reaches
  have hwithin := h.recalls.within
  have hstart := h.recalls.startOf_le_seen (Nat.le_refl s.eofSeqnum)
  rw [h.layout, h.size] at hend ⊢
  by_cases hinside : g.metadata.layout.capacity s.eofSeqnum = 0 ∨
      c.length < g.metadata.layout.startOf s.eofSeqnum + g.metadata.layout.capacity s.eofSeqnum
  · exact .inl (Layout.seqnumOf?_eq_some_iff.mpr ⟨hreaches, hstart, hinside, h.stores.numbered⟩)
  -- The last chunk is full, so the end is where the next one would start.
  · unfold Layout.Within at hwithin
    have hnext : c.length = g.metadata.layout.startOf (s.eofSeqnum + 1) := by
      rw [Layout.startOf_succ]
      omega
    obtain ⟨i, hi⟩ := Option.ne_none_iff_exists'.mp hend
    obtain ⟨hreaches', hstart', hend', hnumber⟩ := Layout.seqnumOf?_eq_some_iff.mp hi
    refine .inr ⟨?_, hnext⟩
    -- the next chunk has a number, for the end has one and cannot be in a chunk before
    rw [hnext]
    refine Layout.seqnumOf?_startOf (hreaches.succ (by omega)) ?_
    refine Nat.lt_of_le_of_lt ?_ hnumber
    refine Classical.byContradiction fun hlt => ?_
    rcases Nat.lt_or_eq_of_le (Nat.le_of_not_lt hlt) with hlt' | rfl
    · have hcap := hreaches i (by omega)
      have hle := g.metadata.layout.startOf_mono (i := i + 1) (j := s.eofSeqnum) (by omega)
      rw [Layout.startOf_succ] at hle
      omega
    · omega

/-- The current chunk is where the cursor is, or ends there. -/
theorem Points.stands {x : Chunk} {size : Nat} (hx : Points g size s.cursor x) (h : s.Shows g c d)
    (hle : x.seqnum ≤ s.eofSeqnum) :
    s.layout.locate? s.cursor = some (x.seqnum, x.offset) ∨
      (x.offset = s.processor.maxPlainSize x.seqnum ∧
        s.cursor = s.layout.startOf x.seqnum + s.processor.maxPlainSize x.seqnum) := by
  have hcursor := hx.eq
  have hwithin := hx.within
  unfold Layout.Within at hwithin
  rw [h.layout, h.maxPlainSize]
  by_cases hinside : g.metadata.layout.capacity x.seqnum = 0 ∨
      x.offset < g.metadata.layout.capacity x.seqnum
  · refine .inl (Layout.locate?_eq_some_iff.mpr ⟨Layout.seqnumOf?_eq_some_iff.mpr ?_, hcursor⟩)
    exact ⟨h.recalls.reaches.mono hle, by omega, by omega,
      Nat.lt_of_le_of_lt hle h.stores.numbered⟩
  · exact .inr (by omega)

/-- **A container that shows a content is coherent.** -/
theorem Shows.coheres (h : s.Shows g c d) (hplaced : s.Placed) (hroom : s.HasRoom) :
    ∃ packed, s.Coheres (s.disk.contents g.file) packed := by
  obtain ⟨packed, hpacked⟩ := h.stores.strings
  refine ⟨packed, ?_⟩
  have hdistinct := h.recalls.distinct
  have hunpack (p : Bytes) (i : Nat) :
      s.processor.unpackChunk p i = (g.metadata.cipher.unpack p i).mapError .crypto :=
    Processor.unpackChunk_eq (by rw [h.processor, g.keyed]) h.blockwise p i
  have hopens {i : Nat} {p : Bytes} (hp : packed[i]? = some p) :
      s.processor.unpackChunk p i = .ok (g.metadata.layout.part d i) := by
    rw [hunpack, (hpacked.opens i p hp).1]
    rfl
  have hoffset : s.layout.dataOffset = g.metadata.dataOffset := by
    rw [h.layout, Metadata.dataOffset_layout]
  -- Where a chunk is not dirty in memory, what is seen of it is what is stored.
  have hsame {x : Chunk} (hx : x ∈ s.memory) (hclean : x.dirty = false) :
      x.content = g.metadata.layout.part d x.seqnum := by
    have hmirrors := h.recalls.mirrors x hx
    rw [hmirrors.content]
    refine h.recalls.clean x.seqnum hmirrors.le fun y hy heq => ?_
    obtain rfl := List.inj_on_of_nodup_map hdistinct hy hx heq
    exact hclean
  exact
    { distinct := hdistinct
      settled := fun x hx heq => by
        cases hdirty : x.dirty with
        | false => rfl
        | true => exact absurd heq (h.early x hx hdirty)
      last := h.seqnumOf?_size hroom.2
      count := hpacked.count
      data := hoffset ▸ hpacked.data
      total := by rw [← List.length_flatten, hpacked.length]
      place := fun i hi => by
        rw [← List.length_flatten, hoffset, h.rawStartOf, hpacked.place i hi]
      opens := fun i p hp => by
        refine ⟨_, hopens hp, (hpacked.opens i p hp).2, fun hi => ?_⟩
        rw [h.maxPlainSize, (hpacked.full i hi).2]
        exact ⟨(hpacked.full i hi).1, rfl⟩
      clean := fun x hx hclean => by
        rw [hsame hx hclean]
        exact ⟨fun p hp => hopens hp, hpacked.nothing _ (h.recalls.mirrors x hx).le⟩
      stored := fun x hx => by
        rw [(h.recalls.mirrors x hx).ciphertextSize, hpacked.size _ (h.recalls.mirrors x hx).le]
      current := fun x hx => (h.points x hx).stands h (h.recalls.mirrors x (by simp [hx])).le
      cursor := hplaced
      size := by
        refine ⟨g.metadata.layout.part c s.eofSeqnum, ?_, fun x hx heq => ?_, fun habsent => ?_⟩
        · have hstart := h.recalls.startOf_le_seen (Nat.le_refl s.eofSeqnum)
          rw [h.layout, h.size, Layout.length_part_of_within h.recalls.within]
          omega
        · rw [(h.recalls.mirrors x hx).content, heq]
        · rw [h.recalls.part_eq_of_absent (Nat.le_refl _) habsent]
          exact ⟨fun p hp => hopens hp, hpacked.nothing _ (Nat.le_refl _)⟩
      header := h.header }

end Session

/-! ## What is reached without faults

Where a fault struck, a container may stand behind its content or be closed halfway, so faults
are left out. Closing and opening again is one step here: a container that was closed for good is
not coherent with anything. -/

/-- The states of a container without faults whose content never got too large: after it was
opened, in any mode, after any calls, answered or not, and after it was closed and opened again. -/
inductive Attained : Session → Prop
  | opened {s s' : Session} {mode : Mode} {firstMax chunkMax : UInt32} {c : Bytes}
      (ready : s.Ready mode firstMax chunkMax c) (faults : s.faults = [])
      (run : Container.openIn mode s = .ok () s') : Attained s'
  | called {s : Session} (call : Call) (before : Attained s) (isOpen : s.isOpen = true)
      (room : s.HasRoom) : Attained (call.run.after s)
  | reopened {s s₁ s₂ : Session} {mode : Mode} (before : Attained s) (isOpen : s.isOpen = true)
      (room : s.HasRoom) (closed : Container.close s = .ok () s₁)
      (there : mode.createsFile true = false) (run : Container.openIn mode s₁ = .ok () s₂) :
      Attained s₂

namespace Session

variable {s s' : Session} {g : Site} {c d : Bytes}

/-- Without faults, the container is open with its cursor inside the content that it shows. -/
structure Untroubled (s : Session) : Prop where
  faults : s.faults = []
  placed : s.Placed
  shows : ∃ (g : Site) (c d : Bytes), s.Shows g c d

theorem Flushed.untroubled (h : s.Flushed g c) (hfaults : s.faults = []) (hplaced : s.Placed) :
    s.Untroubled :=
  ⟨hfaults, hplaced, g, c, c, h.toShows⟩

end Session

namespace Attained

open Session

variable {s : Session}

/-- **A container that is reached without faults is closed, or it is untroubled.** -/
theorem untroubled (h : Attained s) : s.faults = [] ∧ (s.handle = none ∨ s.Untroubled) := by
  have hopen {s : Session} (hgoes : s.handle = none ∨ s.Untroubled) (isOpen : s.isOpen = true) :
      s.Untroubled :=
    hgoes.resolve_left fun hclosed => by simp [Container.isOpen, hclosed] at isOpen
  induction h with
  | opened ready faults run =>
    obtain ⟨hspares, g, -, hs, hplaced, -⟩ :=
      (Container.open_does ready).of_ok (Fault.tame_of_nil faults) run
    have hnone := Fault.Spares.nil (faults ▸ hspares)
    exact ⟨hnone, .inr (hs.untroubled hnone hplaced)⟩
  | called call before isOpen room ih =>
    obtain ⟨hfaults, hplaced, g, c, d, hs⟩ := hopen ih.2 isOpen
    have hfits : g.metadata.Fits c.length := Metadata.fits_of_lt (hs.size ▸ room.1)
    obtain ⟨hworn, hgoes⟩ := (call.run_goes hs hfits).after (Fault.tame_of_nil hfaults)
    have hnone := Fault.Worn.nil (hfaults ▸ hworn)
    refine ⟨hnone, ?_⟩
    -- the call may have left the container closed, and then nothing is claimed
    rcases hgoes.lives with hclosed | ⟨g', c', d', hs', -⟩
    · exact .inl hclosed
    · exact (hgoes.steady hfaults hplaced).imp id fun hplaced' => ⟨hnone, hplaced', g', c', d', hs'⟩
  | @reopened s s₁ s₂ mode before isOpen room closed there run ih =>
    obtain ⟨hfaults, -, g, c, d, hs⟩ := hopen ih.2 isOpen
    have hclose : Container.close.Does False s _ _ := Container.close_does hs
    obtain ⟨hspares, t, ht, hforgotten⟩ := hclose.of_ok (Fault.tame_of_nil hfaults) closed
    have hready : s₁.Ready mode g.metadata.firstMax g.metadata.chunkMax c :=
      .there (ht.waits_forgotten hforgotten) (Metadata.fits_of_lt (hs.size ▸ room.1)) there
    have hfaults₁ := Fault.Spares.nil (hfaults ▸ hspares)
    obtain ⟨hspares', g', -, hs', hplaced, -⟩ :=
      (Container.open_does hready).of_ok (Fault.tame_of_nil hfaults₁) run
    have hnone := Fault.Spares.nil (hfaults₁ ▸ hspares')
    exact ⟨hnone, .inr (hs'.untroubled hnone hplaced)⟩

/-- **In every state that is reached without faults, an open container is coherent with its raw
file.** -/
theorem coherent (h : Attained s) (hopen : s.isOpen = true) (hroom : s.HasRoom) :
    ∃ (raw : Bytes) (packed : List Bytes), s.disk.read? s.path = some raw ∧ s.Coheres raw packed := by
  rcases h.untroubled.2 with hclosed | ⟨-, hplaced, g, c, d, hs⟩
  · simp [Container.isOpen, hclosed] at hopen
  · obtain ⟨packed, hcoheres⟩ := hs.coheres hplaced hroom
    exact ⟨_, packed, hs.path ▸ hs.read?, hcoheres⟩

end Attained

/-- A container that changed the first of its two chunks while the second one, which holds the end,
waits in the pool. -/
def Session.wandering : Session :=
  ((Container.openIn .write).after (pristine "vault"
    (Processor.ofConfig ⟨[7]⟩ { chunkMax := 2 }) {} (Random.seeded 0))).afterCalls
      [.write [1, 2, 3], .seek 0, .write [9]]

theorem Session.attained_wandering : Attained wandering := by
  have hready : Ready (pristine "vault" (Processor.ofConfig ⟨[7]⟩ { chunkMax := 2 }) {}
      (Random.seeded 0)) .write 0 2 [] :=
    .new (vacant_pristine (by decide) rfl rfl rfl)
  obtain ⟨g, s, hopen, -⟩ := hready.opens rfl (by decide)
  have hopened : Attained s := .opened hready rfl hopen
  rw [← Op.after_of_ok hopen] at hopened
  exact ((hopened.called (.write [1, 2, 3]) (by decide +kernel) (by decide +kernel)).called
    (.seek 0) (by decide +kernel) (by decide +kernel)).called
      (.write [9]) (by decide +kernel) (by decide +kernel)

/-- One chunk is dirty, the other is as it is in the file. -/
theorem Session.coherent_wandering :
    wandering.memory.map (fun x => (x.seqnum, x.dirty)) = [(0, true), (1, false)] ∧
    ∃ (raw : Bytes) (packed : List Bytes),
      wandering.disk.read? wandering.path = some raw ∧ wandering.Coheres raw packed :=
  ⟨by decide +kernel,
    Attained.coherent attained_wandering (by decide +kernel) (by decide +kernel)⟩

end Vault
