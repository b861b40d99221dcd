import Vault.Proofs.Flat

/-!
# `Vault/Proofs/Reopen.lean` — what closing leaves behind

A closed container is a file: header, descriptor, the packed chunks one behind the other, and what
stood behind them before (`Metadata.Fills`). **Whoever has the master key opens the file that a
session closed and is told the content that the session ended with,** whatever configuration it
comes with.
-/

set_option autoImplicit false

namespace Vault

/-! ## The file, chunk by chunk

What a file stores is said chunk by chunk and by raw offsets. Put one behind the other, the
packed chunks are the chunk data; where the content ends with a full chunk, the last one counted
has nothing in the file and is left out of the list. -/

namespace Metadata

variable {m : Metadata} {raw c : Bytes} {ct e n : Nat}

/-- A raw file consists of the header with its sizes, the descriptor, packed chunks and a rest. -/
structure Fills (m : Metadata) (raw content : Bytes) (chunks : List Bytes) (rest : Bytes) :
    Prop where
  raw_eq : raw = m.header content.length chunks.flatten.length
    ++ (m.descriptor ++ (chunks.flatten ++ rest))
  /-- Every chunk lies at its raw start. -/
  place : ∀ i < chunks.length,
    m.layout.rawStartOf i = m.dataOffset + (chunks.take i).flatten.length
  /-- Under its number it opens to its part of the content. -/
  opens : ∀ i (h : i < chunks.length), m.cipher.unpack chunks[i] i = .ok (m.layout.part content i)
  covers : (List.range chunks.length).flatMap (m.layout.part content) = content
  /-- Only chunk 0 can be there for nothing. -/
  filled : ∀ i < chunks.length, i ≠ 0 → m.layout.part content i ≠ []

namespace Stores

/-- Chunks lie one behind the other. -/
theorem flatten_chunks (h : m.Stores raw ct e c) (hn : n ≤ e) :
    ((List.range n).map (m.chunkAt raw ct e)).flatten
      = raw.slice m.dataOffset (m.layout.rawStartOf n - m.dataOffset) := by
  -- by induction on the number of chunks; each begins where those in front of it end
  induction n with
  | zero => simp [Bytes.slice]
  | succ n ih =>
    have hlt : n < e := hn
    have hnext := Layout.rawStartOf_succ h.packs (h.reaches n hlt)
    have hstart := m.layout.dataOffset_le_rawStartOf n
    rw [dataOffset_layout] at hstart
    have hplace : m.layout.rawStartOf n
        = m.dataOffset + (m.layout.rawStartOf n - m.dataOffset) := by omega
    have hchunk : m.chunkAt raw ct e n
        = raw.slice (m.dataOffset + (m.layout.rawStartOf n - m.dataOffset))
          (m.layout.capacity n + ChunkCipher.overhead) := by
      rw [← hplace, chunkAt, storedSize_of_lt hlt]
    rw [List.range_succ, List.map_append, List.flatten_append, ih (Nat.le_of_lt hlt),
      List.map_singleton, List.flatten_singleton, hchunk, Bytes.slice_append_slice]
    congr 1
    omega

theorem length_flatten_chunks (h : m.Stores raw ct e c) (hn : n ≤ e) :
    m.dataOffset + ((List.range n).map (m.chunkAt raw ct e)).flatten.length
      = m.layout.rawStartOf n := by
  have hpresent := h.present
  have hlast := h.rawStart_last_le
  have hmono := m.layout.rawStartOf_mono hn
  have hstart := m.layout.dataOffset_le_rawStartOf n
  rw [dataOffset_layout] at hstart
  rw [h.flatten_chunks hn, Bytes.length_slice]
  omega

theorem length_chunkAt (h : m.Stores raw ct e c) {i : Nat} (hi : i ≤ e) :
    (m.chunkAt raw ct e i).length = m.storedSize ct e i := by
  have hend := h.rawStart_add_storedSize_le hi
  have hpresent := h.present
  rw [chunkAt, Bytes.length_slice]
  omega

/-- The chunks up to the last one are all the chunk data. -/
theorem flatten_all (h : m.Stores raw ct e c) :
    ((List.range (e + 1)).map (m.chunkAt raw ct e)).flatten = raw.slice m.dataOffset ct := by
  have hstart := m.layout.dataOffset_le_rawStartOf e
  rw [dataOffset_layout] at hstart
  have hlast := h.rawStart_last_le
  have hplace : m.layout.rawStartOf e
      = m.dataOffset + (m.layout.rawStartOf e - m.dataOffset) := by omega
  have hchunk : m.chunkAt raw ct e e
      = raw.slice (m.dataOffset + (m.layout.rawStartOf e - m.dataOffset))
        (m.storedSize ct e e) := by
    rw [← hplace, chunkAt]
  rw [List.range_succ, List.map_append, List.flatten_append, h.flatten_chunks (Nat.le_refl e),
    List.map_singleton, List.flatten_singleton, hchunk, Bytes.slice_append_slice, storedSize_last]
  congr 1
  omega

end Stores

/-- So many chunks fill a file that keeps a content, if they are all that is stored. -/
theorem Keeps.fills_of (h : m.Keeps raw ct e c) (hn : n ≤ e + 1)
    (hflat : ((List.range n).map (m.chunkAt raw ct e)).flatten = raw.slice m.dataOffset ct)
    (hstored : ∀ i < n, 0 < m.storedSize ct e i)
    (hcovers : (List.range n).flatMap (m.layout.part c) = c)
    (hfilled : ∀ i < n, i ≠ 0 → m.layout.part c i ≠ []) :
    m.Fills raw c ((List.range n).map (m.chunkAt raw ct e)) (raw.drop (m.dataOffset + ct)) := by
  have hlen : ((List.range n).map (m.chunkAt raw ct e)).length = n := by simp
  have hpresent := h.present
  have hct : (raw.slice m.dataOffset ct).length = ct := by
    rw [Bytes.length_slice]
    omega
  refine
    { raw_eq := ?raw, place := ?place, opens := ?opens, covers := hlen.symm ▸ hcovers
      filled := hlen.symm ▸ hfilled }
  case raw =>
    have hhead := Bytes.slice_append_slice raw 0 Header.size m.descriptor.length
    have hdata := Bytes.slice_append_slice raw 0 m.dataOffset ct
    rw [Nat.zero_add] at hhead hdata
    -- the header, the descriptor and the chunks are three slices, and what follows is the rest
    calc raw
      _ = raw.take (m.dataOffset + ct) ++ raw.drop (m.dataOffset + ct) :=
        (List.take_append_drop _ _).symm
      _ = raw.slice 0 Header.size ++ raw.slice Header.size m.descriptor.length
          ++ raw.slice m.dataOffset ct ++ raw.drop (m.dataOffset + ct) := by
        rw [hhead, ← Metadata.dataOffset, hdata]
        rfl
      _ = _ := by
        rw [h.header_eq, h.descriptor, hflat, hct]
        simp only [List.append_assoc]
  case place =>
    intro i hi
    rw [hlen] at hi
    rw [← List.map_take, List.take_range, Nat.min_eq_left (Nat.le_of_lt hi)]
    exact (h.length_flatten_chunks (by omega)).symm
  case opens =>
    intro i hi
    rw [hlen] at hi
    rw [List.getElem_map, List.getElem_range]
    exact h.opens i (by omega) (hstored i hi)

/-- **A file that keeps a content is filled with chunks.** -/
theorem Keeps.fills (h : m.Keeps raw ct e c) :
    ∃ chunks, m.Fills raw c chunks (raw.drop (m.dataOffset + ct)) := by
  have hbefore {i : Nat} (hi : i < e) : 0 < m.storedSize ct e i := by
    rw [storedSize_of_lt hi]
    exact Nat.add_pos_left (h.reaches i hi) _
  have hfull {i : Nat} (hi : i < e) : m.layout.part c i ≠ [] := by
    have hlen := h.length_part_of_lt hi
    have hcap := h.reaches i hi
    intro hnil
    rw [hnil, List.length_nil] at hlen
    omega
  have hpresent := h.present
  have hstart := m.layout.dataOffset_le_rawStartOf e
  rw [dataOffset_layout] at hstart
  have hcovers := Layout.flatMap_part c h.reaches
  rcases h.extent with ⟨hct, hlen⟩ | ⟨hct, hsome⟩
  · -- nothing is stored of the last chunk
    refine ⟨_, h.fills_of (Nat.le_succ e) ?_ (fun i => hbefore) ?_ fun i hi _ => hfull hi⟩
    · rw [h.flatten_chunks (Nat.le_refl e)]
      congr 1
      omega
    · rw [hcovers, ← hlen, List.take_length]
  · -- something is stored of the last chunk, and it may still be that of an empty content
    have hlast : m.storedSize ct e e = (m.layout.part c e).length + ChunkCipher.overhead := by
      rw [storedSize_last]
      omega
    have hlength := h.length_part_last
    refine ⟨_, h.fills_of (Nat.le_refl (e + 1)) h.flatten_all ?_ ?_ ?_⟩
    · intro i hi
      rcases Nat.lt_or_eq_of_le (Nat.le_of_lt_succ hi) with hlt | rfl
      · exact hbefore hlt
      · rw [hlast]
        exact Nat.add_pos_right _ (by decide)
    · rw [List.range_succ, List.flatMap_append, hcovers, List.flatMap_singleton,
        Layout.part_eq_drop h.within, List.take_append_drop]
    · intro i hi hne hnil
      rcases Nat.lt_or_eq_of_le (Nat.le_of_lt_succ hi) with hlt | rfl
      · exact hfull hlt hnil
      · rw [hnil, List.length_nil] at hlength
        omega

end Metadata

/-! ## What users are told

A user learns of a content by asking for its size, and by seeking and reading. In an appending
mode only the size is answered. -/

namespace Session

variable {s s' : Session} {g : Site} {c d : Bytes}

/-- Users are told the size and the bytes of this content. Where only appending is allowed, they
are told the size. -/
structure Tells (s : Session) (content : Bytes) : Prop where
  size : ∃ s', Container.contentSize s = .ok content.length s'
  bytes : s.mode.isAppend = false → ∀ pos < content.length, ∀ n,
    ∃ s', (do Container.seek pos; Container.read n) s = .ok (content.slice pos n) s'

/-- Without faults an open container tells what it shows. -/
theorem Shows.tells (h : s.Shows g c d) (hfaults : s.faults = []) : s.Tells c where
  size := by
    obtain ⟨_, s', hrun, -, rfl, -⟩ :=
      (Container.contentSize_does h fun _ => False).answers hfaults not_false
    exact ⟨s', hrun⟩
  bytes := by
    intro hmode pos hpos n
    rw [h.mode] at hmode
    have happending (happ : g.mode.isAppend = true) : pos = c.length := by simp [hmode] at happ
    obtain ⟨_, t, hseek, hfaults', -, d', ht⟩ :=
      -- seeking moves inside the content, where every position has a chunk number
      (Container.seek_does h happending).answers hfaults fun ⟨_, hnone⟩ =>
        h.seqnumOf?_ne_none hpos hnone
    by_cases hn : n = 0
    · -- reading no bytes changes nothing and is not a read of the file
      subst hn
      refine ⟨t, ?_⟩
      simp only [bind, EStateM.bind, hseek, Bytes.slice, List.take_zero]
      rfl
    · obtain ⟨_, s', hread, -, rfl, -⟩ :=
        (Container.read_does ht hmode n).answers hfaults' not_false
      refine ⟨s', ?_⟩
      simp only [bind, EStateM.bind, hseek, hread]

/-- A closed container without faults that has the master key and finds a file on the disk. -/
structure Comes (s : Session) (master : MasterKey) (path : String) (disk : Disk) : Prop where
  closed : s.handle = none
  faults : s.faults = []
  master : s.processor.master = master
  sealed : s.processor.config.streaming = false
  path : s.path = path
  disk : s.disk = disk

/-- **Whoever comes to a flushed file is told the content,** if its end has a chunk number. -/
theorem Flushed.told (h : s.Flushed g c) {disk : Disk} (hdisk : disk = s.disk)
    (hfits : g.metadata.Fits c.length) (hend : g.metadata.layout.seqnumOf? c.length ≠ none)
    {r : Session} (hr : r.Comes g.metadata.master g.path disk) {mode : Mode}
    (hmode : mode.createsFile true = false) :
    ∃ r', Container.openIn mode r = .ok () r' ∧ r'.mode = mode ∧ r'.Tells c := by
  have hwaits := h.waits hr.closed (hr.disk.trans hdisk) hr.path hr.master hr.sealed
  obtain ⟨_, r', hopen, hfaults, hs, -⟩ :=
    (Container.openIn_does hwaits hfits hmode .unknown trivial).answers hr.faults hend
  exact ⟨r', hopen, hs.mode, hs.toShows.tells hfaults⟩

end Session

open Session

/-! ## Whole sessions

Opening, the calls and the close are three runs, each without faults. The last one leaves the
file that anybody with the key can come to. -/

/-- Calls leave a file behind that keeps their content, and nothing behind it. -/
theorem Session.Ready.leaves_file {s : Session} {mode : Mode} {firstMax chunkMax : UInt32}
    {c : Bytes} (hready : s.Ready mode firstMax chunkMax c) (hwrite : mode.isWrite = true)
    (hfaults : s.faults = []) (calls : List Call)
    (hroom : ∀ f ∈ (Flat.opened mode c).reached calls,
      Layout.Roomy firstMax chunkMax f.content.length) :
    ∃ m raw ct e, Metadata.Keeps m raw ct e ((Flat.opened mode c).run calls).2.content ∧
      raw.length < offsetLimit ∧ m.master = s.processor.master ∧ m.firstMax = firstMax ∧
      m.chunkMax = chunkMax := by
  obtain ⟨g, s₁, -, hfaults₁, -, hg, hdepicts, -⟩ :=
    hready.opens hfaults (hroom _ (Flat.self_mem_reached _ calls))
  rw [← hg.firstMax, ← hg.chunkMax] at hroom
  obtain ⟨t, -, hfaults₂, -, -, g', d, halike, -, hshows⟩ :=
    hdepicts.run hfaults₁ (Flat.atEnd_opened mode c) (hg.mode ▸ hwrite) calls hroom
  obtain ⟨_, _, -, -, u, hu, -⟩ := (Container.close_does hshows).answers hfaults₂ not_false
  have hkeeps := hu.keeps
  -- calls change the content, and neither the metadata nor the place of the file
  rw [halike.metadata, Site.metadata_through] at hkeeps
  have hlast := hroom _ (Flat.last_mem_reached _ calls)
  have hend := hkeeps.end_lt (Metadata.fits_of_lt hlast.1)
  -- what stands behind the chunk data is cut off for this statement only
  have hlen : ((u.disk.contents g'.file).take (g.metadata.dataOffset + u.ciphertextSize)).length
      = g.metadata.dataOffset + u.ciphertextSize := by
    rw [List.length_take]
    exact Nat.min_eq_left hkeeps.present
  refine ⟨g.metadata, (u.disk.contents g'.file).take (g.metadata.dataOffset + u.ciphertextSize), _,
    _, hkeeps.of_take_eq (Nat.le_of_eq hlen.symm) ?_, by rw [hlen]; exact hend, hg.master,
    hg.firstMax, hg.chunkMax⟩
  rw [List.take_take, Nat.min_self]

/-- **What was written is there when the file is opened again.** A session without faults that has
room for its content can be closed. The file that it leaves has the metadata that it had when it was
opened, the chunks of the content, and nothing behind them that was not there before; and whoever
comes to that file with the master key is told the content. -/
theorem reopen_tells {s : Session} {mode : Mode} {firstMax chunkMax : UInt32} {c : Bytes}
    (hready : s.Ready mode firstMax chunkMax c) (hwrite : mode.isWrite = true)
    (hfaults : s.faults = []) (calls : List Call)
    (hroom : ∀ f ∈ (Flat.opened mode c).reached calls,
      Layout.Roomy firstMax chunkMax f.content.length) :
    ∃ (s₁ s₂ : Session) (m : Metadata) (raw₁ raw₂ : Bytes) (chunks₁ chunks₂ : List Bytes)
      (rest₁ rest₂ : Bytes),
      Container.openIn mode s = .ok () s₁ ∧
      (mode.createsFile (s.disk.contains s.path) = false → s₁.disk = s.disk) ∧
      (do discard (Call.runAll calls); Container.close) s₁ = .ok () s₂ ∧
      m.master = s.processor.master ∧ m.firstMax = firstMax ∧ m.chunkMax = chunkMax ∧
      s₁.disk.read? s.path = some raw₁ ∧ m.Fills raw₁ c chunks₁ rest₁ ∧
      s₂.disk.read? s.path = some raw₂ ∧
      m.Fills raw₂ ((Flat.opened mode c).run calls).2.content chunks₂ rest₂ ∧
      (rest₂ = [] ∨ rest₂ = rest₁) ∧
      ∀ r : Session, r.Comes s.processor.master s.path s₂.disk →
        ∀ again : Mode, again.createsFile true = false →
          ∃ r', Container.openIn again r = .ok () r' ∧ r'.mode = again ∧
            r'.Tells ((Flat.opened mode c).run calls).2.content := by
  obtain ⟨g, s₁, hopen, hfaults₁, hs₁, hg, hdepicts, htrail, hsame⟩ :=
    hready.opens hfaults (hroom _ (Flat.self_mem_reached _ calls))
  have hroom' : ∀ f ∈ (Flat.opened mode c).reached calls,
      Layout.Roomy g.metadata.firstMax g.metadata.chunkMax f.content.length := by
    rwa [hg.firstMax, hg.chunkMax]
  obtain ⟨t, hrun, hfaults₂, ht⟩ :=
    hdepicts.run hfaults₁ (Flat.atEnd_opened mode c) (hg.mode ▸ hwrite) calls hroom'
  obtain ⟨-, -, g', d, halike, -, hshows⟩ := ht
  obtain ⟨_, s₂, hclose, -, u, hu, hforgotten⟩ :=
    (Container.close_does hshows).answers hfaults₂ not_false
  obtain ⟨chunks₁, hfills₁⟩ := hs₁.keeps.fills
  obtain ⟨chunks₂, hfills₂⟩ := hu.keeps.fills
  have hpath : g'.path = s.path := halike.path.trans ((Site.path_through g _ calls).trans hg.path)
  have hdisk : s₂.disk = u.disk := by
    obtain ⟨x, rfl⟩ := hforgotten
    rfl
  have hlast := hroom' _ (Flat.last_mem_reached _ calls)
  rw [halike.metadata, Site.metadata_through] at hfills₂
  refine ⟨s₁, s₂, g.metadata, _, _, chunks₁, chunks₂, _, _, hopen, hsame, ?close, hg.master,
    hg.firstMax, hg.chunkMax, hg.path ▸ hs₁.read?, hfills₁, ?read, hfills₂, ?rest, ?told⟩
  case close =>
    simp only [Functor.discard, Functor.mapConst, Function.comp, bind, EStateM.bind, EStateM.map,
      hrun, hclose]
  case read =>
    rw [hdisk, ← hpath]
    exact hu.read?
  -- whether the rest was cut is told by the mode and the calls; a rest that stays is that of the
  -- file that was opened
  case rest =>
    rw [← Site.metadata_through g (Flat.opened mode c) calls, ← halike.metadata, ← hu.eofPos_eq]
    have hrest := hu.trail
    rw [halike.trail] at hrest
    rcases Site.trail_through g (Flat.opened mode c) calls with hcut | hsame
    · rw [hcut] at hrest
      exact .inl hrest
    · rw [hsame, htrail] at hrest
      split at hrest
      · exact .inl hrest
      · rw [halike.metadata, Site.metadata_through, ← hs₁.eofPos_eq]
        exact hrest.of_kept
  case told =>
    intro r hr again hmode
    refine hu.told hdisk (Metadata.fits_of_lt hlast.1) ?_ ?_ hmode
    · rw [halike.metadata, Site.metadata_through]
      exact hlast.2
    · rw [hpath, halike.metadata, Site.metadata_through, hg.master]
      exact hr

/-- A new file to which bytes are appended, to be read in two chunks. -/
theorem reopen_tells_pristine :
    ∃ s₁ s₂ : Session,
      Container.openIn .append
        (pristine "vault" (Processor.ofConfig ⟨[7]⟩ { chunkMax := 2 }) {} (Random.seeded 0))
        = .ok () s₁ ∧
      (do discard (Call.runAll [.write [1, 2, 3], .write [4]]); Container.close) s₁ = .ok () s₂ ∧
      ∀ r : Session, r.Comes ⟨[7]⟩ "vault" s₂.disk →
        ∃ r', Container.openIn .read r = .ok () r' ∧ r'.mode = .read ∧ r'.Tells [1, 2, 3, 4] := by
  have hready : Ready (pristine "vault" (Processor.ofConfig ⟨[7]⟩ { chunkMax := 2 }) {}
      (Random.seeded 0)) .append 0 2 [] :=
    .new (vacant_pristine (by decide) rfl rfl rfl)
  obtain ⟨s₁, s₂, -, -, -, -, -, -, -, hopen, -, hclose, -, -, -, -, -, -, -, -, htold⟩ :=
    reopen_tells hready rfl rfl [.write [1, 2, 3], .write [4]] (by decide)
  exact ⟨s₁, s₂, hopen, hclose, fun r hr => htold r hr .read rfl⟩

end Vault
