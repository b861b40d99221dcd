import Vault.Proofs.Reopen

/-!
# `Vault/Proofs/Failures.lean` — what a failing call may lose

A call that is not there to change the content and fails because of a fault should leave the content
as it was. It does, but for one case: **a chunk with changes that has to make way for another one
and cannot be written is lost with its changes.** What was in the file of it comes back instead.
This cannot happen to calls that leave every chunk where it is until it is written.

What the content is after a failure is not known from the call alone, so it is compared part by
part: a part differs only if its chunk had changes and is out of memory (`Session.Forgets`). Then
the file has it or it is lost.
-/

set_option autoImplicit false

namespace Vault

/-- Calls that are not there to change the content. -/
def Call.keepsContent : Call → Bool
  | .write _ | .truncate _ _ => false
  | _ => true

/-- Calls that take no chunk out of its place before it is written. -/
def Call.keepsChunks : Call → Bool
  | .seek _ | .read _ | .write _ | .truncate _ _ | .setMaxCached _ | .setCacheEnabled _ => false
  | _ => true

namespace Session

variable {s s' : Session} {g g' : Site} {c c' d d' : Bytes} {x : Chunk} {i : Nat}

/-- The content of an open container: what users are told as soon as there are no faults, and what
is in the file whenever the container could be closed. -/
structure Means (s : Session) (content : Bytes) : Prop where
  tells : Tells { s with faults := [] } content
  closes : ∀ (faults : List Fault) (s' : Session), Fault.Tame faults →
    Container.close { s with faults } = .ok () s' →
    ∃ (m : Metadata) (raw : Bytes) (ciphertextSize last : Nat),
      m.master = s.processor.master ∧ s'.disk.read? s.path = some raw ∧
      m.Keeps raw ciphertextSize last content

theorem Shows.means (h : s.Shows g c d) : s.Means c where
  tells := (h.rearm []).tells rfl
  closes := by
    intro faults s' htame hclose
    have hdoes : Container.close.Does False { s with faults } _ _ :=
      Container.close_does (h.rearm faults)
    obtain ⟨-, t, ht, x, rfl⟩ := hdoes.of_ok htame hclose
    refine ⟨g.metadata, _, _, _, ?_, ?_, ht.keeps⟩
    · rw [h.processor, g.master]
    · rw [h.path]
      exact ht.read?

/-- A chunk can be read from the file as it is. -/
def Stored (s : Session) (x : Chunk) : Prop :=
  ∃ (raw : Bytes) (keys : WorkingKeys), s.disk.read? s.path = some raw ∧
    s.processor.keys = some keys ∧
    keys.chunk.unpack (raw.slice (s.layout.rawStartOf x.seqnum)
      (x.content.length + ChunkCipher.overhead)) x.seqnum = .ok x.content

/-- A chunk is still in memory, or in the file. -/
def Saves (s : Session) (x : Chunk) : Prop :=
  (∃ y ∈ s.memory, y.seqnum = x.seqnum ∧ y.content = x.content) ∨ s.Stored x

/-! ## What is lost

A chunk that is neither in memory nor in the file with its content is lost. Whether it is in the
file is a question of bytes, and it is decided by opening what lies at the place of the chunk. -/

/-- A part with data in it lies in front of the end. -/
theorem Shows.le_eofSeqnum (h : s.Shows g c d) (hreaches : g.metadata.layout.Reaches i)
    (hpart : g.metadata.layout.part c i ≠ []) : i ≤ s.eofSeqnum := by
  refine Nat.le_of_not_lt fun hlt => hpart ?_
  have hcap := hreaches s.eofSeqnum hlt
  have hbehind := g.metadata.layout.startOf_add_capacity_le hlt
  have hwithin := h.recalls.within
  unfold Layout.Within at hwithin
  refine List.eq_nil_of_length_eq_zero ?_
  rw [Layout.length_part]
  split <;> omega

/-- A chunk that is not in memory is in the file. -/
theorem Shows.stored (h : s.Shows g c d) (hi : x.seqnum ≤ s.eofSeqnum)
    (habsent : Chunk.Absent s.memory x.seqnum)
    (hlen : (g.metadata.layout.part c x.seqnum).length = x.content.length) (hne : x.content ≠ []) :
    s.Stored x ↔ x.content = g.metadata.layout.part c x.seqnum := by
  have hpart := h.recalls.part_eq_of_absent hi habsent
  have hopens : g.metadata.cipher.unpack
      ((s.disk.contents g.file).slice (g.metadata.layout.rawStartOf x.seqnum)
        (x.content.length + ChunkCipher.overhead)) x.seqnum
      = .ok (g.metadata.layout.part c x.seqnum) := by
    rcases h.stores.storedSize_eq hi with ⟨-, hnil⟩ | hsize
    · rw [hpart, hnil] at hlen
      exact absurd (List.eq_nil_of_length_eq_zero hlen.symm) hne
    · rw [← hpart, hlen] at hsize
      have hsome : 0 < g.metadata.storedSize s.ciphertextSize s.eofSeqnum x.seqnum := by
        rw [hsize]
        exact Nat.add_pos_right _ (by decide)
      rw [← hsize, hpart]
      exact h.stores.opens _ hi hsome
  constructor
  · rintro ⟨raw, keys, hraw, hkeys, hunpack⟩
    rw [h.path, h.read?] at hraw
    rw [h.processor, g.keyed] at hkeys
    obtain rfl := Option.some.inj hraw
    obtain rfl := Option.some.inj hkeys
    rw [h.rawStartOf] at hunpack
    exact Except.ok.inj (hunpack.symm.trans hopens)
  · intro hsame
    refine ⟨_, g.metadata.keys, h.path ▸ h.read?, ?_, ?_⟩
    · rw [h.processor, g.keyed]
    · rw [h.rawStartOf]
      exact hopens.trans (congrArg _ hsame.symm)

/-- **Nothing is lost exactly when every chunk with changes is still in memory or in the file.** -/
theorem Forgets.eq_iff (h : s.Shows g c d) (h' : s'.Shows g' c' d')
    (hmetadata : g'.metadata = g.metadata) (hforgets : s.Forgets s' g' c c') :
    c' = c ↔ ∀ x ∈ s.memory, x.dirty = true → s'.Saves x := by
  have hlen (i : Nat) : (g.metadata.layout.part c' i).length
      = (g.metadata.layout.part c i).length := by
    rw [Layout.length_part, Layout.length_part, hforgets.length]
  have hreaches := h.recalls.reaches
  have hmirrors {x : Chunk} (hx : x ∈ s.memory) := h.recalls.mirrors x hx
  -- A chunk is forgotten if it is neither in memory afterwards nor stored as it was seen.
  constructor
  · rintro rfl x hx hdirty
    have hcontent := (hmirrors hx).content
    have hne := (hmirrors hx).filled hdirty
    by_cases hthere : ∃ y ∈ s'.memory, y.seqnum = x.seqnum
    · obtain ⟨y, hy, hnum⟩ := hthere
      refine .inl ⟨y, hy, hnum, ?_⟩
      rw [(h'.recalls.mirrors y hy).content, hmetadata, hnum, hcontent]
    · have habsent : Chunk.Absent s'.memory x.seqnum := fun y hy hnum => hthere ⟨y, hy, hnum⟩
      have hi : x.seqnum ≤ s'.eofSeqnum := by
        refine h'.le_eofSeqnum ?_ ?_
        · rw [hmetadata]
          exact hreaches.mono (hmirrors hx).le
        · rwa [hmetadata, ← hcontent]
      refine .inr ((h'.stored hi habsent ?_ hne).mpr ?_)
      · rw [hmetadata, hcontent]
      · rw [hmetadata, hcontent]
  · intro hsaves
    -- parts that differ belong to chunks that were forgotten, and those are in the file
    refine Layout.ext_parts hforgets.length (hforgets.length.symm ▸ h.recalls.within) fun i hi => ?_
    refine Classical.byContradiction fun hne => ?_
    have hparts := hforgets.parts i hi
    rw [hmetadata] at hparts
    obtain ⟨⟨x, hx, rfl, hdirty⟩, habsent⟩ := hparts hne
    have hcontent := (hmirrors hx).content
    have hfilled := (hmirrors hx).filled hdirty
    have hlength := hlen x.seqnum
    rw [← hcontent] at hne hlength
    rcases hsaves x hx hdirty with ⟨y, hy, hnum, -⟩ | hstored
    · exact habsent y hy hnum
    · have hi' : x.seqnum ≤ s'.eofSeqnum := by
        refine h'.le_eofSeqnum ?_ ?_
        · rw [hmetadata]
          exact hreaches.mono hi
        · rw [hmetadata]
          intro hnil
          rw [hnil, List.length_nil] at hlength
          exact hfilled (List.eq_nil_of_length_eq_zero hlength.symm)
      have hsame := (h'.stored hi' habsent (by rw [hmetadata, hlength]) hfilled).mp hstored
      rw [hmetadata] at hsame
      exact hne hsame.symm

end Session

/-! ## Which calls lose what

A call that fails has done part of its work. For each of them the specification of the failing
run says what it may have forgotten; calls that only write and flush forget nothing. -/

namespace Session

variable {s s' : Session} {g g' : Site} {c d : Bytes} {kept : Prop}

/-- The content forgot chunks at most, and nothing at all if every chunk was to be `kept`. -/
def Dwindles (s s' : Session) (g : Site) (c : Bytes) (kept : Prop) : Prop :=
  ∃ (g' : Site) (c' d' : Bytes), g'.metadata = g.metadata ∧ s'.Shows g' c' d' ∧
    s.Forgets s' g' c c' ∧ (kept → c' = c)

theorem Shows.dwindles (h : s'.Shows g c d) : s.Dwindles s' g c kept :=
  ⟨g, c, d, rfl, h, Forgets.refl s s' g c, fun _ => rfl⟩

theorem Survives.dwindles (h : s.Survives s' g' c) (hmetadata : g'.metadata = g.metadata)
    (hmoves : ¬kept) : s.Dwindles s' g c kept :=
  let ⟨_, c', d', h', hforgets⟩ := h
  ⟨g', c', d', hmetadata, h', hforgets, fun hkept => absurd hkept hmoves⟩

end Session

namespace Call

open Session

variable {s : Session} {g : Site} {c d : Bytes}

/-- **A failing call that is not there to change the content forgets chunks at most,** and only if
it takes chunks out of their places. -/
theorem run_survives (h : s.Shows g c d) (call : Call) (hkeeps : call.keepsContent = true) :
    call.run.Does True s (fun _ _ => True)
      (fun s' => s.Dwindles s' g c (call.keepsChunks = true)) := by
  have hshown {s' : Session} (h' : (s.Placed → s'.Placed) ∧ ∃ d', s'.Shows g c d') :
      s.Dwindles s' g c (call.keepsChunks = true) :=
    let ⟨_, _, h'⟩ := h'
    h'.dwindles
  cases call with
  | seek pos =>
    by_cases hbad : g.mode.isAppend = true ∧ pos ≠ c.length
    · exact .told_of_error (Container.seek_refused h hbad.1 hbad.2) h.dwindles
    · have happending (happ : g.mode.isAppend = true) : pos = c.length :=
        Classical.byContradiction fun hne => hbad ⟨happ, hne⟩
      exact (Container.seek_does h happending).told _ (fun _ _ _ => trivial)
        fun _ h' => h'.dwindles rfl Bool.noConfusion
  | read n =>
    by_cases hn : n = 0
    · exact .told_of_pure (if_pos hn) trivial
    · cases happ : g.mode.isAppend with
      | true => exact .told_of_error (Container.read_refused h happ hn) h.dwindles
      | false =>
        exact (Container.read_does h happ n).told True (fun _ _ _ => trivial)
          fun _ h' => h'.dwindles rfl Bool.noConfusion
  | write data => exact Bool.noConfusion hkeeps
  | truncate newSize backup => exact Bool.noConfusion hkeeps
  | contentSize =>
    exact (Container.contentSize_does h fun _ => False).told True (fun _ _ _ => trivial)
      fun _ => False.elim
  | position => exact Op.Does.get_bind (Op.Does.pure trivial)
  | flush deep =>
    exact (Container.flush_does h deep).told True (fun _ _ _ => trivial) fun _ => hshown
  | sync => exact (Container.sync_does h).told True (fun _ _ _ => trivial) fun _ => hshown
  | fsync => exact (Container.fsync_does h).told True (fun _ _ _ => trivial) fun _ => hshown
  | usedSize =>
    have hused : Op.Does (discard Container.usedSize) True s (fun _ _ => True)
        (fun s' => s.SameMemory s' ∧ s'.Shows g c d) :=
      ((Container.usedSize_does h).mono (fun _ _ _ => trivial) fun _ => id).discard
    exact hused.told True (fun _ _ _ => trivial) fun _ ⟨_, h'⟩ => h'.dwindles
  | invalidate =>
    exact (Container.invalidate_does h).told _ (fun _ _ _ => trivial) fun _ => hshown
  | setMaxCached count =>
    exact (Container.setMaxCached_does h count).told True (fun _ _ _ => trivial)
      fun _ h' => h'.dwindles rfl Bool.noConfusion
  | setCacheEnabled enabled =>
    obtain ⟨useCache, hset⟩ := Container.setCacheEnabled_does h enabled
    exact hset.told True (fun _ _ _ => trivial) fun _ h' => h'.dwindles rfl Bool.noConfusion
  | setBlock size => exact Op.Does.modify_bind rfl (Op.Does.pure trivial)

end Call

open Session

/-- **What a failing call loses.** After a call that is not there to change the content failed, the
content has the size that it had, and it is the same exactly when every chunk with changes that was
in memory is still there, or in the file. For a call that takes no chunk out of its place it is the
same. -/
theorem failed_call_keeps_iff {s s' : Session} {e : Error} (hreached : Reached Fault.Tame s)
    (hopen : s.isOpen = true) (call : Call) (hkeeps : call.keepsContent = true)
    (hrun : call.run s = .error e s') :
    ∃ c c' : Bytes, s.Means c ∧ s'.Means c' ∧ c'.length = c.length ∧
      (c' = c ↔ ∀ x ∈ s.memory, x.dirty = true → s'.Saves x) ∧
      (call.keepsChunks = true → c' = c) := by
  obtain ⟨htame, hlives⟩ := hreached.lives fun _ => id
  obtain ⟨g, c, d, hs, -⟩ := Lives.of_open hlives hopen
  obtain ⟨-, g', c', d', hmetadata, hs', hforgets, hsame⟩ :=
    (call.run_survives hs hkeeps).of_error htame hrun
  exact ⟨c, c', hs.means, hs'.means, hforgets.length, hforgets.eq_iff hs hs' hmetadata, hsame⟩

/-- A container that keeps no chunks in memory and changed the first of its two chunks, which cannot
be written. -/
def Session.cornered : Session :=
  { ((Container.openIn .write).after (pristine "vault"
        (Processor.ofConfig ⟨[7]⟩ { chunkMax := 2 }) {} (Random.seeded 0))).afterCalls
      [.write [1, 2, 3], .seek 0, .write [9], .setCacheEnabled false] with
    faults := [⟨.write, 0, .fail⟩] }

theorem Session.reached_cornered : Reached Fault.Tame cornered :=
  ((reached_pristine (Fault.tame_of_nil rfl) (by decide) rfl rfl (by decide)).afterCalls
    (by decide +kernel)).armed (by simp [Fault.Tame, Fault.kind])

/-- The first chunk has to make way for the second. -/
theorem failed_call_keeps_iff_cornered :
    ∃ s', (Call.seek 2).run cornered = .error .writeFailed s' ∧
      ∃ c c' : Bytes, cornered.Means c ∧ s'.Means c' ∧ c'.length = c.length ∧
        (c' = c ↔ ∀ x ∈ cornered.memory, x.dirty = true → s'.Saves x) := by
  have hfails : ((Call.seek 2).run cornered matches .error .writeFailed _) = true := by
    decide +kernel
  cases hrun : (Call.seek 2).run cornered with
  | ok a s' => simp [hrun] at hfails
  | error e s' =>
    obtain rfl : e = .writeFailed := by
      rw [hrun] at hfails
      cases e <;> simp at hfails ⊢
    obtain ⟨c, c', hmeans, hmeans', hlength, hiff, -⟩ :=
      failed_call_keeps_iff reached_cornered (by decide +kernel) (.seek 2) rfl hrun
    exact ⟨s', rfl, c, c', hmeans, hmeans', hlength, hiff⟩

end Vault
