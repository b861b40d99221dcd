import Vault.Container.Chunks
import Vault.Proofs.State

/-!
# `Vault/Proofs/Chunks.lean` — chunks between memory and file keep the content

A chunk is written in steps: it is packed, its place is looked up, what stands behind the chunk data
is cut off, and the bytes are written. **None of the steps changes what is seen,** and all but the
last one leave the file's content alone too; so a failure at any of them leaves a container that
holds what it held, with the chunk as dirty as it was.

What is lost is said where chunks leave memory. A chunk in hand that cannot be written is gone, with
the changes in it and in those that were to be written after it (`flushEvicted_does`); a chunk that
stays in the pool or is current loses nothing. The chunk that holds the end is never among those
that leave dirty, since it is written before it is put away. That is what keeps the size right.
-/

set_option autoImplicit false

namespace Vault

namespace Processor

variable {p : Processor} {keys : WorkingKeys}

theorem packChunk_eq (hkeys : p.keys = some keys) (hblock : p.config.streaming = false)
    (plain : Bytes) (seqnum : Nat) (random : Random) :
    p.packChunk plain seqnum random =
      .ok (keys.chunk.pack (random.draw Gcm.nonceSize).1 plain seqnum)
        (random.draw Gcm.nonceSize).2 := by
  simp only [packChunk, hblock, Bool.false_eq_true, if_false, workingKeys, hkeys]
  rfl

theorem unpackChunk_eq (hkeys : p.keys = some keys) (hblock : p.config.streaming = false)
    (packed : Bytes) (seqnum : Nat) :
    p.unpackChunk packed seqnum = (keys.chunk.unpack packed seqnum).mapError .crypto := by
  simp only [unpackChunk, hblock, Bool.false_eq_true, if_false, workingKeys, hkeys]

end Processor

namespace Session

variable {s : Session} {g : Site} {e : Nat} {c d : Bytes} {x : Chunk} {xs : List Chunk}

/-- Cutting off what stands behind the chunk data, whatever it is. What is to be kept as long as the
content keeps its size must not be cut off before that grew. -/
theorem OnDisk.cutTail (h : s.OnDisk g.untrailed e d) (tailCut : Bool)
    (hgrown : ∀ before start bytes, g.trail = .kept before start bytes → before < s.size) :
    OnDisk { s.withContents g.file ((s.disk.contents g.file).resize s.eofPos) with tailCut }
      g e d := by
  have hstands : s.Stands g := { h.toStands with }
  have hcontents := h.contents_withContents ((s.disk.contents g.file).resize s.eofPos)
  have heof := h.eofPos_eq
  have hle := h.eofPos_le
  have hdata : Header.size ≤ s.eofPos := by
    rw [heof, Metadata.dataOffset]
    omega
  refine
    { hstands.withContents _ with
      stores := ?stores, header := ?header, headerClean := h.headerClean
      trail := Trail.fits_of_nil ?trail hgrown }
  case stores =>
    show g.metadata.Stores ((s.withContents _ _).disk.contents g.file) s.ciphertextSize e d
    rw [hcontents]
    exact h.stores.resize (Nat.le_of_eq heof.symm)
  case header =>
    show s.sizeDirty = false → Bytes.slice ((s.withContents _ _).disk.contents g.file) _ _ = _ ∧
      Bytes.slice ((s.withContents _ _).disk.contents g.file) _ _ = _
    rw [hcontents, Bytes.slice_resize (by simp [Header.plaintextAt, Header.size] at *; omega) hle,
      Bytes.slice_resize (by simp [Header.ciphertextAt, Header.size] at *; omega) hle]
    exact h.header
  case trail =>
    show ((s.withContents _ _).disk.contents g.file).drop s.eofPos = []
    rw [hcontents]
    exact List.drop_eq_nil_of_le (by simp)

/-- What is stored of the chunks after one of them was written. -/
theorem OnDisk.storedSize_store (h : s.OnDisk g e d) {i : Nat} (n ct' : Nat) (hi : i ≤ e)
    (hfull : i < e → n = g.metadata.storedSize s.ciphertextSize e i)
    (hct : ct' = s.ciphertextSize - g.metadata.storedSize s.ciphertextSize e i + n) :
    g.metadata.storedSize ct' e i = n ∧
      ∀ j ≤ e, j ≠ i → g.metadata.storedSize ct' e j
        = g.metadata.storedSize s.ciphertextSize e j := by
  have hle := h.stores.rawStart_add_storedSize_le hi
  have hoffset := g.metadata.layout.dataOffset_le_rawStartOf i
  rw [Metadata.dataOffset_layout] at hoffset
  rcases Nat.lt_or_eq_of_le hi with hlt | rfl
  · have hsame : ct' = s.ciphertextSize := by
      have := hfull hlt
      omega
    rw [hsame]
    exact ⟨(hfull hlt).symm, fun _ _ _ => rfl⟩
  · have hlast := h.stores.rawStart_last_le
    refine ⟨?_, fun j hj hne => ?_⟩
    · rw [Metadata.storedSize_last] at *
      omega
    · have hlt : j < i := Nat.lt_of_le_of_ne hj hne
      rw [Metadata.storedSize_of_lt hlt, Metadata.storedSize_of_lt hlt]

/-- **A packed chunk in its place:** the file holds what was packed, and the sizes are counted
anew. -/
theorem OnDisk.store (h : s.OnDisk g e d) (hwrite : g.mode.isWrite = true)
    (hr : g.metadata.Recalls s.ciphertextSize e c d (x :: xs)) (hfilled : x.content ≠ [] ∨ e = 0)
    {data : Bytes} (hlen : data.length = x.content.length + ChunkCipher.overhead)
    (hopens : g.metadata.cipher.unpack data x.seqnum = .ok x.content)
    (hcut : s.eofPos < g.metadata.layout.rawStartOf x.seqnum + data.length → s.tailCut = true)
    {ct' : Nat} (sizeDirty : Bool) (hct : ct' = s.ciphertextSize - x.ciphertextSize + data.length)
    (hsize : sizeDirty = false → s.sizeDirty = false ∧ ct' = s.ciphertextSize) :
    OnDisk { s.withContents g.file
          ((s.disk.contents g.file).overlay (g.metadata.layout.rawStartOf x.seqnum) data) with
        ciphertextSize := ct'
        sizeDirty := sizeDirty } g e (g.metadata.layout.withPart d x.seqnum x.content) ∧
      g.metadata.Recalls ct' e c (g.metadata.layout.withPart d x.seqnum x.content)
        (x.stored :: xs) := by
  have hx := hr.mirrors x List.mem_cons_self
  have hfull : x.seqnum < e → x.content.length = g.metadata.layout.capacity x.seqnum :=
    hr.length_content_of_lt
  have hstored := h.storedSize_store data.length ct' hx.le
    (fun hlt => by rw [hlen, hfull hlt, Metadata.storedSize_of_lt hlt])
    (by rw [← hx.ciphertextSize]; exact hct)
  have hraw := h.stores.rawStart_add_storedSize_le hx.le
  have hoffset := g.metadata.layout.dataOffset_le_rawStartOf x.seqnum
  rw [Metadata.dataOffset_layout] at hoffset
  have hgrows := hr.ciphertextSize_le h.stores
  have hct' := hr.end_eq h.stores hlen hct
  rw [← hx.ciphertextSize] at hraw
  refine ⟨?_, hr.write_back (hstored.1.trans hlen) hstored.2⟩
  have hcontents := h.contents_withContents
    ((s.disk.contents g.file).overlay (g.metadata.layout.rawStartOf x.seqnum) data)
  -- The header and the descriptor lie in front of all chunk data.
  have hheader {at_ : Nat} (hat : at_ + 8 ≤ Header.size) :
      Bytes.slice ((s.disk.contents g.file).overlay (g.metadata.layout.rawStartOf x.seqnum) data)
        at_ 8 = Bytes.slice (s.disk.contents g.file) at_ 8 := by
    have hpresent := h.stores.present
    have hdata : Header.size + g.metadata.descriptor.length = g.metadata.dataOffset := rfl
    exact Bytes.slice_overlay_of_le (by omega) (by omega)
  refine
    { h.toStands.withContents _ with
      stores := ?stores, header := ?header, headerClean := ?headerClean, trail := ?trail }
  case stores =>
    show g.metadata.Stores ((s.withContents _ _).disk.contents g.file) ct' e _
    rw [hcontents]
    refine h.stores.overlay_chunk hx.le hlen hopens hfull (fun heq => ?_) hct'
    have hstart := h.stores.start
    have hgrown := hr.grown
    have hpart : x.content.length = c.length - g.metadata.layout.startOf e := by
      rw [hx.content, heq, Layout.length_part_of_within hr.within]
    refine ⟨?_, ?_, hfilled⟩
    · rw [h.stores.length_part_last]
      omega
    · rw [hpart, Nat.add_sub_cancel' (by omega)]
      exact hr.within
  case header =>
    intro hclean
    obtain ⟨hold, hsame⟩ := hsize hclean
    show Bytes.slice ((s.withContents _ _).disk.contents g.file) _ _ = _ ∧
      Bytes.slice ((s.withContents _ _).disk.contents g.file) _ _ = Bytes.ofNatLE 8 ct'
    rw [hcontents, hheader (by decide), hheader (by decide), hsame]
    exact h.header hold
  case headerClean => simp [hwrite]
  case trail =>
    show g.trail.Fits ((s.withContents _ _).disk.contents g.file) (s.layout.dataOffset + ct') s.size
      _ s.tailCut
    have htrail := h.trail
    rw [h.eofPos_eq] at htrail hcut
    rw [hcontents, h.layout, Metadata.dataOffset_layout]
    refine htrail.overlay (by omega) hcut fun hle => ?_
    obtain ⟨hsame, hlength⟩ := hr.ends_unchanged h.stores hlen hct hle
    exact ⟨congrArg _ hsame, hlength⟩

end Session

namespace Container

open Session

variable {s : Session} {g : Site} {e : Nat} {c d : Bytes} {x : Chunk} {xs hand : List Chunk}
  {full : Prop}

/-! ## The steps of writing a chunk back

Each step may fail, and the state it fails in is stated with what it does. Packing draws a nonce and
looking up a place asks the file how long it is, so not even those two leave the session as it was:
they pass by (`Session.PassesBy`), which keeps all that is held. -/

theorem packChunk_does (h : s.Stands g) (x : Chunk) :
    (packChunk x).Does full s
      (fun data s' => data.length = x.content.length + ChunkCipher.overhead ∧
        g.metadata.cipher.unpack data x.seqnum = .ok x.content ∧ s.PassesBy s')
      s.PassesBy := by
  obtain ⟨p, hp⟩ := h.handle
  unfold packChunk
  refine Op.Does.bind (Raw.note_does hp _) ?_
  rintro - - ⟨y, -, rfl⟩
  have hkeys : s.processor.keys = some g.metadata.keys := by rw [h.processor, g.keyed]
  have hnonce := Random.length_draw y.random Gcm.nonceSize
  refine Op.Does.get_bind (Op.Does.ofDraw (Processor.packChunk_eq hkeys h.blockwise _ _ _) ?_)
  refine ⟨ChunkCipher.length_pack _ _ _ _ hnonce, ChunkCipher.unpack_pack _ _ _ hnonce, ?_⟩
  exact ⟨{ y with random := (y.random.draw Gcm.nonceSize).2 }, rfl⟩

theorem rawPosOf_does (h : s.OnDisk g e d) {i : Nat} (hi : i ≤ e) :
    (rawPosOf i).Does full s (fun raw s' => raw = g.metadata.layout.rawStartOf i ∧ s.PassesBy s')
      s.PassesBy := by
  obtain ⟨p, hp⟩ := h.handle
  have hle := h.eofPos_le
  have hraw : g.metadata.layout.rawStartOf i ≤ s.eofPos := by
    rw [h.eofPos_eq]
    exact Nat.le_trans (g.metadata.layout.rawStartOf_mono hi) h.stores.rawStart_last_le
  unfold rawPosOf
  refine Op.Does.get_bind (Op.Does.bind (Raw.size_does hp) ?_)
  rintro n s' ⟨rfl, y, rfl⟩
  simp only
  rw [if_neg (Nat.not_lt.mpr hle)]
  refine Op.Does.get_bind ?_
  rw [layout_beside, h.rawStartOf, if_neg (Nat.not_lt.mpr hraw)]
  exact Op.Does.pure ⟨rfl, y, rfl⟩

/-- Whatever was kept behind the chunk data may be cut off if the content grew. -/
theorem cutTail_does (h : s.OnDisk g e d) (hwrite : g.mode.isWrite = true) (rawEnd : Nat)
    (hgrows : s.eofPos < rawEnd → g.trail ≠ .cut → d.length < s.size) :
    (cutTail rawEnd).Does full s
      (fun _ s' => s'.OnDisk g e d ∧ s.SameMemory s' ∧ s'.ciphertextSize = s.ciphertextSize ∧
        (s.eofPos < rawEnd → s'.tailCut = true))
      s.PassesBy := by
  obtain ⟨p, hp⟩ := h.handle
  unfold cutTail
  refine Op.Does.get_bind (Op.Does.when (fun hbeyond => ?_) ?_)
  · have hgrown := h.trail.grown (hgrows (by simpa using hbeyond : _ ∧ _).2)
    refine Op.Does.bind (Raw.size_does hp) ?_
    rintro n s' ⟨rfl, y, rfl⟩
    have hy := handle_beside hp y
    by_cases hlt : s.eofPos < (s.disk.contents g.file).length
    · simp only [if_pos hlt]
      refine Op.Does.bind (s.passesBy_beside y ▸ Raw.truncate_does hy (g.mayWrite hwrite) _ _) ?_
      rintro - - ⟨z, rfl⟩
      refine Op.Does.modify rfl ⟨?_, ?_, rfl, fun _ => rfl⟩
      · exact ((h.beside y).untrailed.cutTail true hgrown).beside z
      · exact ⟨⟨rfl, rfl, rfl, rfl⟩, rfl⟩
    · simp only [if_neg hlt]
      have hnil : (s.disk.contents g.file).drop s.eofPos = [] :=
        List.drop_eq_nil_of_le (Nat.le_of_not_lt hlt)
      refine Op.Does.modify rfl ⟨?_, ⟨⟨rfl, rfl, rfl, rfl⟩, rfl⟩, rfl, fun _ => rfl⟩
      exact { h.beside y with trail := Trail.fits_of_nil hnil hgrown }
  · intro hskip
    refine ⟨h, SameMemory.refl s, rfl, fun hlt => ?_⟩
    simpa [hlt] using hskip

/-- Writing lays the data over the raw file. -/
theorem writeAtHandle_does {h : Handle} (hh : s.handle = some h) (hw : h.writable = true)
    (offset : Nat) {data : Bytes} (hdata : data ≠ []) :
    (writeAt offset data).Does full s
      (fun _ s' => (s.withContents h.file
        ((s.disk.contents h.file).overlay offset data)).PassesBy s')
      s.PassesBy := by
  unfold writeAt
  refine Op.Does.bind (Raw.seek_does hh offset) ?_
  rintro - - ⟨y, hy, rfl⟩
  have hy' := handle_beside hh y
  refine Op.Does.bind (s.passesBy_beside y ▸ Raw.write_does hy' hw hdata) ?_
  rintro n - ⟨rfl, z, rfl⟩
  simp only [ne_eq, not_true_eq_false, if_false]
  refine Op.Does.pure ⟨z, ?_⟩
  rw [hy]
  simp [beside, withContents, hh]

theorem writeAt_does (h : s.Located g) (hwrite : g.mode.isWrite = true) (offset : Nat)
    {data : Bytes} (hdata : data ≠ []) :
    (writeAt offset data).Does full s
      (fun _ s' => (s.withContents g.file
        ((s.disk.contents g.file).overlay offset data)).PassesBy s')
      s.PassesBy :=
  let ⟨_, hp⟩ := h.handle
  writeAtHandle_does hp (g.mayWrite hwrite) offset hdata

/-! ## Writing a chunk back

The statement is made three times, for three places where the chunk may be. Alone it is a fact about
the file (`flushChunk_does`). In hand the chunk stays, with nothing left to be written
(`flushHeld_does`). On its way out it leaves, written or not (`flushEvicted_does`). -/

/-- **A chunk that is written back brings the file up to what is seen, as far as it goes.** -/
theorem flushChunk_does (h : s.OnDisk g e d) (hsize : s.size = c.length)
    (hwrite : g.mode.isWrite = true) (hr : g.metadata.Recalls s.ciphertextSize e c d (x :: xs))
    (hfilled : x.content ≠ [] ∨ e = 0 ∧ g.trail = .cut) :
    (flushChunk x).Does full s
      (fun y s' => y = x.stored ∧ s.SameMemory s' ∧ ∃ d', s'.OnDisk g e d' ∧
        g.metadata.Recalls s'.ciphertextSize e c d' (x.stored :: xs))
      (fun s' => s.SameMemory s' ∧ s'.OnDisk g e d ∧ s'.ciphertextSize = s.ciphertextSize) := by
  have hx := hr.mirrors x List.mem_cons_self
  have herr {t : Session} (ht : t.OnDisk g e d) (hmem : s.SameMemory t)
      (hct : t.ciphertextSize = s.ciphertextSize) {t' : Session} (hp : t.PassesBy t') :
      s.SameMemory t' ∧ t'.OnDisk g e d ∧ t'.ciphertextSize = s.ciphertextSize := by
    refine ⟨hmem.trans hp.sameMemory, ht.passesBy hp, ?_⟩
    obtain ⟨y, rfl⟩ := hp
    exact hct
  unfold flushChunk
  refine Op.Does.bind ((packChunk_does h.toStands x).mono (fun _ _ => id)
    fun _ hp => herr h (SameMemory.refl s) rfl hp) ?_
  rintro data s₁ ⟨hlen, hopens, hpass⟩
  have hne : data ≠ [] := by
    rintro rfl
    simp [ChunkCipher.overhead, Gcm.nonceSize] at hlen
    omega
  simp only [if_neg hne]
  obtain ⟨hmem, h₁, hct₁⟩ := herr h (SameMemory.refl s) rfl hpass
  refine Op.Does.bind ((rawPosOf_does h₁ hx.le).mono (fun _ _ => id)
    fun _ hp => herr h₁ hmem hct₁ hp) ?_
  rintro raw s₂ ⟨rfl, hpass⟩
  obtain ⟨hmem, h₂, hct₂⟩ := herr h₁ hmem hct₁ hpass
  have hgrows : s₂.eofPos < g.metadata.layout.rawStartOf x.seqnum + data.length → g.trail ≠ .cut →
      d.length < s₂.size := by
    rw [hmem.size, hsize, h₂.eofPos_eq, hct₂, hlen]
    exact fun hlt htrail =>
      hr.length_lt h.stores (hfilled.resolve_right fun hnew => htrail hnew.2) hlt
  refine Op.Does.bind ((cutTail_does h₂ hwrite _ hgrows).mono (fun _ _ => id)
    fun _ hp => herr h₂ hmem hct₂ hp) ?_
  rintro - s₃ ⟨h₃, hmem₃, hct₃, hcut⟩
  replace hmem := hmem.trans hmem₃
  replace hct₃ := hct₃.trans hct₂
  refine Op.Does.bind ((writeAt_does h₃.toLocated hwrite _ hne).mono (fun _ _ => id)
    fun _ hp => herr h₃ hmem hct₃ hp) ?_
  rintro - - ⟨y, rfl⟩
  have hr₃ : g.metadata.Recalls s₃.ciphertextSize e c d (x :: xs) := by rwa [hct₃]
  have hcut₃ : s₃.eofPos < g.metadata.layout.rawStartOf x.seqnum + data.length →
      s₃.tailCut = true := by
    rw [h₃.eofPos_eq, hct₃, ← hct₂, ← h₂.eofPos_eq]
    exact hcut
  -- Only a chunk that got longer changes the numbers.
  by_cases hsame : data.length = x.ciphertextSize
  · have hct : s₃.ciphertextSize = s₃.ciphertextSize - x.ciphertextSize + data.length := by
      have hle := h₃.stores.rawStart_add_storedSize_le hx.le
      have hoffset := g.metadata.layout.dataOffset_le_rawStartOf x.seqnum
      rw [Metadata.dataOffset_layout] at hoffset
      rw [hct₃, ← hx.ciphertextSize] at hle
      omega
    obtain ⟨hdisk, hrec⟩ := h₃.store hwrite hr₃ (hfilled.imp id And.left) hlen hopens hcut₃ _ hct
      fun h0 => ⟨h0, rfl⟩
    simp only [ne_eq, hsame, not_true_eq_false, if_false]
    refine Op.Does.pure ⟨by simp [Chunk.stored, ← hlen, hsame],
      hmem.trans ⟨⟨rfl, rfl, rfl, rfl⟩, rfl⟩, _, hdisk.beside y, hrec⟩
  · obtain ⟨hdisk, hrec⟩ := h₃.store hwrite hr₃ (hfilled.imp id And.left) hlen hopens hcut₃ true rfl
      (by simp)
    simp only [ne_eq, hsame, not_false_eq_true, if_true]
    refine Op.Does.modify_bind rfl (Op.Does.pure ⟨by simp [Chunk.stored, hlen],
      hmem.trans ⟨⟨rfl, rfl, rfl, rfl⟩, rfl⟩, _, hdisk.beside y, hrec⟩)

/-- A chunk in hand is written back. -/
theorem flushHeld_does (h : s.Holds g e c d (x :: hand)) (hwrite : g.mode.isWrite = true)
    (hfilled : x.content ≠ [] ∨ e = 0 ∧ g.trail = .cut) :
    (flushChunk x).Does full s
      (fun y s' => y = x.stored ∧ s.SameMemory s' ∧ ∃ d', s'.Holds g e c d' (x.stored :: hand))
      (fun s' => s.SameMemory s' ∧ s'.Holds g e c d (x :: hand)) := by
  refine (flushChunk_does h.toOnDisk h.size hwrite h.recalls hfilled).mono ?_ ?_
  · rintro _ s' ⟨rfl, hmem, d', hdisk, hrec⟩
    refine ⟨rfl, hmem, d', h.of_onDisk hdisk hmem hrec fun y hy hd => ?_⟩
    rcases List.mem_cons.mp hy with rfl | hy
    · simp at hd
    · exact List.mem_cons_of_mem x hy
  · rintro s' ⟨hmem, hdisk, hct⟩
    exact ⟨hmem, h.of_onDisk hdisk hmem (hct ▸ h.recalls) fun _ hy _ => hy⟩

/-- Chunks that made way are written back; when one of them cannot be, it is lost and so are those
behind it. -/
theorem flushEvicted_does (h : s.Holds g e c d (xs ++ hand))
    (hxs : ∀ x ∈ xs, x.dirty = true → x.seqnum ≠ e) :
    (flushEvicted xs).Does full s
      (fun _ s' => s.SameMemory s' ∧ ((∀ x ∈ xs, x.dirty = false) → s' = s) ∧
        ∃ d', s'.Holds g e c d' hand)
      (fun s' => s.SameMemory s' ∧ ∃ c' d', s'.Holds g e c' d' hand ∧
        g.metadata.layout.AgreeBut e (Chunk.Unwritten xs) c c') := by
  induction xs generalizing s d with
  | nil => exact Op.Does.pure ⟨SameMemory.refl s, fun _ => rfl, d, h⟩
  | cons x xs ih =>
    have hrest : ∀ y ∈ xs, y.dirty = true → y.seqnum ≠ e :=
      fun y hy => hxs y (List.mem_cons_of_mem x hy)
    have hlost (i : Nat) (hi : Chunk.Unwritten xs i) : Chunk.Unwritten (x :: xs) i := by
      obtain ⟨y, hy, hyi⟩ := hi
      exact ⟨y, List.mem_cons_of_mem x hy, hyi⟩
    have hstep {t : Session} {d₁ : Bytes} (hmem : s.SameMemory t)
        (hsame : x.dirty = false → t = s) (ht : t.Holds g e c d₁ (xs ++ hand)) :
        (flushEvicted xs).Does full t
          (fun _ s' => s.SameMemory s' ∧ ((∀ y ∈ x :: xs, y.dirty = false) → s' = s) ∧
            ∃ d', s'.Holds g e c d' hand)
          (fun s' => s.SameMemory s' ∧ ∃ c' d', s'.Holds g e c' d' hand ∧
            g.metadata.layout.AgreeBut e (Chunk.Unwritten (x :: xs)) c c') := by
      refine (ih ht hrest).mono ?_ ?_
      · rintro _ s' ⟨hmem', hidle, hd⟩
        refine ⟨hmem.trans hmem', fun hclean => ?_, hd⟩
        rw [hidle fun y hy => hclean y (List.mem_cons_of_mem x hy)]
        exact hsame (hclean x List.mem_cons_self)
      · rintro s' ⟨hmem', c', d', h', hagree⟩
        exact ⟨hmem.trans hmem', c', d', h', hagree.mono hlost⟩
    unfold flushEvicted
    cases hdirty : x.dirty with
    | false =>
      simp only [Bool.false_eq_true, if_false]
      exact hstep (SameMemory.refl s) (fun _ => rfl) (h.leave_clean hdirty)
    | true =>
      simp only [if_true]
      refine Op.Does.bind (P := fun _ t => s.SameMemory t ∧ ∃ d₁, t.Holds g e c d₁ (xs ++ hand))
        (Op.Does.discard ((flushHeld_does h (h.isWrite_of_dirty List.mem_cons_self hdirty)
          (.inl ((h.recalls.mirrors x List.mem_cons_self).filled hdirty))).mono ?_ ?_)) ?_
      · rintro _ t ⟨-, hmem, d₁, ht⟩
        exact ⟨hmem, d₁, ht.leave_clean x.dirty_stored⟩
      · rintro t ⟨hmem, ht⟩
        exact ⟨hmem, let ⟨c', h', hagree⟩ := ht.leave hxs; ⟨c', d, h', hagree⟩⟩
      · rintro - t ⟨hmem, d₁, ht⟩
        exact hstep hmem (by simp [hdirty]) ht

/-! ## Chunks that stay where they are

A flush of the pool puts each chunk back where it was and goes on from there, so the pool is split
into what is done and what is to come. A failure in the middle has lost nothing: what comes after
the chunk that failed is as dirty as before. -/

/-- **A chunk of the pool is written back and stays in its place.** -/
theorem flushInPlace_does (h : s.Holds g e c d hand) {done : List Chunk}
    (hpool : s.pool.entries = done ++ x :: xs) (hdirty : x.dirty = true) :
    (flushChunk x).Does full s
      (fun y s' => y = x.stored ∧ s.SameMemory s' ∧
        (s'.pool.refresh x.stored).entries = done ++ x.stored :: xs ∧
        ∃ d', Holds { s' with pool := s'.pool.refresh x.stored } g e c d' hand)
      (fun s' => s.SameMemory s' ∧ ∃ d', s'.Holds g e c d' hand) := by
  have hmem : x ∈ hand ++ s.pool.entries := by simp [hpool]
  have hperm : (hand ++ s.pool.entries).Perm (x :: (hand ++ done ++ xs)) := by
    rw [hpool, ← List.append_assoc]
    exact List.perm_middle
  have hrec := h.recalls.perm hperm
  have hfilled := (h.recalls.mirrors x hmem).filled hdirty
  refine (flushChunk_does h.toOnDisk h.size (h.isWrite_of_dirty hmem hdirty) hrec
    (.inl hfilled)).mono ?_ ?_
  · rintro _ t ⟨rfl, hsame, d₁, hdisk, hrec₁⟩
    have habsent : Chunk.Absent (done ++ xs) x.seqnum := by
      refine Chunk.Absent.mono hrec.not_mem_tail fun z hz => ?_
      rw [List.append_assoc]
      exact List.mem_append_right _ hz
    have hentries : (t.pool.refresh x.stored).entries = done ++ x.stored :: xs :=
      Pool.entries_refresh (x := x) (hsame.pool ▸ hpool) rfl habsent
    have hperm₁ : (x.stored :: (hand ++ done ++ xs)).Perm
        (hand ++ (t.pool.refresh x.stored).entries) := by
      rw [hentries, ← List.append_assoc]
      exact List.perm_middle.symm
    -- What is dirty after this was in the pool before.
    have hback {y : Chunk} (hy : y ∈ (t.pool.refresh x.stored).entries) (hd : y.dirty = true) :
        y ∈ s.pool.entries := by
      rw [hentries] at hy
      rw [hpool]
      rcases List.mem_append.mp hy with hy | hy
      · exact List.mem_append_left _ hy
      · rcases List.mem_cons.mp hy with rfl | hy
        · simp at hd
        · exact List.mem_append_right _ (List.mem_cons_of_mem x hy)
    refine ⟨rfl, hsame, hentries, d₁, ?_⟩
    refine h.of_recalls (hdisk.repool _) hsame.size (hrec₁.perm hperm₁) (fun y hy hd => ?_)
      (fun y hy hd => h.early y (hback hy hd) hd) (fun hu => by simp [h.unpooled hu] at hpool)
    rcases List.mem_append.mp hy with hy | hy
    · exact List.mem_append_left _ hy
    · exact List.mem_append_right _ (hback hy hd)
  · rintro t ⟨hsame, hdisk, hct⟩
    exact ⟨hsame, d, h.of_onDisk hdisk hsame (hct ▸ h.recalls) fun _ hy _ => hy⟩

/-- Pooled chunks are written back one by one, and stay in the pool. -/
theorem flushPooled_does (h : s.Holds g e c d hand) (done : List Chunk)
    (hpool : s.pool.entries = done ++ xs) (hdone : ∀ x ∈ done, x.dirty = false) :
    (flushPooled xs).Does full s
      (fun _ s' => s.SameWork s' ∧ (∀ x ∈ s'.pool.entries, x.dirty = false) ∧
        ((∀ x ∈ xs, x.dirty = false) → s' = s) ∧ ∃ d', s'.Holds g e c d' hand)
      (fun s' => s.SameWork s' ∧ ∃ d', s'.Holds g e c d' hand) := by
  induction xs generalizing s d done with
  | nil =>
    refine Op.Does.pure ⟨SameWork.refl s, ?_, fun _ => rfl, d, h⟩
    rw [hpool, List.append_nil]
    exact hdone
  | cons x xs ih =>
    -- Induction on the chunks that are left. In front of them stand the chunks that were looked at,
    -- which are clean by now.
    have hstep {t : Session} {d₁ : Bytes} {y : Chunk} (hwork : s.SameWork t)
        (hsame : x.dirty = false → t = s) (ht : t.Holds g e c d₁ hand)
        (hentries : t.pool.entries = done ++ y :: xs) (hy : y.dirty = false) :
        (flushPooled xs).Does full t
          (fun _ s' => s.SameWork s' ∧ (∀ x ∈ s'.pool.entries, x.dirty = false) ∧
            ((∀ y ∈ x :: xs, y.dirty = false) → s' = s) ∧ ∃ d', s'.Holds g e c d' hand)
          (fun s' => s.SameWork s' ∧ ∃ d', s'.Holds g e c d' hand) := by
      have hdone' : ∀ z ∈ done ++ [y], z.dirty = false := by
        intro z hz
        rcases List.mem_append.mp hz with hz | hz
        · exact hdone z hz
        · exact List.mem_singleton.mp hz ▸ hy
      refine (ih ht _ (by simp [hentries]) hdone').mono ?_ ?_
      · rintro _ s' ⟨hwork', hclean', hidle, hd⟩
        refine ⟨hwork.trans hwork', hclean', fun hclean => ?_, hd⟩
        rw [hidle fun z hz => hclean z (List.mem_cons_of_mem x hz)]
        exact hsame (hclean x List.mem_cons_self)
      · rintro s' ⟨hwork', hrest⟩
        exact ⟨hwork.trans hwork', hrest⟩
    unfold flushPooled
    cases hdirty : x.dirty with
    | false =>
      simp only [Bool.false_eq_true, if_false]
      exact hstep (SameWork.refl s) (fun _ => rfl) h hpool hdirty
    | true =>
      simp only [if_true]
      refine Op.Does.bind ((flushInPlace_does h hpool hdirty).mono (fun _ _ => id) ?_) ?_
      · rintro t ⟨hsame, ht⟩
        exact ⟨hsame.toSameWork, ht⟩
      · rintro _ t ⟨rfl, hsame, hentries, d₁, ht⟩
        exact Op.Does.modify_bind rfl (hstep
          ⟨hsame.current, hsame.cursor, hsame.size, hsame.eofSeqnum⟩ (by simp [hdirty]) ht hentries
          x.dirty_stored)

theorem flushEvicted_singleton (x : Chunk) :
    flushEvicted [x] = if x.dirty then discard (flushChunk x) else pure () := by
  cases hd : x.dirty <;> simp [flushEvicted, hd]

/-- **A chunk that is current no longer is pooled or written back;** when a chunk cannot be
written, that chunk is lost. -/
theorem retire_does (h : s.Holds g e c d (x :: hand)) (hlast : x.dirty = true → x.seqnum ≠ e) :
    (retire x).Does full s
      (fun _ s' => s.SameWork s' ∧ (∀ y ∈ s'.pool.entries, y ∈ x :: s.pool.entries) ∧
        ((∀ y ∈ x :: s.pool.entries, y.dirty = false) →
          s'.disk = s.disk ∧ s'.sizeDirty = s.sizeDirty) ∧ ∃ d', s'.Holds g e c d' hand)
      (fun s' => s.SameWork s' ∧ ∃ c' d', s'.Holds g e c' d' hand ∧
        g.metadata.layout.AgreeBut e (fun i => Chunk.Unwritten (x :: s.pool.entries) i ∧
          Chunk.Absent (hand ++ s'.pool.entries) i) c c') := by
  -- With a pool the chunk goes there and another one may have to leave; without one it leaves
  -- itself.
  have hmain (evicted : List Chunk) (pool : Pool)
      (hentries : (evicted ++ pool.entries).Perm (x :: s.pool.entries))
      (hunpooled : g.useCache = false → pool.entries = []) :
      (flushEvicted evicted).Does full { s with pool }
        (fun _ s' => s.SameWork s' ∧ (∀ y ∈ s'.pool.entries, y ∈ x :: s.pool.entries) ∧
          ((∀ y ∈ x :: s.pool.entries, y.dirty = false) →
            s'.disk = s.disk ∧ s'.sizeDirty = s.sizeDirty) ∧ ∃ d', s'.Holds g e c d' hand)
        (fun s' => s.SameWork s' ∧ ∃ c' d', s'.Holds g e c' d' hand ∧
          g.metadata.layout.AgreeBut e (fun i => Chunk.Unwritten (x :: s.pool.entries) i ∧
            Chunk.Absent (hand ++ s'.pool.entries) i) c c') := by
    have hmem {y : Chunk} (hy : y ∈ evicted ++ pool.entries) : y ∈ x :: s.pool.entries :=
      hentries.mem_iff.mp hy
    have hearly {y : Chunk} (hy : y ∈ evicted ++ pool.entries) (hd : y.dirty = true) :
        y.seqnum ≠ e := by
      rcases List.mem_cons.mp (hmem hy) with rfl | hy
      · exact hlast hd
      · exact h.early y hy hd
    have ht : Holds { s with pool } g e c d (evicted ++ hand) := by
      refine h.repool ?_ (fun y hy => hearly (List.mem_append_right _ hy)) hunpooled
      calc x :: hand ++ s.pool.entries
        _ |>.Perm (hand ++ x :: s.pool.entries) := List.perm_middle.symm
        _ |>.Perm (hand ++ (evicted ++ pool.entries)) := hentries.symm.append_left hand
        _ |>.Perm (evicted ++ hand ++ pool.entries) := by
          rw [← List.append_assoc]
          exact List.perm_append_comm.append_right _
    refine (flushEvicted_does ht fun y hy => hearly (List.mem_append_left _ hy)).mono ?_ ?_
    · rintro _ s' ⟨hsame, hidle, hd⟩
      refine ⟨⟨hsame.current, hsame.cursor, hsame.size, hsame.eofSeqnum⟩, fun y hy => ?_,
        fun hclean => ?_, hd⟩
      · rw [hsame.pool] at hy
        exact hmem (List.mem_append_right _ hy)
      · rw [hidle fun y hy => hclean y (hmem (List.mem_append_left _ hy))]
        exact ⟨rfl, rfl⟩
    · rintro s' ⟨hsame, c', d', h', hagree⟩
      refine ⟨⟨hsame.current, hsame.cursor, hsame.size, hsame.eofSeqnum⟩, c', d', h',
        hagree.mono fun i hi => ⟨?_, ?_⟩⟩
      · exact hi.mono fun y hy _ => hmem (List.mem_append_left _ hy)
      · obtain ⟨y, hy, rfl, -⟩ := hi
        rw [hsame.pool]
        refine Chunk.absent_of_nodup ?_ hy
        rw [← List.append_assoc]
        exact ht.recalls.distinct
  unfold retire
  refine Op.Does.get_bind ?_
  by_cases hcache : s.useCache = true
  · rw [if_pos hcache]
    have habsent : Chunk.Absent s.pool.entries x.seqnum :=
      Chunk.Absent.mono h.recalls.not_mem_tail fun y hy => List.mem_append_right _ hy
    have hentries := Pool.entries_insert habsent
    generalize s.pool.insert x = inserted at hentries ⊢
    obtain ⟨evicted, pool⟩ := inserted
    refine Op.Does.set_bind rfl (hmain evicted.toList pool ?_ ?_)
    · rw [hentries]
      exact List.perm_append_singleton x s.pool.entries
    · rw [← h.useCache, hcache]
      simp
  · rw [if_neg hcache, ← flushEvicted_singleton]
    exact hmain [x] s.pool (List.Perm.refl _) h.unpooled

end Container

end Vault
