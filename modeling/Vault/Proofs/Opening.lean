import Vault.Proofs.Upkeep

/-!
# `Vault/Proofs/Opening.lean` — closing a container and opening it again

**Whoever has the master key and opens a file that keeps a content sees that content** — in every
mode that does not make a new file, whatever the configuration. A new container shows the empty
content. Closing leaves behind a file that keeps what was seen.
-/

set_option autoImplicit false

namespace Vault

/-! ## Files that keep a content

A raw file keeps a content if it stores it and the sizes in its header say so. Which chunk is
counted as the last one is not fixed where a content ends at the end of a chunk, so that number
is carried along and can be exchanged for the one that opening computes. -/

namespace Metadata

variable {m : Metadata} {raw raw' c : Bytes} {ct e i : Nat}

/-- The content is no larger than the chunk data. -/
theorem Stores.length_le (h : m.Stores raw ct e c) : c.length ≤ ct := by
  have hraw := Layout.rawStartOf_eq h.packs h.reaches
  rw [dataOffset_layout] at hraw
  have hpart := h.length_part_last
  rcases h.extent with ⟨heq, hlen⟩ | ⟨heq, -⟩ <;> omega

/-- The chunk that holds the end can be counted as the last one. -/
theorem Stores.reach (h : m.Stores raw ct e c) (hi : m.layout.seqnumOf? c.length = some i) :
    m.Stores raw ct i c := by
  obtain ⟨hreaches, hstart, hend, hnumber⟩ := Layout.seqnumOf?_eq_some_iff.mp hi
  have hwithin := h.within
  have hstart' := h.start
  unfold Layout.Within at hwithin
  rcases Nat.lt_trichotomy i e with hlt | rfl | hgt
  · -- the end cannot lie in front of the last chunk that is stored
    have hcap := h.reaches i hlt
    have hle := m.layout.startOf_add_capacity_le hlt
    omega
  · exact h
  · -- it lies behind the last stored chunk only if that one is full, and then in the next
    have hcap := hreaches e hgt
    have hle := m.layout.startOf_add_capacity_le hgt
    have hfull : c.length = m.layout.startOf e + m.layout.capacity e := by omega
    have hie : i = e + 1 := by
      refine Classical.byContradiction fun hne => ?_
      have hcap' := hreaches (e + 1) (by omega)
      have hbehind := m.layout.startOf_add_capacity_le (i := e + 1) (j := i) (by omega)
      rw [Layout.startOf_succ] at hbehind
      omega
    subst hie
    exact h.advance hcap hfull hnumber

/-- A raw file holds a content, and its header tells the sizes. -/
structure Keeps (m : Metadata) (raw : Bytes) (ciphertextSize last : Nat) (content : Bytes) : Prop
    extends m.Stores raw ciphertextSize last content where
  plaintext : raw.slice Header.plaintextAt 8 = Bytes.ofNatLE 8 content.length
  ciphertext : raw.slice Header.ciphertextAt 8 = Bytes.ofNatLE 8 ciphertextSize

/-- What stands behind the chunk data does not matter. -/
theorem Keeps.of_take_eq (h : m.Keeps raw ct e c) (hlen : m.dataOffset + ct ≤ raw'.length)
    (htake : raw'.take (m.dataOffset + ct) = raw.take (m.dataOffset + ct)) :
    m.Keeps raw' ct e c := by
  have hdata : m.dataOffset = Header.size + m.descriptor.length := rfl
  have hsize : Header.size = 22 := rfl
  have hslice {a : Nat} (ha : a + 8 ≤ Header.size) : raw'.slice a 8 = raw.slice a 8 := by
    -- both fields lie in the header, in front of where the two files may differ
    rw [← Bytes.slice_take (show a + 8 ≤ m.dataOffset + ct by omega), htake,
      Bytes.slice_take (by omega)]
  exact
    { h.toStores.of_take_eq hlen htake with
      plaintext := (hslice (by decide)).trans h.plaintext
      ciphertext := (hslice (by decide)).trans h.ciphertext }

theorem Keeps.reach (h : m.Keeps raw ct e c) (hi : m.layout.seqnumOf? c.length = some i) :
    m.Keeps raw ct i c :=
  { h.toStores.reach hi with plaintext := h.plaintext, ciphertext := h.ciphertext }

/-- For a content of this size all raw offsets are 64-bit numbers, however many chunks there are.
-/
def Fits (m : Metadata) (size : Nat) : Prop :=
  m.dataOffset + size + seqnumLimit * ChunkCipher.overhead < offsetLimit

theorem Stores.end_lt (h : m.Stores raw ct e c) (hfits : m.Fits c.length) :
    m.dataOffset + ct < offsetLimit := by
  have hraw := Layout.rawStartOf_eq h.packs h.reaches
  rw [dataOffset_layout] at hraw
  have hpart := h.length_part_last
  have hstart := h.start
  have hchunks : ChunkCipher.overhead * (e + 1) ≤ seqnumLimit * ChunkCipher.overhead := by
    rw [Nat.mul_comm]
    exact Nat.mul_le_mul_right _ h.numbered
  rw [Nat.mul_add] at hchunks
  unfold Fits at hfits
  -- a chunk takes its overhead once, and there are fewer chunks than chunk numbers
  rcases h.extent with ⟨heq, -⟩ | ⟨heq, -⟩ <;> omega

/-- The size of the chunk data is what the header says. -/
theorem Keeps.ciphertextSize_eq (h : m.Keeps raw ct e c) {ct' e' : Nat}
    (h' : m.Keeps raw ct' e' c) (hfits : m.Fits c.length) : ct = ct' := by
  have hlt := h.end_lt hfits
  have hlt' := h'.end_lt hfits
  have hlimit : Bytes.limit 8 = offsetLimit := rfl
  rw [← Bytes.toNatLE_ofNatLE_of_lt (show ct < Bytes.limit 8 by omega), ← h.ciphertext,
    h'.ciphertext, Bytes.toNatLE_ofNatLE_of_lt (by omega)]

/-- A header consists of what it begins with and the two sizes. -/
theorem header_of_fields {size : Nat} (hhead : raw.take 6 = m.head)
    (hplaintext : raw.slice Header.plaintextAt 8 = Bytes.ofNatLE 8 size)
    (hciphertext : raw.slice Header.ciphertextAt 8 = Bytes.ofNatLE 8 ct) :
    raw.slice 0 Header.size = m.header size ct := by
  have hhead : raw.slice 0 6 = m.head := by simpa [Bytes.slice] using hhead
  calc raw.slice 0 Header.size
    _ = raw.slice 0 6 ++ (raw.slice 6 8 ++ raw.slice 14 8) := by
      rw [Bytes.slice_append_slice, Bytes.slice_append_slice raw 0 6 16]
      rfl
    _ = m.header size ct := by
      rw [hhead]
      show m.head ++ (raw.slice Header.plaintextAt 8 ++ raw.slice Header.ciphertextAt 8) = _
      rw [hplaintext, hciphertext]
      rfl

/-- The header of a file that keeps a content. -/
theorem Keeps.header_eq (h : m.Keeps raw ct e c) :
    raw.slice 0 Header.size = m.header c.length ct :=
  header_of_fields h.head h.plaintext h.ciphertext

end Metadata

namespace Session

variable {s s' : Session} {g : Site} {c d : Bytes}

/-- The session after its container was closed. -/
def shutDown (s : Session) (x : Surroundings) : Session :=
  { s with
    toOpening := {}, pool := s.pool.clear, processor := s.processor.reset, handle := none
    faults := x.faults, trace := x.trace, random := x.random }

/-- The raw file was closed and the container forgotten. -/
def Forgotten (s s' : Session) : Prop := ∃ x, s' = s.shutDown x

/-- After a flush the file keeps what is seen. -/
theorem Flushed.keeps (h : s.Flushed g c) :
    g.metadata.Keeps (s.disk.contents g.file) s.ciphertextSize s.eofSeqnum c :=
  { h.stores with
    plaintext := by
      rw [← h.size]
      exact (h.header h.sized).1
    ciphertext := (h.header h.sized).2 }

/-! ## A raw file that was just opened

Opening finds the container forgotten: no chunk in memory, nothing changed, nothing cut. All that
a container must be to show a content then follows from what the file keeps. -/

/-- The raw file is open, and nothing is known about the content yet. -/
structure Entered (s : Session) (g : Site) : Prop extends s.Located g where
  current : s.current = none
  cursor : s.cursor = 0
  sizeDirty : s.sizeDirty = false
  tailCut : s.tailCut = false
  pool : s.pool.entries = []

theorem Entered.beside (h : s.Entered g) (x : Surroundings) : (s.beside x).Entered g :=
  { h.toLocated.beside x with
    current := h.current, cursor := h.cursor, sizeDirty := h.sizeDirty, tailCut := h.tailCut
    pool := h.pool }

/-- With processor, layout and sizes in place, the container shows what the file keeps. -/
theorem Entered.shows (h : s.Entered g) (ct e : Nat)
    (hkeeps : g.metadata.Keeps (s.disk.contents g.file) ct e c)
    (hi : g.metadata.layout.seqnumOf? c.length = some s.eofSeqnum)
    (htrail : g.trail.Fits (s.disk.contents g.file) (g.metadata.dataOffset + ct) c.length c.length
      false)
    (hprocessor : s.processor = g.processor) (hlayout : s.layout = g.metadata.layout)
    (hseek : s.seekCursor = g.seekCursor) (hct : s.ciphertextSize = ct)
    (hsize : s.size = c.length) : s.Shows g c c := by
  subst hct
  have hstores := hkeeps.toStores.reach hi
  have heof : s.eofPos = g.metadata.dataOffset + s.ciphertextSize := by
    rw [Container.eofPos, hlayout]
    rfl
  have hdisk : s.OnDisk g s.eofSeqnum c :=
    { h.toLocated with
      seekCursor := hseek, processor := hprocessor, layout := hlayout
      stores := hstores
      header := fun _ => ⟨hsize ▸ hkeeps.plaintext, hkeeps.ciphertext⟩
      headerClean := fun _ => h.sizeDirty
      trail := by
        rw [heof, hsize, h.tailCut]
        exact htrail }
  exact
    { hdisk with
      recalls := by
        simp only [h.current, h.pool]
        exact Metadata.Recalls.of_stored hstores
      size := hsize
      early := by simp [h.pool]
      unpooled := fun _ => h.pool
      readOnly := by simp [h.current, h.pool]
      points := by simp [h.current] }

theorem Entered.idle (h : s.Entered g) : s.Idle :=
  ⟨by simp [memory, h.current, h.pool], h.sizeDirty⟩

end Session

namespace Container

open Session

variable {s : Session} {g : Site} {c d : Bytes} {full : Prop}

/-! ## Closing

Whatever happens on the way, a close ends with the container forgotten. The statements therefore
say in which state the container was just before. -/

theorem rawClose_does {h : Handle} (hh : s.handle = some h) :
    Raw.close.Does full s (fun _ s' => ∃ x, s' = { s.beside x with handle := none })
      (fun s' => ∃ x, s' = { s.beside x with handle := none }) := by
  unfold Raw.close Raw.note
  refine Op.Does.modify_bind rfl ?_
  refine Op.Does.attempt_bind
    (Raw.meetFault_does (s := { s with trace := .closed :: s.trace }) hh .close) ?_ ?_
  · rintro b s' ⟨-, x, -, rfl⟩
    exact Op.Does.modify_bind rfl (Op.Does.discard (Op.Does.ofExcept rfl ⟨x, rfl⟩))
  · -- a close that fails has let go of the file as well
    rintro e s' ⟨x, rfl⟩
    exact Op.Raises.modify_bind rfl (fun _ => ⟨e, _, rfl, .inl ⟨rfl, Fault.Worn.refl _⟩, x, rfl⟩)

theorem shutOnly_does {h : Handle} (hh : s.handle = some h) :
    (shut false).Does full s (fun _ s' => s.Forgotten s') s.Forgotten := by
  have hclose : (closeRaw false).Does full s
      (fun _ s' => ∃ x, s' = { s.beside x with handle := none })
      (fun s' => ∃ x, s' = { s.beside x with handle := none }) := by
    unfold closeRaw
    refine Op.Does.get_bind (Op.Does.when (fun _ => ?_) fun hclosed => ?_)
    · simp only [Bool.false_eq_true, if_false]
      refine Op.Does.attempt_bind (rawClose_does hh) ?_ ?_
      · exact fun _ s' hs' => Op.Does.pure hs'
      · exact fun e s' hs' => Op.Raises.throw hs'
    · simp [Container.isOpen, hh] at hclosed
  unfold shut forgetAll
  refine Op.Does.attempt_bind hclose ?_ ?_
  · rintro _ s' ⟨x, rfl⟩
    exact Op.Does.modify_bind rfl (Op.Does.ofExcept rfl ⟨x, rfl⟩)
  · rintro e s' ⟨x, rfl⟩
    exact Op.Raises.modify_bind rfl (Op.Raises.throw ⟨x, rfl⟩)

/-- Closing is flushing, closing the raw file and forgetting, and a failure of one of the first two
stops neither of the others. -/
theorem shutFlushed_does {ok err : Session → Prop} (hopen : s.isOpen = true)
    (hflush : (flushAll (some false)).Does full s (fun _ t => ok t) err)
    (hok : ∀ t, ok t → t.isOpen = true) (herr : ∀ t, err t → t.isOpen = true)
    (hweak : ∀ t, ok t → err t) :
    (shut true).Does full s (fun _ s' => ∃ t, ok t ∧ t.Forgotten s')
      (fun s' => ∃ t, err t ∧ t.Forgotten s') := by
  have hclose : (closeRaw true).Does full s
      (fun _ s' => ∃ (t : Session) (x : Surroundings), ok t ∧
        s' = { t.beside x with handle := none })
      (fun s' => ∃ (t : Session) (x : Surroundings), err t ∧
        s' = { t.beside x with handle := none }) := by
    unfold closeRaw
    refine Op.Does.get_bind (Op.Does.when (fun _ => ?_) fun hclosed => absurd hopen hclosed)
    simp only [if_true]
    refine Op.Does.attempt_bind hflush ?_ ?_
    · rintro - t ht
      obtain ⟨h, hh⟩ := Option.isSome_iff_exists.mp (hok t ht)
      -- only the raw file can still fail here; all is written, and the weaker account is given
      refine Op.Does.attempt_bind (rawClose_does hh) ?_ ?_
      · rintro _ s' ⟨x, rfl⟩
        exact Op.Does.pure ⟨t, x, ht, rfl⟩
      · rintro e s' ⟨x, rfl⟩
        exact Op.Raises.throw ⟨t, x, hweak t ht, rfl⟩
    · rintro e t ht
      -- a failed flush is what is reported, whether closing the file then fails or not
      obtain ⟨h, hh⟩ := Option.isSome_iff_exists.mp (herr t ht)
      refine Op.Raises.attempt_bind (rawClose_does hh) ?_ ?_
      · rintro _ s' ⟨x, rfl⟩
        exact Op.Raises.throw ⟨t, x, ht, rfl⟩
      · rintro _ s' ⟨x, rfl⟩
        exact .inl (Op.Raises.throw ⟨t, x, ht, rfl⟩)
  unfold shut forgetAll
  refine Op.Does.attempt_bind hclose ?_ ?_
  · rintro _ s' ⟨t, x, ht, rfl⟩
    exact Op.Does.modify_bind rfl (Op.Does.ofExcept rfl ⟨t, ht, x, rfl⟩)
  · rintro e s' ⟨t, x, ht, rfl⟩
    exact Op.Raises.modify_bind rfl (Op.Raises.throw ⟨t, ht, x, rfl⟩)

/-- Closing with everything written. -/
theorem shut_does (h : s.Shows g c d) :
    (shut true).Does full s (fun _ s' => ∃ t : Session, t.Flushed g c ∧ t.Forgotten s')
      (fun s' => ∃ (t : Session) (d' : Bytes), t.Shows g c d' ∧ t.Forgotten s') := by
  have hflush : (flushAll (some false)).Does full s (fun _ t => t.Flushed g c)
      (fun t => ∃ d', t.Shows g c d') :=
    (flushAll_does h (some false)).mono (fun _ _ h' => h'.2.2.2) fun _ h' => h'.2
  refine (shutFlushed_does h.isOpen hflush (fun _ ht => ht.isOpen) (fun _ ⟨_, ht⟩ => ht.isOpen)
    fun _ ht => ⟨c, ht.toShows⟩).mono (fun _ _ => id) ?_
  rintro s' ⟨t, ⟨d', ht⟩, hforgotten⟩
  exact ⟨t, d', ht, hforgotten⟩

/-! ## Opening a file that keeps a content

Opening goes through the file from its start: the header, the descriptor, the sizes, and at last
the first chunk. Each of them is read in full or refused, and `hrest` in `loadLayout_reads` is
what is done once all of them are known. -/

theorem readExactly_does {h : Handle} (hh : s.handle = some h) {n : Nat}
    (hn : h.position + n ≤ (s.disk.contents h.file).length) (short : Nat → Error) :
    (readExactly n short).Does full s
      (fun data s' => data = (s.disk.contents h.file).slice h.position n ∧
        ∃ x, x.position = h.position + n ∧ s' = s.beside x)
      s.PassesBy := by
  unfold readExactly
  refine Op.Does.bind (Raw.read_does hh n) ?_
  rintro data s' ⟨hdata, x, hx, rfl⟩
  have hlen : data.length = n := by
    rw [hdata, Bytes.length_slice]
    omega
  simp only [hlen, ne_eq, not_true_eq_false, if_false]
  exact Op.Does.pure ⟨hdata, x, by rw [hx, hlen], rfl⟩

/-- Sizes that go together with each other, with the file and with the layout are taken over. -/
theorem loadSizes_reads {h : Handle} (hh : s.handle = some h) {m : Metadata} {info : HeaderInfo}
    {n : Nat} (hlayout : s.processor.layout (Header.size + info.descriptorSize) = m.layout)
    (hsize : (if s.processor.config.streaming
      then m.layout.streamedSize info.ciphertextSize s.processor.streamLead
      else info.plaintextSize) = n)
    (hpresent : m.dataOffset + info.ciphertextSize ≤ (s.disk.contents h.file).length)
    (hend : m.dataOffset + info.ciphertextSize < offsetLimit)
    (hplace : ∀ i, m.layout.seqnumOf? n = some i →
      m.layout.rawStartOf i ≤ m.dataOffset + info.ciphertextSize) :
    (loadSizes info).Does (m.layout.seqnumOf? n = none) s
      (fun _ s' => ∃ i x, m.layout.seqnumOf? n = some i ∧ s' = Session.beside { s with
        layout := m.layout, ciphertextSize := info.ciphertextSize, size := n, eofSeqnum := i } x)
      (fun s' => s'.isOpen = true) := by
  unfold loadSizes
  refine Op.Does.bind (P := fun _ t => t = { s with
    layout := m.layout, ciphertextSize := info.ciphertextSize, size := n }) ?_ ?_
  · refine Op.Does.modify rfl ?_
    simp only [hlayout, hsize]
  rintro - t ht
  have hhandle : t.handle = some h := by
    rw [ht]
    exact hh
  have hopen : t.isOpen = true := by simp [Container.isOpen, hhandle]
  obtain ⟨hsize, hct, hlay, hdisk⟩ : t.size = n ∧ t.ciphertextSize = info.ciphertextSize ∧
      t.layout = m.layout ∧ t.disk = s.disk := by
    rw [ht]
    exact ⟨rfl, rfl, rfl, rfl⟩
  refine Op.Does.get_bind (Op.Does.bind ((Raw.size_does hhandle).mono (fun _ _ => id) ?_) ?_)
  · rintro - ⟨x, rfl⟩
    rwa [isOpen_beside]
  rintro found - ⟨rfl, x, rfl⟩
  rw [hsize, hct, hlay, hdisk, Metadata.dataOffset_layout]
  simp only
  rw [if_neg (by omega)]
  cases hi : m.layout.seqnumOf? n with
  -- the only refusal without a fault: there is no chunk number left for the end
  | none => exact fun _ => ⟨.inr ⟨Fault.Worn.refl _, rfl⟩, (t.isOpen_beside x).trans hopen⟩
  | some i =>
    have hstart := hplace i hi
    have hbefore := Layout.packedBefore?_eq (l := m.layout) (i := i) (by omega)
    rw [Metadata.dataOffset_layout] at hbefore
    refine Op.Does.modify_bind rfl ?_
    simp only [hbefore]
    rw [if_neg (by omega)]
    refine Op.Does.pure ⟨i, x, rfl, ?_⟩
    rw [ht]
    rfl

/-- The sizes in the header of a file that keeps a content go together. -/
theorem loadSizes_does (h : s.Entered g) {ct e : Nat}
    (hkeeps : g.metadata.Keeps (s.disk.contents g.file) ct e c)
    (hfits : g.metadata.Fits c.length) (hprocessor : s.processor = g.processor) {info : HeaderInfo}
    (hinfo : info = ⟨c.length, g.metadata.descriptor.length, ct⟩) :
    (loadSizes info).Does (g.metadata.layout.seqnumOf? c.length = none) s
      (fun _ s' => ∃ i x, g.metadata.layout.seqnumOf? c.length = some i ∧
        s' = Session.beside { s with
          layout := g.metadata.layout, ciphertextSize := ct, size := c.length, eofSeqnum := i } x)
      (fun s' => s'.isOpen = true) := by
  subst hinfo
  have hblock : ¬s.processor.config.streaming = true := by rw [hprocessor, g.kind, g.sealed]; simp
  obtain ⟨p, hp⟩ := h.handle
  refine loadSizes_reads hp ?_ (if_neg hblock) hkeeps.present (hkeeps.end_lt hfits) fun i hi =>
    (hkeeps.toStores.reach hi).rawStart_last_le
  rw [hprocessor]
  exact Metadata.layout_eq g.firstMax g.chunkMax g.kind

/-- **Header and descriptor say how the rest of the file is to be read,** to everybody who has the
master key. -/
theorem loadLayout_reads {h : Handle} (hh : s.handle = some h) {m : Metadata} {x y : Nat}
    {metadataOnly : Bool} {ok : Unit → Session → Prop} (hx : x < offsetLimit) (hy : y < offsetLimit)
    (hheader : (s.disk.contents h.file).slice 0 Header.size = m.header x y)
    (hdescriptor :
      (s.disk.contents h.file).slice Header.size m.descriptor.length = m.descriptor)
    (hpresent : m.dataOffset ≤ (s.disk.contents h.file).length)
    (hmaster : s.processor.master = m.master) (hkind : s.processor.config.streaming = m.streaming)
    (hrest : ∀ z : Surroundings, Op.Does (do
        loadSizes ⟨x, m.descriptor.length, y⟩
        if !metadataOnly then
          let s ← get
          let start := if s.mode.isAppend then s.size else 0
          moveTo start 0
          modify fun s => { s with seekCursor := start }) full
      { s.beside z with processor := m.install s.processor } ok fun s' => s'.isOpen = true) :
    (loadLayout metadataOnly).Does full s ok fun s' => s'.isOpen = true := by
  have hpass {t : Session} (ht : s.PassesBy t) : t.isOpen = true := by
    obtain ⟨x, rfl⟩ := ht
    rw [isOpen_beside]
    exact Option.isSome_iff_exists.mpr ⟨h, hh⟩
  have hdata : Header.size + m.descriptor.length = m.dataOffset := rfl
  unfold loadLayout
  refine Op.Does.bind ((Raw.seek_does hh 0).mono (fun _ _ => id) fun _ => hpass) ?_
  -- every read starts where the one before stopped, so the positions are carried along
  rintro - - ⟨u, hu, rfl⟩
  refine Op.Does.bind ((readExactly_does (handle_beside hh u) (n := Header.size) ?_ _).mono
    (fun _ _ => id) ?_) ?_
  · show u.position + Header.size ≤ (s.disk.contents h.file).length
    omega
  · rw [passesBy_beside]
    exact fun _ => hpass
  rintro header - ⟨hread, v, hv, rfl⟩
  replace hread : header = m.header x y := by
    rw [hread, ← hheader, ← hu]
    rfl
  rw [beside_beside]
  refine Op.Does.get_bind (Op.Does.bind
    (P := fun info t => info = ⟨x, m.descriptor.length, y⟩ ∧ t = s.beside v)
    (Op.Does.ofExcept ?_ ⟨rfl, rfl⟩) ?_)
  · rw [hread]
    exact Metadata.unpackHeader_header hkind hx hy
  -- the header says how long the descriptor is, and that is how much is read next
  rintro info t ⟨hinfo, rfl⟩
  subst hinfo
  refine Op.Does.bind ((readExactly_does (handle_beside hh v) ?_ _).mono (fun _ _ => id) ?_) ?_
  · show v.position + m.descriptor.length ≤ (s.disk.contents h.file).length
    rw [hv]
    show u.position + Header.size + _ ≤ _
    omega
  · rw [passesBy_beside]
    exact fun _ => hpass
  rintro descriptor - ⟨hread', z, -, rfl⟩
  replace hread' : descriptor = m.descriptor := by
    rw [hread']
    show (s.disk.contents h.file).slice v.position _ = _
    rw [hv]
    show (s.disk.contents h.file).slice (u.position + Header.size) _ = _
    rw [hu, Nat.zero_add, hdescriptor]
  rw [beside_beside]
  refine Op.Does.get_bind (Op.Does.bind
    (P := fun processor t => processor = m.install s.processor ∧ t = s.beside z)
    (Op.Does.ofExcept ?_ ⟨rfl, rfl⟩) ?_)
  · rw [hread']
    exact m.opens s.processor hmaster hkind
  rintro processor t ⟨hread, rfl⟩
  subst hread
  exact Op.Does.modify_bind rfl (hrest z)

/-- **Reading in a file that keeps a content:** the container shows that content, at its start or,
where only appending is allowed, at its end. This needs a chunk number for the end. -/
theorem loadLayout_does (h : s.Entered g) (ct e : Nat)
    (hkeeps : g.metadata.Keeps (s.disk.contents g.file) ct e c) (hfits : g.metadata.Fits c.length)
    (hmaster : s.processor.master = g.metadata.master)
    (hkind : s.processor.config.streaming = g.metadata.streaming)
    (hprocessor : g.processor = g.metadata.install s.processor)
    (hseek : g.seekCursor = if g.mode.isAppend then c.length else 0)
    (htrail : g.trail.Fits (s.disk.contents g.file) (g.metadata.dataOffset + ct) c.length c.length
      false) :
    (loadLayout false).Does (g.metadata.layout.seqnumOf? c.length = none) s
      (fun _ s' => s'.Flushed g c ∧ s'.Placed ∧ s'.disk = s.disk ∧
        g.metadata.layout.seqnumOf? c.length ≠ none ∧ s'.Seated) (fun s' => s'.isOpen = true) := by
  obtain ⟨p, hp⟩ := h.handle
  have hpresent := hkeeps.present
  have hend := hkeeps.end_lt hfits
  have hlength := hkeeps.length_le
  refine loadLayout_reads hp (m := g.metadata) (x := c.length) (y := ct) (by omega) (by omega)
    hkeeps.header_eq hkeeps.descriptor (Nat.le_of_add_right_le hpresent) hmaster hkind fun z => ?_
  rw [← hprocessor]
  -- the processor has read the descriptor; the session is otherwise the one that was entered
  have hentered : Entered { s.beside z with processor := g.processor } g :=
    { { (h.beside z).toLocated with } with
      current := h.current, cursor := h.cursor, sizeDirty := h.sizeDirty, tailCut := h.tailCut
      pool := h.pool }
  refine Op.Does.bind (loadSizes_does hentered hkeeps hfits rfl rfl) ?_
  rintro - t ⟨i, w, hi, ht⟩
  have hready : Entered { s.beside z with
      processor := g.processor, layout := g.metadata.layout, seekCursor := g.seekCursor
      ciphertextSize := ct, size := c.length, eofSeqnum := i } g :=
    { { hentered.toLocated with } with
      current := h.current, cursor := h.cursor, sizeDirty := h.sizeDirty, tailCut := h.tailCut
      pool := h.pool }
  -- the position that the caller asks for is still that of the session before opening
  have hshows : t.Shows { g with seekCursor := s.seekCursor } c c := by
    rw [ht]
    exact ((hready.shows ct e hkeeps hi htrail rfl rfl rfl rfl rfl).seek s.seekCursor).beside w
  have hidle : t.Idle := by
    rw [ht]
    exact { (hready.beside w).idle with }
  have hdisk : t.disk = s.disk := by
    rw [ht]
    rfl
  -- the container starts where its mode says, and the first chunk is read there
  have hstart : (if t.mode.isAppend then t.size else 0) = g.seekCursor := by
    rw [hseek, hshows.mode, hshows.size]
  simp only [Bool.not_false, if_true]
  refine Op.Does.get_bind ?_
  simp only [hstart]
  have hstarts : g.seekCursor ≤ c.length := by
    rw [hseek]
    split <;> omega
  refine Op.Does.bind (((moveTo_shows hshows hstarts ?_).mono (fun _ _ => id) ?_).relax
    (Layout.seqnumOf?_eq_none_of_le hstarts)) ?_
  · exact fun happ => by simp [hseek, show g.mode.isAppend = true from happ]
  · rintro s' ⟨-, c', d', h', -⟩
    exact h'.isOpen
  · rintro - u ⟨-, honward, x, d', hx, hnum, hu⟩
    have hquiet := honward.idle hidle
    have hdone := (hu.flushed hquiet).toShows.seek g.seekCursor
    refine Op.Does.modify rfl ⟨{ hdone with clean := hquiet.clean, sized := hquiet.sized },
      hu.placed hx, ?_, ?_, x, hx, ?_⟩
    · exact (honward.quiet hidle).1.trans hdisk
    · simp [hi]
    · exact hu.layout ▸ hnum

end Container

end Vault
