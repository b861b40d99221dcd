import Vault.Proofs.Frames
import Vault.Proofs.Ciphertext
import Vault.Proofs.Sources

/-!
# `Vault/Proofs/Lengthening.lean` — adding at the end, whatever fails

An appending container works on its last chunk and stands at the end of that. What the file has of
the chunk may be anything from nothing to the whole of it, because a call may fail at any moment and
nobody takes back what was counted before. **The cursor is the size all the same, and what is added
comes behind what the chunk held** (`Session.Extends`). Nothing is assumed about the faults, nor
about what is in the file.

Moving on to the next chunk needs the chunk in front of it to be stored as a whole. Sealed chunks
are written before they are left. A streamed chunk that could not be stored is left as it is, and
then the end cannot be moved to (`Session.Stuck`). No other failure is that of a position that
cannot be reached.
-/

set_option autoImplicit false

namespace Vault

/-! ## Positions that cannot be reached

Only looking up where a chunk begins can fail with a position that cannot be reached. Of
everything else that an appending container calls this is said operation by operation, with the
same rules that the frames use. -/

/-- Is the error that of a position that cannot be reached? -/
def Error.isSeek : Error → Bool
  | .invalidSeek _ _ => true
  | _ => false

namespace Draw

variable {α β : Type} {x : Draw α}

/-- No failure of the computation is that of a position that cannot be reached. -/
def Finds (x : Draw α) : Prop := ∀ r e r', x r = .error e r' → e.isSeek = false

theorem Finds.pure (a : α) : (Pure.pure a : Draw α).Finds := by
  intro r e r' h
  exact absurd h (by simp [Pure.pure, EStateM.pure])

theorem Finds.bind {f : α → Draw β} (h : x.Finds) (hf : ∀ a, (f a).Finds) : (x >>= f).Finds := by
  intro r e r' hrun
  simp only [Bind.bind, EStateM.bind] at hrun
  cases hx : x r with
  | ok a t =>
    rw [hx] at hrun
    exact hf a t e r' hrun
  | error e' t =>
    rw [hx] at hrun
    obtain ⟨rfl, -⟩ := (EStateM.Result.error.injEq _ _ _ _).mp hrun
    exact h r e' t hx

theorem Finds.ofExcept {x : Except Error α} (h : ∀ e, x = .error e → e.isSeek = false) :
    (Draw.ofExcept x).Finds := by
  cases x with
  | ok a => exact Finds.pure a
  | error e' =>
    intro r e r' hrun
    obtain ⟨rfl, -⟩ := (EStateM.Result.error.injEq _ _ _ _).mp hrun
    exact h e' rfl

theorem bytes_finds (n : Nat) : (Draw.bytes n).Finds := by
  intro r e r' hrun
  have hdrawn : EStateM.Result.ok _ _ = EStateM.Result.error e r' := hrun
  exact absurd hdrawn (by simp)

end Draw

namespace Op

variable {α β : Type} {x : Op α} {I : Session → Prop} {P : α → Prop} {s : Session}

/-- No failure of the run, wherever it starts, is that of a position that cannot be reached. -/
def Finds (x : Op α) : Prop :=
  ∀ s, x.Ends s (fun _ _ => True) fun e _ => e.isSeek = false

theorem Finds.pure (a : α) : (Pure.pure a : Op α).Finds := fun _ => trivial

theorem Finds.throw {e : Error} (h : e.isSeek = false) : (throw e : Op α).Finds := fun _ => h

theorem Finds.bind {f : α → Op β} (h : x.Finds) (hf : ∀ a, (f a).Finds) : (x >>= f).Finds :=
  fun s => Ends.bind (h s) fun a s' _ => hf a s'

theorem Finds.get_bind {f : Session → Op β} (h : ∀ s, (f s).Finds) :
    ((get : Op Session) >>= f).Finds := fun s => h s s

theorem Finds.modify_bind {g : Session → Session} {f : PUnit → Op β} (h : (f ()).Finds) :
    ((modify g : Op PUnit) >>= f).Finds := fun s => h (g s)

theorem Finds.ite {c : Prop} [Decidable c] {y : Op α} (hx : x.Finds) (hy : y.Finds) :
    (if c then x else y).Finds := fun s => Ends.ite (fun _ => hx s) fun _ => hy s

theorem Finds.unless {c : Prop} [Decidable c] {e : Error} {f : α → Op β} {y : Op β}
    (he : e.isSeek = false) (hy : y.Finds) :
    (if c then MonadExcept.throw e >>= f else y).Finds :=
  fun s => Ends.unless (fun _ => he) fun _ => hy s

theorem Finds.discard (h : x.Finds) : (Functor.discard x).Finds := fun s => (h s).discard

theorem Finds.ofExcept {x : Except Error α} (h : ∀ e, x = .error e → e.isSeek = false) :
    (Op.ofExcept x).Finds :=
  fun _ => Ends.ofExcept (fun _ _ => trivial) h

theorem Finds.ofDraw {x : Draw α} (h : x.Finds) : (Op.ofDraw x).Finds := by
  intro s
  unfold Ends Op.ofDraw
  cases hx : x s.random with
  | ok a random => trivial
  | error e random => exact h _ _ _ hx

/-- What is kept, said with what no failure is. -/
theorem Keeps.finding (h : x.Keeps I P s) (hx : x.Finds) (hs : I s) :
    x.Ends s (fun a t => P a ∧ I t) fun e t => e.isSeek = false ∧ I t := by
  refine Ends.mono (Ends.and (show x.Ends s (fun a t => P a ∧ I t) fun _ t => I t from h hs) (hx s))
    (fun _ _ h => h.1) fun _ _ h => ⟨h.2, h.1⟩

end Op

namespace Processor

variable (p : Processor) {e : Error}

theorem workingKeys_finds (h : p.workingKeys = .error e) : e.isSeek = false := by
  unfold workingKeys at h
  split at h
  · exact absurd h (by simp)
  · obtain rfl := Except.error.inj h
    rfl

theorem streamKey_finds (h : p.streamKey = .error e) : e.isSeek = false := by
  unfold streamKey at h
  split at h
  · next hkeys =>
    obtain rfl := Except.error.inj h
    exact p.workingKeys_finds hkeys
  · split at h
    · exact absurd h (by simp)
    · obtain rfl := Except.error.inj h
      rfl

theorem crypto_finds {α : Type} {x : Except CryptoError α} (h : x.mapError .crypto = .error e) :
    e.isSeek = false := by
  cases x with
  | ok a => exact absurd h (by simp)
  | error cause =>
    obtain rfl := Except.error.inj h
    rfl

theorem packChunk_finds (plain : Bytes) (seqnum : Nat) : (p.packChunk plain seqnum).Finds := by
  unfold packChunk
  split
  · exact Draw.Finds.pure _
  · refine Draw.Finds.bind (Draw.Finds.ofExcept fun e => p.workingKeys_finds) fun keys => ?_
    exact Draw.Finds.bind (Draw.bytes_finds _) fun _ => Draw.Finds.pure _

/-- The packed form of a chunk is longer than the chunk, or there is none. -/
theorem length_of_packChunk {p : Processor} {plain data : Bytes} {seqnum : Nat} {r r' : Random}
    (h : p.packChunk plain seqnum r = .ok data r') :
    data.length = if p.config.streaming then 0 else plain.length + ChunkCipher.overhead := by
  unfold packChunk at h
  split at h
  · next hkind =>
    obtain ⟨rfl, -⟩ := (EStateM.Result.ok.injEq _ _ _ _).mp h
    rw [if_pos hkind]
    rfl
  · next hkind =>
    simp only [bind, EStateM.bind] at h
    cases hkeys : p.workingKeys with
    | error e =>
      rw [hkeys] at h
      have hfailed : EStateM.Result.error _ _ = EStateM.Result.ok data r' := h
      exact absurd hfailed (by simp)
    | ok keys =>
      rw [hkeys] at h
      obtain ⟨rfl, -⟩ := (EStateM.Result.ok.injEq _ _ _ _).mp h
      have hnonce : (r.draw Gcm.nonceSize).1.length = Gcm.nonceSize := r.length_draw _
      rw [if_neg hkind]
      exact ChunkCipher.length_pack _ _ _ _ hnonce

theorem startStream_finds (seqnum : Nat) : (p.startStream seqnum).Finds := by
  refine Draw.Finds.bind (Draw.bytes_finds _) fun nonce => ?_
  refine Draw.Finds.bind (Draw.Finds.ofExcept fun e => p.streamKey_finds) fun key => ?_
  exact Draw.Finds.bind (Draw.Finds.ofExcept fun e => crypto_finds) fun _ => Draw.Finds.pure _

theorem resumeStream_finds {lead : Bytes} {seqnum offset : Nat}
    (h : p.resumeStream lead seqnum offset = .error e) : e.isSeek = false := by
  unfold resumeStream at h
  cases hkey : p.streamKey with
  | error e' =>
    rw [hkey] at h
    obtain rfl := Except.error.inj h
    exact p.streamKey_finds hkey
  | ok key =>
    rw [hkey] at h
    -- each step fails with an error of its own, so the cases are which step failed
    cases hstart : (StreamEncryptor.start key lead seqnum).mapError Error.crypto with
    | error e' =>
      have h : ((StreamEncryptor.start key lead seqnum).mapError Error.crypto >>= _) = .error e := h
      rw [hstart] at h
      obtain rfl := Except.error.inj h
      exact crypto_finds hstart
    | ok stream =>
      have h : ((StreamEncryptor.start key lead seqnum).mapError Error.crypto >>= _) = .error e := h
      rw [hstart] at h
      exact absurd h (by simp [bind, Except.bind, pure, Except.pure])

theorem encryptStream_finds {data : Bytes} (h : p.encryptStream data = .error e) :
    e.isSeek = false := by
  unfold encryptStream at h
  split at h
  · obtain rfl := Except.error.inj h
    rfl
  · exact absurd h (by simp)

end Processor

namespace Raw

theorem meetFault_finds (call : RawCall) : (meetFault call).Finds := by
  unfold meetFault
  refine Op.Finds.get_bind fun s => Op.Finds.modify_bind ?_
  split
  · exact Op.Finds.pure _
  · exact Op.Finds.pure _
  · exact Op.Finds.throw (by split <;> rfl)
  · exact Op.Finds.throw rfl

theorem handle_finds : handle.Finds := by
  unfold handle
  refine Op.Finds.get_bind fun s => ?_
  split
  · exact Op.Finds.pure _
  · exact Op.Finds.throw rfl

theorem seek_finds (position : Nat) : (seek position).Finds :=
  Op.Finds.bind (meetFault_finds _).discard fun _ => Op.Finds.bind handle_finds fun _ _ => trivial

theorem read_finds (n : Nat) : (read n).Finds :=
  Op.Finds.bind (meetFault_finds _) fun _ => Op.Finds.bind handle_finds fun _ _ => trivial

theorem size_finds : size.Finds :=
  Op.Finds.bind (meetFault_finds _).discard fun _ => Op.Finds.bind handle_finds fun _ _ => trivial

theorem write_finds (data : Bytes) : (write data).Finds := by
  unfold write
  refine Op.Finds.bind (meetFault_finds _) fun _ => Op.Finds.bind handle_finds fun _ => ?_
  refine Op.Finds.ite (Op.Finds.unless rfl ?_) ?_
  · exact fun _ => trivial
  · exact fun _ => trivial

theorem truncate_finds (size : Nat) (durable : Bool) : (truncate size durable).Finds := by
  unfold truncate
  refine Op.Finds.modify_bind (Op.Finds.bind (meetFault_finds _).discard fun _ => ?_)
  exact Op.Finds.bind handle_finds fun _ => Op.Finds.unless rfl fun _ => trivial

end Raw

namespace Container

theorem packChunk_finds (x : Chunk) : (packChunk x).Finds :=
  Op.Finds.modify_bind (Op.Finds.get_bind fun s =>
    Op.Finds.ofDraw (s.processor.packChunk_finds x.content x.seqnum))

theorem cutTail_finds (rawEnd : Nat) : (cutTail rawEnd).Finds := by
  unfold cutTail
  refine Op.Finds.get_bind fun _ => Op.Finds.ite ?_ (Op.Finds.pure _)
  refine Op.Finds.bind Raw.size_finds fun _ => Op.Finds.ite ?_ fun _ => trivial
  exact Op.Finds.bind (Raw.truncate_finds _ _) fun _ _ => trivial

theorem writeAt_finds (offset : Nat) (data : Bytes) : (writeAt offset data).Finds := by
  refine Op.Finds.bind (Raw.seek_finds _) fun _ => Op.Finds.bind (Raw.write_finds _) fun _ => ?_
  exact Op.Finds.ite (Op.Finds.throw rfl) (Op.Finds.pure _)

theorem prepareStream_finds (x : Chunk) (raw : Nat) : (prepareStream x raw).Finds := by
  unfold prepareStream
  refine Op.Finds.get_bind fun s => Op.Finds.ite ?_ (Op.Finds.ite ?_ (Op.Finds.pure _))
  · refine Op.Finds.modify_bind (Op.Finds.bind (Op.Finds.ofDraw ?_) fun _ _ => trivial)
    exact s.processor.startStream_finds x.seqnum
  · refine Op.Finds.bind (Raw.seek_finds _) fun _ => Op.Finds.bind ?_ fun _ => ?_
    · exact Op.Finds.bind (Raw.read_finds _) fun _ => Op.Finds.unless rfl (Op.Finds.pure _)
    · refine Op.Finds.modify_bind (Op.Finds.bind (Op.Finds.ofExcept fun e h => ?_) ?_)
      · exact s.processor.resumeStream_finds h
      · exact fun _ _ => trivial

/-- Where a chunk begins is said by the layout, and only there the chunk data may end too early. -/
theorem rawPosOf_ends {I : Session → Prop} {s : Session} (hI : Ambient I) (hs : I s) (i : Nat) :
    (rawPosOf i).Ends s
      (fun raw t => raw = t.layout.rawStartOf i ∧ t.layout.rawStartOf i ≤ t.eofPos ∧ I t)
      fun e t => (e.isSeek = true → t.eofPos < t.layout.rawStartOf i) ∧ I t := by
  have hJ : Ambient fun t => I t ∧ t.eofPos = s.eofPos := hI.and
    { faults := fun _ h => h, handle := fun _ h => h, noted := fun _ h => h }
  unfold rawPosOf
  refine Op.Ends.get_bind (Op.Ends.bind
    (((Raw.size_keeps hJ).finding Raw.size_finds ⟨hs, rfl⟩).mono (fun _ _ => id) ?_) ?_)
  · rintro e t ⟨he, ht, -⟩
    exact ⟨fun hseek => absurd (hseek.symm.trans he) (by simp), ht⟩
  rintro found t ⟨-, ht, heof⟩
  refine Op.Ends.unless (fun _ => ⟨fun hseek => absurd hseek (by simp [Error.isSeek]), ht⟩) ?_
  refine fun _ => Op.Ends.get_bind ?_
  refine Op.Ends.unless (fun hlt => ⟨fun _ => heof ▸ hlt, ht⟩) fun hge => ?_
  exact ⟨rfl, heof ▸ Nat.le_of_not_lt hge, ht⟩

end Container

/-! ## The end of a container that is added to

The invariant of an appending container. `n` is the size that was counted, whatever the file has
of it; `pos` is the position that the next call asks for. -/

/-- The chunk stands at its end, which is that of the content, and lies at the end of the chunk
data. The file has no more of it than there is. -/
structure Chunk.Tops (x : Chunk) (streaming : Bool) (l : Layout) (size eofPos : Nat) : Prop where
  offset : x.offset = x.content.length
  maxSize : x.maxSize = l.capacity x.seqnum
  size : size = l.startOf x.seqnum + x.content.length
  eofPos : eofPos = l.rawStartOf x.seqnum + x.ciphertextSize
  /-- A sealed chunk that is clean is stored as a whole. -/
  sealed : streaming = false → x.ciphertextSize ≤ x.content.length + ChunkCipher.overhead ∧
    (x.dirty = false → x.content ≠ [] →
      x.ciphertextSize = x.content.length + ChunkCipher.overhead)
  /-- A streamed chunk knows how much of it is stored. -/
  streamed : streaming = true → x.streamed ≤ x.content.length ∧
    (x.ciphertextSize = 0 ∧ x.streamed = 0 ∨ x.ciphertextSize = Salsa20.nonceSize + x.streamed)

namespace Session

/-- An open container in an appending mode, with a current chunk or none. It stands at the end of
the content, which has `n` bytes, while the position asked for may be another one. -/
structure Extends (l : Layout) (streaming : Bool) (x? : Option Chunk) (n pos : Nat) (s : Session) :
    Prop where
  isOpen : s.isOpen = true
  kind : s.processor.config.streaming = streaming
  appending : s.mode.isAppend = true
  useCache : s.useCache = false
  pool : s.pool.entries = []
  layout : s.layout = l
  plan : l = s.processor.layout l.dataOffset
  seekCursor : s.seekCursor = pos
  le : pos ≤ n
  size : s.size = n
  cursor : s.cursor = n
  current : s.current = x?
  ends : l.EndsIn s.eofSeqnum n
  tops : ∀ x, x? = some x →
    x.seqnum = s.eofSeqnum ∧ x.Tops streaming l n s.eofPos
  /-- Without a current chunk, the last chunk is full and the next one is still to come. -/
  absent : x? = none → n = l.startOf (s.eofSeqnum + 1) ∧
    0 < l.capacity s.eofSeqnum ∧ s.eofPos ≤ l.rawStartOf (s.eofSeqnum + 1) ∧
    (streaming = false → s.eofPos = l.rawStartOf (s.eofSeqnum + 1))

/-- What the current chunk holds. -/
def tail (s : Session) : Bytes := (s.current.map (·.content)).getD []

/-- The chunk in front of the end could not be stored as a whole and was left. -/
def Stuck (s : Session) : Prop :=
  s.processor.config.streaming = true ∧ s.current = none ∧
    s.eofPos < s.layout.rawStartOf (s.eofSeqnum + 1)

variable {s t : Session} {l : Layout} {b : Bool} {x? : Option Chunk} {x : Chunk} {n pos i : Nat}

theorem ambient_extends (l : Layout) (b : Bool) (x? : Option Chunk) (n pos : Nat) :
    Ambient (Extends l b x? n pos) where
  faults _ h := { h with }
  handle _ h := { h with isOpen := rfl }
  noted _ h := { h with }

namespace Extends

theorem packs (h : s.Extends l b x? n pos) : l.Packs s.processor.overhead := by
  rw [h.plan]
  exact s.processor.packs_layout _

theorem maxPlainSize (h : s.Extends l b x? n pos) (i : Nat) :
    s.processor.maxPlainSize i = l.capacity i := by
  rw [h.plan, Processor.capacity_layout]

/-- Whether a write may go there is another matter. -/
theorem seek (h : s.Extends l b x? n pos) : Extends l b x? n n { s with seekCursor := n } :=
  { h with seekCursor := rfl, le := Nat.le_refl n }

theorem withStream (h : s.Extends l b x? n pos) (stream : Option StreamEncryptor) :
    Extends l b x? n pos { s with processor := { s.processor with stream } } :=
  { h with }

theorem overhead (h : s.Extends l b x? n pos) :
    s.processor.overhead = if b then Salsa20.nonceSize else ChunkCipher.overhead := by
  rw [Processor.overhead, h.kind]

theorem tail_eq (h : s.Extends l b (some x) n pos) : s.tail = x.content := by
  rw [tail, h.current]
  rfl

/-- The file has no more of a chunk than its packed form. -/
theorem ciphertextSize_le (h : s.Extends l b (some x) n pos) :
    x.ciphertextSize ≤ x.content.length + s.processor.overhead := by
  have htops := (h.tops x rfl).2
  rw [h.overhead]
  cases b with
  | false => exact (htops.sealed rfl).1
  | true =>
    have hstreamed := htops.streamed rfl
    rw [if_pos rfl]
    omega

/-- Where the current chunk does not hold the end, it is full and the next one begins there. -/
theorem next (h : s.Extends l b (some x) n pos) (hi : l.seqnumOf? n = some i)
    (hother : x.seqnum ≠ i) :
    i = x.seqnum + 1 ∧ l.startOf i = n ∧ 0 < l.capacity x.seqnum ∧
      x.content.length = l.capacity x.seqnum := by
  obtain ⟨hlast, htops⟩ := h.tops x rfl
  obtain rfl | ⟨rfl, hstart⟩ := h.ends.next hi
  · exact absurd hlast hother
  · -- a chunk number exists behind the last chunk only if that chunk is bounded
    have hcap := (Layout.seqnumOf?_eq_some_iff.mp hi).1 s.eofSeqnum (Nat.lt_succ_self _)
    have hsize := htops.size
    rw [Layout.startOf_succ] at hstart
    rw [hlast] at hsize ⊢
    exact ⟨rfl, by rw [Layout.startOf_succ]; exact hstart, hcap, by omega⟩

/-- A chunk that is full and clean can be left. -/
theorem leave (h : s.Extends l b (some x) n pos) (hclean : x.dirty = false)
    (hi : l.seqnumOf? n = some i) (hother : x.seqnum ≠ i) :
    Extends l b none n pos { s with current := none } := by
  obtain ⟨rfl, hstart, hcap, hfull⟩ := h.next hi hother
  obtain ⟨hlast, htops⟩ := h.tops x rfl
  have hnext := Layout.rawStartOf_succ h.packs hcap
  have hle := h.ciphertextSize_le
  have heof := htops.eofPos
  -- a streamed chunk may be left with some of it missing, a sealed one may not
  have hwhole (hkind : b = false) : s.eofPos = l.rawStartOf (x.seqnum + 1) := by
    have hne : x.content ≠ [] := List.length_pos_iff.mp (hfull ▸ hcap)
    have hct := (htops.sealed hkind).2 hclean hne
    have hoverhead := h.overhead
    rw [hkind, if_neg (by simp)] at hoverhead
    omega
  have hbehind : s.eofPos ≤ l.rawStartOf (x.seqnum + 1) := by omega
  rw [hlast] at hstart hcap hwhole hbehind
  exact { h with
    current := rfl, tops := by simp, absent := fun _ => ⟨hstart.symm, hcap, hbehind, hwhole⟩ }

/-- Without a current chunk, the end lies in the next one. -/
theorem eq_succ (h : s.Extends l b none n pos) (hi : l.seqnumOf? n = some i) :
    i = s.eofSeqnum + 1 ∧ l.startOf i = n := by
  obtain rfl | hnext := h.ends.next hi
  · have hlt := (Layout.seqnumOf?_eq_some_iff.mp hi).2.2.1
    have hstart := (h.absent rfl).1
    have hcap := (h.absent rfl).2.1
    rw [Layout.startOf_succ] at hstart
    omega
  · exact hnext

/-- The next chunk is come to where the one in front of it is stored as a whole. -/
theorem arrive (h : s.Extends l b none n pos) (hi : l.seqnumOf? n = some i)
    (heof : l.rawStartOf i ≤ s.eofPos) :
    Extends l b (some (Chunk.new i (l.capacity i))) n pos { s with
      current := some (Chunk.new i (l.capacity i))
      cursor := n
      eofSeqnum := max s.eofSeqnum i } := by
  obtain ⟨-, -, hle, -⟩ := h.absent rfl
  have hends := Layout.EndsIn.of_seqnumOf? hi
  obtain ⟨rfl, hnext⟩ := h.eq_succ hi
  rw [Nat.max_eq_right (Nat.le_succ _)]
  refine { h with current := rfl, cursor := rfl, ends := hends, absent := by simp, tops := ?_ }
  rintro _ ⟨⟩
  -- the end of the chunk data is squeezed between its two bounds, so the new chunk is empty there
  -- too
  refine ⟨rfl, rfl, rfl, hnext.symm, Nat.le_antisymm hle heof, ?_, ?_⟩
  · exact fun _ => ⟨Nat.zero_le _, fun _ hne => absurd rfl hne⟩
  · exact fun _ => ⟨Nat.le_refl 0, .inl ⟨rfl, rfl⟩⟩

/-- A chunk that was written takes its packed form in the file. -/
theorem stored (h : s.Extends l false (some x) n pos) {packed ct : Nat}
    (hpacked : packed = x.content.length + ChunkCipher.overhead)
    (hct : ct + x.ciphertextSize = s.ciphertextSize + packed) (sizeDirty : Bool) :
    Extends l false (some { x with ciphertextSize := packed, dirty := false }) n pos { s with
      ciphertextSize := ct
      sizeDirty
      current := some { x with ciphertextSize := packed, dirty := false } } := by
  obtain ⟨hlast, htops⟩ := h.tops x rfl
  have heof := htops.eofPos
  -- what the file has is counted anew, and only the share of this chunk changed
  rw [Container.eofPos, h.layout] at heof
  refine { h with current := rfl, absent := by simp, tops := ?_ }
  rintro _ ⟨⟩
  refine ⟨hlast, { htops with eofPos := ?_, sealed := fun _ => ?_, streamed := by simp }⟩
  · show s.layout.dataOffset + ct = l.rawStartOf x.seqnum + packed
    rw [h.layout]
    omega
  · exact ⟨Nat.le_of_eq hpacked, fun _ _ => hpacked⟩

end Extends

end Session

namespace Container

open Session

variable {s : Session} {l : Layout} {b : Bool} {x? : Option Chunk} {x : Chunk} {n pos i : Nat}

/-! ## Writing the last chunk

A failure on the way leaves the chunk dirty and the counts as they were. That is enough for what
is said here, even if the device took some of the bytes. -/

theorem packChunk_extends (h : s.Extends l b x? n pos) (x : Chunk) :
    (packChunk x).Ends s
      (fun data t => data.length = (if b then 0 else x.content.length + ChunkCipher.overhead) ∧
        t.Extends l b x? n pos)
      fun e t => e.isSeek = false ∧ t.Extends l b x? n pos := by
  refine Op.Keeps.finding ?_ (packChunk_finds x) h
  unfold packChunk
  refine Op.Keeps.bind (Raw.note_keeps (ambient_extends l b x? n pos) rfl) fun _ t _ => ?_
  refine Op.Keeps.get_bind fun ht => Op.Keeps.ofDraw (fun random h => { h with }) ?_
  intro data random hdata
  rw [← ht.kind]
  exact Processor.length_of_packChunk hdata

theorem cutTail_extends (rawEnd : Nat) :
    (cutTail rawEnd).Keeps (Extends l b x? n pos) (fun _ => True) s := by
  refine cutTail_keeps (fun _ h => { h with }) (ambient_extends l b x? n pos) (fun h => { h with })
    (fun h => { h with }) rawEnd

theorem writeAt_extends (offset : Nat) (data : Bytes) :
    (writeAt offset data).Keeps (Extends l b x? n pos) (fun _ => True) s := by
  refine writeAt_keeps (fun _ h => { h with }) (fun _ h => { h with }) (fun h => { h with })
    (ambient_extends l b x? n pos) offset data

/-- The current chunk can be written where it lies. -/
theorem rawPosOf_extends (h : s.Extends l b (some x) n pos) :
    (rawPosOf x.seqnum).Ends s (fun _ t => t.Extends l b (some x) n pos)
      fun e t => e.isSeek = false ∧ t.Extends l b (some x) n pos := by
  have hI := ambient_extends l b (some x) n pos
  refine (rawPosOf_ends hI h x.seqnum).mono (fun _ _ h => h.2.2) ?_
  rintro e t ⟨hseek, ht⟩
  -- such an error would put the chunk behind the end of the chunk data, where it does not lie
  refine ⟨Bool.eq_false_iff.mpr fun hbad => ?_, ht⟩
  have heof := (ht.tops x rfl).2.eofPos
  have hlt := hseek hbad
  rw [ht.layout] at hlt
  omega

/-- **A chunk that is written is clean and has the packed form in the file,** unless nothing was to
be written. -/
theorem flushChunk_extends (h : s.Extends l b (some x) n pos) :
    (flushChunk x).Ends s
      (fun y t => y.seqnum = x.seqnum ∧ y.content = x.content ∧ y.dirty = false ∧
        Extends l b (some y) n pos { t with current := some y })
      fun e t => e.isSeek = false ∧ t.Extends l b (some x) n pos := by
  unfold flushChunk
  refine Op.Ends.bind (packChunk_extends h x) ?_
  rintro data t ⟨hlen, ht⟩
  refine Op.Ends.ite (fun hnil => ?_) fun hdata => ?_
  · -- only a streamed chunk packs to nothing: it went to the file when it was written to
    obtain rfl : b = true := by
      cases b with
      | false =>
        have hpos : 0 < ChunkCipher.overhead := by decide
        simp only [hnil, List.length_nil, Bool.false_eq_true, if_false] at hlen
        omega
      | true => rfl
    obtain ⟨hlast, htops⟩ := ht.tops x rfl
    refine ⟨rfl, rfl, rfl, { ht with current := rfl, absent := by simp, tops := ?_ }⟩
    rintro _ ⟨⟩
    exact ⟨hlast, { htops with sealed := by simp }⟩
  obtain rfl : b = false := by
    cases b with
    | false => rfl
    | true => exact absurd (List.eq_nil_of_length_eq_zero hlen) hdata
  -- from here on the chunk is sealed, and every call that can fail comes before the counts change
  refine Op.Ends.bind (rawPosOf_extends ht) fun raw u hu => ?_
  refine Op.Ends.bind ((cutTail_extends _).finding (cutTail_finds _) hu) ?_
  rintro - v ⟨-, hv⟩
  refine Op.Ends.bind ((writeAt_extends _ _).finding (writeAt_finds _ _) hv) ?_
  rintro - w ⟨-, hw⟩
  have heof := (hw.tops x rfl).2.eofPos
  have hstart := l.dataOffset_le_rawStartOf x.seqnum
  rw [Container.eofPos, hw.layout] at heof
  have hct : w.ciphertextSize - x.ciphertextSize + data.length + x.ciphertextSize
      = w.ciphertextSize + data.length := by omega
  refine Op.Ends.ite (fun _ => ?_) fun hsame => ?_
  · exact ⟨rfl, rfl, rfl, hw.stored hlen hct true⟩
  · exact ⟨rfl, rfl, rfl, hw.stored hlen (by omega) w.sizeDirty⟩

/-- Writing the current chunk leaves it where it is. -/
theorem flushActive_extends (h : s.Extends l b (some x) n pos) :
    flushActive.Ends s
      (fun _ t => ∃ y, y.seqnum = x.seqnum ∧ y.content = x.content ∧ y.dirty = false ∧
        t.Extends l b (some y) n pos)
      fun e t => e.isSeek = false ∧ t.Extends l b (some x) n pos := by
  unfold flushActive active
  refine Op.Ends.bind (P := fun y t => y = x ∧ t = s) ?_ ?_
  · refine Op.Ends.get_bind ?_
    rw [h.current]
    exact ⟨rfl, rfl⟩
  rintro _ _ ⟨rfl, rfl⟩
  refine Op.Ends.bind (flushChunk_extends h) ?_
  rintro y t ⟨hnum, hcontent, hclean, ht⟩
  exact ⟨y, hnum, hcontent, hclean, ht⟩

/-- The current chunk is the last one, so that it is clean afterwards. -/
theorem flushLast_extends (h : s.Extends l b (some x) n pos) :
    flushLast.Ends s
      (fun _ t => ∃ y, y.seqnum = x.seqnum ∧ y.content = x.content ∧ y.dirty = false ∧
        t.Extends l b (some y) n pos)
      fun e t => e.isSeek = false ∧ t.Extends l b (some x) n pos := by
  unfold flushLast
  refine Op.Ends.get_bind ?_
  simp only [h.current]
  refine Op.Ends.ite (fun _ => flushActive_extends h) fun hclean => ?_
  exact ⟨x, rfl, rfl, by simpa [(h.tops x rfl).1] using hclean, h⟩

/-! ## Moving to the end

There are three ways: the current chunk holds the end, or it is full and has to be left, or no
chunk is current. The last two end in the same arrival. -/

/-- The chunk behind a full one is empty. -/
theorem loadChunk_extends (h : s.Extends l b none n pos) (hi : l.seqnumOf? n = some i)
    (offset overwrite : Nat) :
    (loadChunk i offset overwrite).Ends s
      (fun y t => y = Chunk.new i (l.capacity i) ∧ l.rawStartOf i ≤ t.eofPos ∧
        t.Extends l b none n pos)
      fun e t => (e.isSeek = true → t.Stuck) ∧ t.Extends l b none n pos := by
  unfold loadChunk
  refine Op.Ends.get_bind (Op.Ends.bind
    ((rawPosOf_ends (ambient_extends l b none n pos) h i).mono (fun _ _ => id) ?_) ?_)
  · rintro e t ⟨hseek, ht⟩
    refine ⟨fun hbad => ?_, ht⟩
    have hlt := hseek hbad
    -- without a current chunk the one in front of `i` is the last one, and it is the one that is
    -- short
    rw [(ht.eq_succ hi).1] at hlt
    refine ⟨ht.kind.trans ?_, ht.current, hlt⟩
    cases b with
    | false =>
      rw [ht.layout] at hlt
      exact absurd ((ht.absent rfl).2.2.2 rfl) (Nat.ne_of_lt hlt)
    | true => rfl
  rintro raw t ⟨rfl, hle, ht⟩
  rw [ht.layout] at hle
  have heof : t.eofPos = l.rawStartOf i := by
    refine Nat.le_antisymm ?_ hle
    rw [(ht.eq_succ hi).1]
    exact (ht.absent rfl).2.2.1
  rw [h.maxPlainSize, ht.layout]
  refine Op.Ends.get_bind ?_
  -- nothing of the chunk is in the file, so nothing is read
  rw [if_pos (by rw [heof, Nat.sub_self, Nat.min_zero])]
  exact ⟨rfl, hle, ht⟩

/-- Chunks are not kept, so the next one comes from the file. It is empty, and no data at all are
the end of any. -/
theorem arrive_extends (h : s.Extends l b none n pos) (hi : l.seqnumOf? n = some i)
    (overwrite : Nat) (kept : Bytes) :
    Op.Ends (do
      let chunk ← match ← takePooled i with
        | some chunk => pure chunk
        | none => loadChunk i 0 overwrite
      modify fun s => { s with
        current := some { chunk with offset := 0 }
        cursor := n
        eofSeqnum := max s.eofSeqnum i }) s
      (fun _ t => ∃ y, t.Extends l b (some y) n pos ∧ y.content <:+ kept)
      fun e t => (e.isSeek = true → t.Stuck) ∧ ∃ y?, t.Extends l b y? n pos ∧ t.tail <:+ kept := by
  refine Op.Ends.bind (P := fun found t => found = none ∧ t = s) ?_ ?_
  · -- an appending container keeps no chunks
    unfold takePooled
    refine Op.Ends.get_bind ?_
    rw [h.useCache]
    exact ⟨rfl, rfl⟩
  rintro _ _ ⟨rfl, rfl⟩
  refine Op.Ends.bind ((loadChunk_extends h hi 0 overwrite).mono (fun _ _ => id) ?_) ?_
  · rintro e t ⟨hseek, ht⟩
    refine ⟨hseek, none, ht, ?_⟩
    rw [tail, ht.current]
    exact List.nil_suffix
  rintro _ t ⟨rfl, hle, ht⟩
  exact ⟨_, ht.arrive hi hle, List.nil_suffix⟩

/-- **A container that is added to moves to its end,** unless it is stuck or a call fails. -/
theorem moveTo_extends (h : s.Extends l b x? n pos) (overwrite : Nat) :
    (moveTo n overwrite).Ends s
      (fun _ t => ∃ y, t.Extends l b (some y) n pos ∧ y.content <:+ s.tail)
      fun e t => (e.isSeek = true → t.Stuck) ∧
        ∃ y?, t.Extends l b y? n pos ∧ t.tail <:+ s.tail := by
  -- errors that are not of this kind leave the container free to go on
  have hcalm {e : Error} {P : Prop} (he : e.isSeek = false) (hbad : e.isSeek = true) : P :=
    absurd (hbad.symm.trans he) (by simp)
  unfold moveTo
  refine Op.Ends.bind (P := fun _ t => t = s) ?_ ?_
  · unfold ensureOpen
    refine Op.Ends.get_bind ?_
    rw [h.isOpen]
    exact rfl
  rintro _ s rfl
  refine Op.Ends.get_bind ?_
  rw [h.appending, h.size, h.layout, if_neg (by simp)]
  split
  · exact ⟨hcalm rfl, x?, h, List.suffix_refl _⟩
  rename_i i offset hplace
  obtain ⟨hi, hoffset⟩ := Layout.locate?_eq_some_iff.mp hplace
  cases x? with
  -- the chunk in front was left by a call that failed later
  | none =>
    obtain ⟨rfl, hstart⟩ := h.eq_succ hi
    obtain rfl : offset = 0 := by omega
    rw [if_neg (by simp [h.current])]
    refine Op.Ends.bind (P := fun _ t => t = s) ?_ ?_
    · unfold flushLast
      refine Op.Ends.get_bind ?_
      rw [h.current]
      exact rfl
    rintro _ s rfl
    refine Op.Ends.get_bind (Op.Ends.modify_bind ?_)
    have hgone : Extends l b none n pos { s with current := none } := { h with current := rfl }
    simp only [h.current]
    exact arrive_extends hgone hi overwrite s.tail
  | some x =>
    -- the current chunk holds the end, and nothing moves
    by_cases hnum : x.seqnum = i
    · rw [if_pos (by simpa [h.current] using hnum)]
      have hsize := (h.tops x rfl).2.size
      have htop := (h.tops x rfl).2.offset
      have hsame : { x with offset := offset } = x := by
        rw [show offset = x.offset by rw [hnum] at hsize; omega]
      refine ⟨x, ?_, h.tail_eq ▸ List.suffix_refl _⟩
      refine { h with current := ?_, cursor := rfl }
      show s.current.map _ = _
      rw [h.current, Option.map_some, hsame]
    rw [if_neg (by simpa [h.current] using hnum)]
    obtain ⟨hnext, hstart, -, -⟩ := h.next hi hnum
    obtain rfl : offset = 0 := by omega
    refine Op.Ends.bind ((flushLast_extends h).mono (fun _ _ => id) ?_) ?_
    · rintro e t ⟨he, ht⟩
      have hsame : t.tail = s.tail := ht.tail_eq.trans h.tail_eq.symm
      exact ⟨hcalm he, some x, ht, hsame ▸ List.suffix_refl _⟩
    -- the chunk is clean now, so leaving it loses nothing
    rintro _ t ⟨y, hnum', hcontent, hclean, ht⟩
    refine Op.Ends.get_bind (Op.Ends.modify_bind ?_)
    simp only [ht.current]
    have hleft := ht.leave hclean hi (hnum' ▸ hnum)
    refine Op.Ends.bind (P := fun _ u => u = { t with current := none }) ?_ ?_
    · unfold retire
      refine Op.Ends.get_bind ?_
      rw [hleft.useCache, if_neg (by simp), if_neg (by simp [hclean])]
      exact rfl
    rintro _ _ rfl
    exact arrive_extends hleft hi overwrite s.tail

end Container

end Vault
