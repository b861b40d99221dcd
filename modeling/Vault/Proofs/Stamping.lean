import Vault.Proofs.Hashing
import Vault.Proofs.Resting
import Vault.Proofs.Surveying

/-!
# `Vault/Proofs/Stamping.lean` — what a stamp says, without faults

A stamp is read, compared and set on a closed container, which is opened as far as its metadata for
each step. Every such step leaves the container closed again and revealing the same. **Without
faults a stamp can always be set,** whatever stands behind the chunk data; it covers what is in
front of that, leaves it as it is, and **a check passes exactly if a stamp with the right value
stands there.**

With faults each step may fail. What it answers is right all the same, and it changes nothing in
front of the stamp.
-/

set_option autoImplicit false

namespace Vault

namespace Source

variable {v : Source} {raw : Bytes}

/-- The key of authentication codes. -/
def macKey (v : Source) : Bytes :=
  match v.processor.keys with
  | some keys => keys.deriver.derive KeyDeriver.macLabel
  | none => []

/-- The integrity value that the container should have. -/
def value (v : Source) (kind : StampKind) : Bytes := kind.value v.macKey v.covered

/-- A value of either kind can be computed. -/
theorem Revealed.stampHasher (h : v.Revealed) (kind : StampKind) :
    ∃ hasher, v.processor.stampHasher kind = .ok hasher ∧ hasher.Fed kind v.macKey [] := by
  obtain ⟨-, -, -, hkeys⟩ := h.present
  cases kind with
  | digest => exact ⟨_, rfl, rfl, Sha256.Hasher.fed_nil⟩
  | mac =>
    obtain ⟨keys, hkeys⟩ := Option.isSome_iff_exists.mp hkeys
    simp only [Processor.stampHasher, Processor.workingKeys, macKey, hkeys]
    exact ⟨_, rfl, rfl, Hmac.Hasher.fed_ofKey _⟩

/-! ## Stamped sources

What stamping should give, as a function of the source: one stamp behind the chunk data, with the
value put into the stamp that was there. A container that was stamped reveals such a source, and
it is its own. -/

/-- The stamp that is there with the right value in a field. If none can be read, a new one. -/
def stamped (v : Source) (kind : StampKind) : Stamp :=
  ((Stamp.ofTail v.trailing).toOption.getD {}).put kind (v.value kind)

/-- The same source with that stamp behind the chunk data. -/
def restamp (v : Source) (kind : StampKind) : Source :=
  v.withRaw (v.covered ++ (v.stamped kind).framed)

/-- A stamp stays valid when the value is put into it. -/
theorem valid_put_value {old : Stamp} (hold : old.Valid) (v : Source) (kind : StampKind) :
    (old.put kind (v.value kind)).Valid := by
  have hlen : (v.value kind).length = Sha256.digestSize := StampKind.length_value _ _ _
  refine hold.put (by rw [hlen]; decide) (fun hnil => ?_) kind
  rw [hnil] at hlen
  exact absurd hlen (by decide)

theorem valid_stamped (v : Source) (kind : StampKind) : (v.stamped kind).Valid := by
  refine valid_put_value ?_ v kind
  cases h : Stamp.ofTail v.trailing with
  | ok s => exact Stamp.valid_of_ofTail h
  | error e => exact Stamp.valid_default

theorem field_stamped (v : Source) (kind : StampKind) :
    (v.stamped kind).field kind = some (v.value kind) := Stamp.field_put_self _ _ _

section
variable (kind : StampKind)

theorem Revealed.raw_restamp (h : v.Revealed) :
    (v.restamp kind).raw = v.covered ++ (v.stamped kind).framed :=
  Disk.contents_setContents h.present.2.1 _

theorem Revealed.covered_restamp (h : v.Revealed) : (v.restamp kind).covered = v.covered := by
  rw [covered, h.raw_restamp]
  exact List.take_left' h.length_covered

theorem Revealed.trailing_restamp (h : v.Revealed) :
    (v.restamp kind).trailing = (v.stamped kind).framed := by
  rw [trailing, h.raw_restamp]
  exact List.drop_left' h.length_covered

theorem Revealed.value_restamp (h : v.Revealed) :
    (v.restamp kind).value kind = v.value kind := by
  rw [value, h.covered_restamp]
  rfl

/-- **Stamping again changes nothing.** -/
theorem Revealed.restamp_restamp (h : v.Revealed) :
    (v.restamp kind).restamp kind = v.restamp kind := by
  -- the stamp that is there now is the one that was put
  have hstamped : (v.restamp kind).stamped kind = v.stamped kind := by
    have hfound : Stamp.ofTail (v.restamp kind).trailing = .ok (v.stamped kind) := by
      rw [h.trailing_restamp]
      exact Stamp.ofTail_eq_ok_iff.mpr (v.valid_stamped kind).standsIn_framed
    rw [stamped, hfound, h.value_restamp]
    exact (v.valid_stamped kind).put_self (v.field_stamped kind)
  rw [Source.restamp, h.covered_restamp, hstamped]
  exact withRaw_withRaw _ _ _

end

end Source

namespace Container

open Session

variable {s t : Session} {v : Source} {mode : Mode} {file : Nat} {position : Nat} {writable : Bool}
  {kind : StampKind}

/-! ## Hashing

Hashing stops at the end of the chunk data, so a stamp does not cover itself. Each block is read
in full or the hash fails; how large the blocks are makes no difference to what was fed. -/

/-- The raw bytes from the place of the handle on are fed in blocks. Each turn takes at least one
byte of what is left, so the turns do not run out. -/
theorem hashBlocks_ends {block turns left : Nat} {kind : StampKind} {key message : Bytes}
    {hasher : StampHasher} (hh : s.handle = some { file, position, writable })
    (hblock : 0 < block) (hturns : left ≤ turns)
    (hend : position + left ≤ (s.disk.contents file).length) (hfed : hasher.Fed kind key message) :
    (hashBlocks block turns left hasher).Ends s
      (fun hasher' t => s.PassesOn t ∧
        hasher'.Fed kind key (message ++ (s.disk.contents file).slice position left))
      (fun _ t => s.faults ≠ [] ∧ s.PassesOn t) := by
  induction turns generalizing s position left message hasher with
  | zero =>
    obtain rfl : left = 0 := Nat.le_zero.mp hturns
    refine ⟨PassesOn.refl s, ?_⟩
    rwa [Bytes.slice, List.take_zero, List.append_nil]
  | succ turns ih =>
    rw [hashBlocks]
    -- each turn takes what is left or a block, and the block is not empty
    split
    · next h =>
      subst h
      refine ⟨PassesOn.refl s, ?_⟩
      rwa [Bytes.slice, List.take_zero, List.append_nil]
    · refine Op.Ends.bind ((readExactly_ends hh (min left block) _).mono (fun _ _ => id) ?_) ?_
      · rintro e t ⟨hstruck | ⟨hshort, -⟩, hpass⟩
        · exact ⟨hstruck, hpass⟩
        · -- a read that comes short without a fault has passed the end of the file
          rw [Bytes.length_slice] at hshort
          simp only at hshort
          omega
      rintro data - ⟨rfl, -, x, hcalm, hx, rfl⟩
      have hfed' := hfed.update ((s.disk.contents file).slice position (min left block))
      simp only at hx
      -- the induction goes on at the new position, with a block less left
      have hpass : s.PassesOn (s.beside x) := ⟨x, hcalm, rfl⟩
      refine (ih (hx ▸ handle_beside hh x) (by omega)
        (by simp only [disk_beside]; omega) hfed').mono ?_ ?_
      · rintro hasher' t ⟨hpass', hdone⟩
        rw [List.append_assoc, disk_beside, Bytes.slice_append_slice,
          Nat.add_sub_cancel' (Nat.min_le_left _ _)] at hdone
        exact ⟨hpass.trans hpass', hdone⟩
      · rintro e t ⟨hstruck, hpass'⟩
        exact ⟨fun hs => hstruck (hcalm hs), hpass.trans hpass'⟩

theorem hashOpen_ends (h : s.Surveys v writable) (hrevealed : v.Revealed) (kind : StampKind) :
    (hashOpen kind).Ends s
      (fun found t => t.Surveys v writable ∧
        ∀ hasher, found = some hasher → hasher.Fed kind v.macKey v.covered)
      (fun _ t => v.calm = false ∧ t.Surveys v writable) := by
  obtain ⟨position, hh⟩ := h.handle
  obtain ⟨-, -, hpresent, -⟩ := hrevealed.present
  obtain ⟨hasher, hhasher, hfed⟩ := hrevealed.stampHasher kind
  unfold hashOpen
  refine Op.Ends.get_bind ?_
  rw [h.processor, hhasher]
  refine Op.Ends.bind (P := fun a t => a = hasher ∧ s = t) ⟨rfl, rfl⟩ ?_
  rintro _ _ ⟨rfl, rfl⟩
  -- no buffer for the block: nothing was read, and there is no hash
  refine Op.Ends.ite (fun _ => ⟨h, nofun⟩) fun _ => ?_
  refine Op.Ends.bind ((Raw.seek_ends hh 0).mono (fun _ _ => id)
    fun _ _ h' => ⟨h.faulty h'.1, h.passesOn h'.2⟩) ?_
  rintro - - ⟨x, hcalm, hx, rfl⟩
  have ht := h.passesOn ⟨x, hcalm, rfl⟩
  have hx' : (s.beside x).handle = some { file := v.file, position := 0, writable } := by
    rw [handle_beside hh, hx]
  have hraw : (s.beside x).disk.contents v.file = v.raw := congrArg (Disk.contents · v.file) h.disk
  -- the turns allowed are as many as there are bytes
  refine Op.Ends.bind ((hashBlocks_ends hx' (by omega) (Nat.le_refl _)
    (by rw [hraw, h.eofPos]; omega) hfed).mono (fun _ _ => id)
      fun _ _ h' => ⟨ht.faulty h'.1, ht.passesOn h'.2⟩) ?_
  rintro hasher' t ⟨hpass, hdone⟩
  rw [List.nil_append, hraw, h.eofPos, Bytes.slice, List.drop_zero] at hdone
  exact ⟨ht.passesOn hpass, fun _ hfound => Option.some.inj hfound ▸ hdone⟩

/-- **The value that is computed is that of the bytes in front of the end of the chunk data.** Only
faults, and blocks that are too large, keep it from being computed. -/
theorem hashFile_ends (h : s.Reveals v) (kind : StampKind) :
    (hashFile kind).Ends s (fun hasher t => t.Reveals v ∧ hasher.Fed kind v.macKey v.covered)
      (fun e t => (v.calm = false ∧ t.Reveals v) ∨ s.Breaks e) := by
  refine Op.Ends.bind (((launchMetadata_setup rfl).ends rfl).and (launchMetadata_reveals h rfl)
    |>.mono (fun _ _ => id) fun _ _ ht => .inl ht.2) ?_
  rintro - t ⟨hsetup, ht⟩
  have hconfig := config_of_setup hsetup
  refine Op.Ends.bind
    ((hashOpen_ends ht h.revealed kind).and (hashOpen_allocates kind t)).attempt ?_
  -- without a buffer, with a digest, or with an error that was reported
  rintro _ u (⟨_ | hasher, rfl, ⟨hu, hfed⟩, hbroken⟩ | ⟨e, rfl, ⟨hcalm, hu⟩, -⟩)
  · exact .inr ⟨rfl, hconfig ▸ hbroken rfl⟩
  · refine (closeMetadata_ok hu h.revealed hasher).mono ?_ fun _ _ => .inl
    rintro _ w ⟨rfl, hw⟩
    exact ⟨hw, hfed _ rfl⟩
  · exact (closeMetadata_error hu h.revealed e).mono (fun _ _ => False.elim)
      fun _ _ hw => .inl ⟨hcalm, hw.2⟩

/-! ## Reading a stamp

`Stamp.ofTail` is the answer when nothing fails, and each of its checks is made by the container
at the same place. Where a fault strikes instead, what is revealed is unchanged. -/

/-- **Reading a stamp comes to what stands behind the chunk data,** unless a fault strikes. -/
theorem readStamp_ends (h : s.Surveys v writable) :
    readStamp.Ends s (fun st t => t.Surveys v writable ∧ Stamp.ofTail v.trailing = .ok st)
      (fun e t => t.Surveys v writable ∧
        (v.calm = false ∨ Stamp.ofTail v.trailing = .error e)) := by
  have hlen : v.trailing.length = v.raw.length - v.eofPos := List.length_drop
  obtain ⟨position, hh⟩ := h.handle
  have hraw : s.disk.contents v.file = v.raw := congrArg (Disk.contents · v.file) h.disk
  unfold readStamp
  refine Op.Ends.get_bind (Op.Ends.bind ((Raw.size_ends hh).mono (fun _ _ => id)
    fun _ _ h' => ⟨h.passesOn h'.2, .inl (h.faulty h'.1)⟩) ?_)
  rintro n t ⟨rfl, hpass⟩
  have ht := h.passesOn hpass
  obtain ⟨position, hh⟩ := ht.handle
  have hraw' : t.disk.contents v.file = v.raw := congrArg (Disk.contents · v.file) ht.disk
  -- what stands behind the chunk data is as long as the file says
  rw [hraw, h.eofPos, ← hlen]
  unfold Stamp.ofTail
  refine Op.Ends.unless (fun habsent => ⟨ht, .inr (if_pos habsent)⟩) fun hframe => ?_
  rw [if_neg hframe]
  refine Op.Ends.bind ((Raw.seek_ends hh v.eofPos).mono (fun _ _ => id)
    fun _ _ h' => ⟨ht.passesOn h'.2, .inl (ht.faulty h'.1)⟩) ?_
  rintro - - ⟨x, hcalm, hx, rfl⟩
  have hx' := ht.passesOn ⟨x, hcalm, rfl⟩
  have hread₁ := readExactly_ends (handle_beside hh x) Stamp.lengthSize
    fun _ => .stampFailed .absent
  simp only [hx, disk_beside, hraw'] at hread₁
  refine Op.Ends.bind (hread₁.mono (fun _ _ => id) ?_) ?_
  · rintro e t ⟨hstruck | ⟨hshort, -⟩, hpass⟩
    · -- the read was struck; otherwise it would have had enough bytes
      exact ⟨hx'.passesOn hpass, .inl (hx'.faulty hstruck)⟩
    · rw [Bytes.length_slice] at hshort
      omega
  rintro _ - ⟨rfl, -, y, hcalm', hy, rfl⟩
  -- the two reads wear down the faults one after the other
  rw [beside_beside]
  have hy' := ht.passesOn ⟨y, fun h' => hcalm' (hcalm h'), rfl⟩
  have htake : v.raw.slice v.eofPos Stamp.lengthSize = v.trailing.take Stamp.lengthSize := rfl
  simp only [htake]
  refine Op.Ends.unless (fun hlength => ⟨hy', .inr (if_pos hlength)⟩) fun hlength => ?_
  rw [if_neg hlength]
  have hread₂ := readExactly_ends (handle_beside hh y)
    (Bytes.toNatLE (v.trailing.take Stamp.lengthSize)) fun _ => .stampFailed .short
  simp only [hy, disk_beside, hraw'] at hread₂
  refine Op.Ends.bind (hread₂.mono (fun _ _ => id) ?_) ?_
  · -- the second read starts where the first one stopped, behind the length
    rintro e t ⟨hstruck | ⟨hshort, -⟩, hpass⟩
    · exact ⟨hy'.passesOn hpass, .inl (hy'.faulty hstruck)⟩
    · rw [Bytes.length_slice] at hshort
      omega
  rintro _ - ⟨rfl, -, z, hcalm'', -, rfl⟩
  rw [beside_beside]
  have hslice (n : Nat) : v.raw.slice (v.eofPos + Stamp.lengthSize) n
      = v.trailing.slice Stamp.lengthSize n := by
    rw [Bytes.slice, Bytes.slice, Source.trailing, List.drop_drop]
  rw [hslice]
  have hz := ht.passesOn ⟨z, fun h' => hcalm'' (hcalm' (hcalm h')), rfl⟩
  exact Op.Ends.ofExcept (fun _ hst => ⟨hz, hst⟩) fun _ he => ⟨hz, .inr he⟩

theorem loadStamp_ends (h : s.Reveals v) :
    loadStamp.Ends s (fun st t => t.Reveals v ∧ Stamp.ofTail v.trailing = .ok st)
      (fun e t => t.Reveals v ∧ (v.calm = false ∨ Stamp.ofTail v.trailing = .error e)) := by
  refine (withMetadata_ends (P := fun st v' => v' = v ∧ Stamp.ofTail v.trailing = .ok st)
    (E := fun e v' => v' = v ∧ (v.calm = false ∨ Stamp.ofTail v.trailing = .error e)) h rfl
    (fun hcalm _ => ⟨rfl, .inl hcalm⟩) (fun t ht => ?_) ?_).mono ?_ ?_
  · exact (readStamp_ends ht).mono (fun _ _ ⟨hu, hst⟩ => ⟨v, hu, h.revealed, rfl, hst⟩)
      fun _ _ ⟨hu, he⟩ => ⟨v, hu, h.revealed, rfl, he⟩
  · rintro _ _ ⟨rfl, -⟩ hcalm _
    exact ⟨rfl, .inl hcalm⟩
  · rintro st t ⟨_, ht, rfl, hst⟩
    exact ⟨ht, hst⟩
  · rintro e t ⟨_, ht, rfl, he⟩
    exact ⟨ht, he⟩

/-! ## Setting a stamp

Three calls change the file: the bytes are written, what follows them is cut off, and the file is
flushed. A fault in any of them leaves everything in front of the stamp. -/

/-- **Writing puts the bytes behind the chunk data, and nothing behind them.** Where a fault keeps
it from that, what is in front of them is still there. -/
theorem writeStamp_ends (h : s.Surveys v true) (hrevealed : v.Revealed) (framed : Bytes) :
    (writeStamp framed).Ends s (fun _ t => t.Surveys (v.withRaw (v.covered ++ framed)) true)
      (fun _ t => v.calm = false ∧ ∃ raw, v.Retained raw ∧ t.Surveys (v.withRaw raw) true) := by
  obtain ⟨position, hh⟩ := h.handle
  obtain ⟨-, hlisted, hpresent, -⟩ := hrevealed.present
  have hraw : s.disk.contents v.file = v.raw := congrArg (Disk.contents · v.file) h.disk
  unfold writeStamp
  refine Op.Ends.get_bind (Op.Ends.bind ((writeAt_ends hh rfl ?long framed).mono
    (fun _ _ => id) ?_) ?_)
  case long =>
    rw [hraw, h.eofPos]
    exact hpresent
  · rintro e t ⟨hstruck, written, hpass⟩
    -- the write was struck: some of the bytes may be there
    simp only [hraw, h.eofPos] at hpass
    exact ⟨h.faulty hstruck, _, hrevealed.retained_overlay written,
      (h.withContents _).passesOn hpass⟩
  rintro - t hpass
  have ht := (h.withContents _).passesOn hpass
  simp only [hraw, h.eofPos] at ht ⊢
  obtain ⟨position, hh⟩ := ht.handle
  have hraw' : t.disk.contents v.file = v.raw.overlay v.eofPos framed := by
    rw [ht.disk]
    exact Disk.contents_setContents hlisted _
  refine Op.Ends.bind ((Raw.truncate_ends hh rfl _ false).mono (fun _ _ => id)
    fun _ _ h' => ⟨ht.faulty h'.1, _, hrevealed.retained_overlay _, ht.passesOn h'.2⟩) ?_
  rintro - u hpass'
  have hu := (ht.withContents _).passesOn hpass'
  rw [show (v.withRaw (v.raw.overlay v.eofPos framed)).file = v.file from rfl, hraw',
    -- cutting behind what was written leaves the covered bytes and the stamp
    Bytes.resize_overlay hpresent, Source.withRaw_withRaw] at hu
  obtain ⟨position, hh⟩ := hu.handle
  refine (Raw.flush_ends hh false).mono (fun _ _ hpass'' => hu.passesOn hpass'') ?_
  rintro e w ⟨hstruck, hpass''⟩
  exact ⟨hu.faulty hstruck, _, hrevealed.retained_append framed, hu.passesOn hpass''⟩

/-- A stamp is put behind what it covers. -/
theorem putStamp_ends (h : s.Reveals v) {st : Stamp} {set : Except RecordError Stamp}
    (hset : set = .ok st) (hst : st.Valid) :
    Op.Ends (do
      let stamp ← Op.ofExcept (set.mapError .record)
      let framed ← Op.ofExcept (stamp.buildFramed.mapError .record)
      withMetadata .writeExisting (writeStamp framed)) s
      (fun _ t => t.Reveals (v.withRaw (v.covered ++ st.framed)))
      (fun _ t => v.calm = false ∧ ∃ raw, v.Retained raw ∧ t.Reveals (v.withRaw raw)) := by
  rw [hset]
  refine Op.Ends.bind (P := fun a t => st = a ∧ s = t) ⟨rfl, rfl⟩ ?_
  rintro _ _ ⟨rfl, rfl⟩
  rw [hst.buildFramed_eq]
  refine Op.Ends.bind (P := fun a t => a = st.framed ∧ s = t) ⟨rfl, rfl⟩ ?_
  rintro _ _ ⟨rfl, rfl⟩
  have hretained := h.revealed.retained_append st.framed
  refine (withMetadata_ends (P := fun _ v' => v' = v.withRaw (v.covered ++ st.framed))
    (E := fun _ v' => v.calm = false ∧ ∃ raw, v.Retained raw ∧ v' = v.withRaw raw) h rfl
    -- the metadata is opened anew for writing, and a fault may already strike there
    (fun hcalm _ => ?_) (fun t ht => ?_) ?_).mono ?_ ?_
  · exact ⟨hcalm, v.raw, h.revealed.retained, v.withRaw_raw.symm⟩
  · refine (writeStamp_ends ht h.revealed st.framed).mono
      (fun _ _ hw => ⟨_, hw, (h.revealed.withRaw hretained).1, rfl⟩) ?_
    rintro _ _ ⟨hcalm, raw, hraw, hw⟩
    exact ⟨_, hw, (h.revealed.withRaw hraw).1, hcalm, raw, hraw, rfl⟩
  · rintro _ _ rfl hcalm _
    exact ⟨hcalm, _, hretained, rfl⟩
  · rintro - t ⟨_, ht, rfl⟩
    exact ht
  · rintro - t ⟨_, ht, hcalm, raw, hraw, rfl⟩
    exact ⟨hcalm, raw, hraw, ht⟩

/-- Can the value of a stamp be computed, and the stamp that is there not be loaded then? -/
def overlooks (kind : StampKind) (s : Session) : Bool :=
  match hashFile kind s with
  | .ok _ t => !loadStamp.succeeds t
  | .error _ _ => false

theorem overlooks_of_hashed {hasher : StampHasher} (h : hashFile kind s = .ok hasher t) :
    overlooks kind s = !loadStamp.succeeds t := by
  simp only [overlooks, h]

/-- **Setting a stamp puts the value into the stamp that was loaded, or else into a new one.** Where
there are no faults, nothing but the absence of a stamp keeps it from being loaded. -/
theorem stamp_ends (h : s.Reveals v) (kind : StampKind) :
    (stamp kind).Ends s
      (fun _ t => ∃ old : Stamp,
        t.Reveals (v.withRaw (v.covered ++ (old.put kind (v.value kind)).framed)) ∧
        (overlooks kind s = false ∧ Stamp.ofTail v.trailing = .ok old ∨
          overlooks kind s = true ∧ old = {} ∧
            (v.calm = false ∨ (Stamp.ofTail v.trailing).toOption = none)))
      (fun e t => (v.calm = false ∧ ∃ raw, v.Retained raw ∧ t.Reveals (v.withRaw raw)) ∨
        s.Breaks e) := by
  have hvalue : (v.value kind).length < 256 := by
    rw [Source.value, StampKind.length_value]
    -- the value is never too long for its field, whatever the kind
    decide
  have hput {old : Stamp} (hold : old.Valid) {u : Session} (hu : u.Reveals v) :=
    putStamp_ends hu (Stamp.set_eq hvalue old kind) (Source.valid_put_value hold v kind)
  unfold stamp
  refine Op.Ends.bind (((hashFile_ends h kind).and (Op.Ends.self _ s)).mono (fun _ _ => id) ?_) ?_
  · rintro e t ⟨⟨hcalm, ht⟩ | hbroken, -⟩
    · exact .inl ⟨hcalm, v.raw, h.revealed.retained, by rwa [v.withRaw_raw]⟩
    · exact .inr hbroken
  rintro hasher t ⟨⟨ht, hfed⟩, hhash⟩
  simp only [hfed.finish]
  -- whether the old stamp was loaded is settled here, and `overlooks` is the name for it
  refine Op.Ends.bind (Op.Ends.attempt ((loadStamp_ends ht).and (Op.Ends.self _ t))) ?_
  rintro found u (⟨old, rfl, ⟨hu, hold⟩, hload⟩ | ⟨e, rfl, ⟨hu, hnone⟩, hload⟩)
  · have hloads : overlooks kind s = false := by
      rw [overlooks_of_hashed hhash, Op.succeeds_of_ok hload]
      rfl
    exact (hput (Stamp.valid_of_ofTail hold) hu).mono
      (fun _ w hw => ⟨old, hw, .inl ⟨hloads, hold⟩⟩) fun _ _ => .inl
  · have hmisses : overlooks kind s = true := by
      rw [overlooks_of_hashed hhash, Op.succeeds_of_error hload]
      rfl
    have hlost := hnone.imp_right fun hnone => show (Stamp.ofTail v.trailing).toOption = none by
      rw [hnone]
      rfl
    -- where it was not, either a fault struck or there was none
    exact (hput Stamp.valid_default hu).mono
      (fun _ w hw => ⟨{}, hw, .inr ⟨hmisses, rfl, hlost⟩⟩) fun _ _ => .inl

/-- **Without faults a stamp can always be set,** if a block can be had. -/
theorem stamp_restamps (h : s.Reveals v) (hcalm : v.calm = true)
    (hblock : s.config.maxProcessingSize ≤ allocationLimit) (kind : StampKind) :
    (stamp kind).Ends s (fun _ t => t.Reveals (v.restamp kind)) (fun _ _ => False) := by
  refine (stamp_ends h kind).mono ?_ ?failed
  case failed =>
    rintro e t (⟨hfaulty, -⟩ | hbroken)
    · exact absurd (hcalm.symm.trans hfaulty) (by simp)
    · exact absurd hbroken.2 (Nat.not_lt.mpr hblock)
  -- without faults both cases put the value into what `Source.stamped` names
  rintro - t ⟨old, ht, hold⟩
  have hfound : (Stamp.ofTail v.trailing).toOption.getD {} = old := by
    rcases hold with ⟨-, hold⟩ | ⟨-, rfl, hfaulty | hnone⟩
    · rw [hold]
      rfl
    · exact absurd (hcalm.symm.trans hfaulty) (by simp)
    · rw [hnone]
      rfl
  rwa [Source.restamp, Source.stamped, hfound]

/-- An expected value is compared with the right one. -/
theorem verify_ends (h : s.Reveals v) (hcalm : v.calm = true)
    (hblock : s.config.maxProcessingSize ≤ allocationLimit) (kind : StampKind) (expected : Bytes) :
    (verify kind expected).Ends s (fun _ _ => expected = v.value kind)
      (fun _ _ => expected ≠ v.value kind) := by
  unfold verify
  refine Op.Ends.bind ((hashFile_ends h kind).mono (fun _ _ => id) ?_) ?_
  · rintro e t (⟨hfaulty, -⟩ | hbroken)
    · exact absurd (hcalm.symm.trans hfaulty) (by simp)
    · exact absurd hbroken.2 (Nat.not_lt.mpr hblock)
  rintro hasher u ⟨-, hfed⟩
  -- comparing two values is comparing their bytes, for both kinds
  have hverify : (hasher.verify expected).mapError Error.crypto = .ok ()
      ↔ expected = v.value kind := by
    rw [Source.value, ← hfed.finish, eq_comm (a := expected), ← StampHasher.verify_eq_ok_iff]
    refine ⟨except_ok_of_mapError, fun hok => ?_⟩
    rw [hok, mapError_ok]
  exact Op.Ends.ofExcept (fun _ hok => hverify.mp hok) fun e he hright =>
    absurd (he.symm.trans (hverify.mpr hright)) (by simp)

/-- A check looks at the field of its kind. -/
theorem checkStamp_eq (kind : StampKind) :
    checkStamp kind = (do
      match (← loadStamp).field kind with
      | none => throw (.stampFailed (.lacks kind))
      | some expected => verify kind expected) := by
  cases kind <;> rfl

/-- **A check passes exactly if the right value is there.** -/
theorem checkStamp_ends (h : s.Reveals v) (hcalm : v.calm = true)
    (hblock : s.config.maxProcessingSize ≤ allocationLimit) (kind : StampKind) :
    (checkStamp kind).Ends s
      (fun _ _ => ∃ st, Stamp.StandsIn st v.trailing ∧ st.field kind = some (v.value kind))
      (fun _ _ => ¬∃ st, Stamp.StandsIn st v.trailing ∧ st.field kind = some (v.value kind)) := by
  simp only [← Stamp.ofTail_eq_ok_iff]
  rw [checkStamp_eq]
  refine Op.Ends.bind (((loadStamp_setup.ends rfl).and (loadStamp_ends h)).mono
    (fun _ _ => id) ?_) ?_
  · rintro e t ⟨-, -, hfaulty | he⟩
    · exact absurd (hcalm.symm.trans hfaulty) (by simp)
    · rintro ⟨st, hst, -⟩
      exact absurd (hst.symm.trans he) (by simp)
  rintro st t ⟨hsetup, ht, hst⟩
  have hconfig := config_of_setup hsetup
  have hwrong (hne : st.field kind ≠ some (v.value kind)) :
      ¬∃ st, Stamp.ofTail v.trailing = .ok st ∧ st.field kind = some (v.value kind) := by
    rintro ⟨st', hst', hright⟩
    obtain rfl := Except.ok.inj (hst.symm.trans hst')
    exact hne hright
  -- a field that is not there is not right either
  cases hfield : st.field kind with
  | none => exact hwrong (by simp [hfield])
  | some expected =>
    refine (verify_ends ht hcalm (hconfig ▸ hblock) kind expected).mono ?_ ?_
    · rintro - - rfl
      exact ⟨st, hst, hfield⟩
    · intro _ _ hne
      exact hwrong (by simpa [hfield] using hne)

/-- A container whose metadata can be read reveals what is found there. -/
theorem launchMetadata_finds (h : launchMetadata mode s = .ok () t)
    (hcreates : mode.createsFile (s.disk.contains s.path) = false) :
    ∃ v, s.Reveals v ∧ (s.faults = [] → v.calm = true) ∧ t.Surveys v mode.isWrite := by
  have hnone : s.faults.isEmpty = true → s.faults = [] := List.isEmpty_iff.mp
  obtain ⟨hclosed, v, hfound, ht⟩ := (launchMetadata_surveys hnone hcreates).of_ok h
  obtain ⟨hplace, hreset, hrevealed⟩ := Source.revealed_of_survey hfound
  have hcalm : v.calm = s.faults.isEmpty := congrArg Place.calm hplace
  exact ⟨v, ⟨hclosed, fun hv => hnone (hcalm ▸ hv), congrArg Place.disk hplace.symm,
    congrArg Place.path hplace.symm, hreset.symm, hrevealed⟩,
    fun hfaults => hcalm.trans (List.isEmpty_iff.mpr hfaults), ht⟩

theorem launchMetadata_eq_ok (hfaults : s.faults = []) (h : launchMetadata mode s = .ok () t)
    (hcreates : mode.createsFile (s.disk.contains s.path) = false) :
    ∃ v, s.Reveals v ∧ v.calm = true ∧ t.Surveys v mode.isWrite := by
  obtain ⟨v, hs, hcalm, ht⟩ := launchMetadata_finds h hcreates
  exact ⟨v, hs, hcalm hfaults, ht⟩

/-- **What stamps mean, without faults.** Let the metadata of a closed container be readable,
whatever stands behind its chunk data, and let a block be no larger than a buffer can be. Then a
digest or an authentication code can be put into the stamp. It covers all bytes in front of the end
of the chunk data and changes none of them, the file ends behind the record with its length in
front, a check passes from then on, the other field is what it was if there was a stamp, and putting
the value there once more changes nothing. And a check passes if and only if a stamp with the right
value stands behind the chunk data. -/
theorem stamps_are_exact (hfaults : s.faults = [])
    (hblock : s.config.maxProcessingSize ≤ allocationLimit)
    (h : launchMetadata .scan s = .ok () t) :
    ∃ file keys, s.disk.find? s.path = some file ∧ t.processor.keys = some keys ∧
      t.eofPos ≤ (s.disk.contents file).length ∧ ∀ kind : StampKind,
        let covered := (s.disk.contents file).take t.eofPos
        let trailing := (s.disk.contents file).drop t.eofPos
        let value := kind.value (keys.deriver.derive KeyDeriver.macLabel) covered
        (∃ s₁, ∃ st : Stamp, stamp kind s = .ok () s₁ ∧ s₁.handle = none ∧
          s₁.disk = s.disk.setContents file (covered ++ st.framed) ∧
          s₁.disk.contents file = covered ++ st.framed ∧
          st.StandsIn st.framed ∧ st.field kind = some value ∧
          (∀ old : Stamp, old.StandsIn trailing → ∀ other, other ≠ kind →
            st.field other = old.field other) ∧
          (∃ s₂, checkStamp kind s₁ = .ok () s₂) ∧
          ∃ s₂, stamp kind s₁ = .ok () s₂ ∧ s₂.handle = none ∧ s₂.disk = s₁.disk) ∧
        ((∃ s₁, checkStamp kind s = .ok () s₁) ↔
          ∃ st : Stamp, st.StandsIn trailing ∧ st.field kind = some value) := by
  obtain ⟨v, hs, hcalm, ht⟩ := launchMetadata_eq_ok hfaults h rfl
  obtain ⟨hfound, hlisted, hpresent, hkeys⟩ := hs.revealed.present
  obtain ⟨keys, hkeys⟩ := Option.isSome_iff_exists.mp hkeys
  refine ⟨v.file, keys, by rw [hs.disk, hs.path, hfound], ht.processor ▸ hkeys, ?_, fun kind => ?_⟩
  · rw [hs.disk, ht.eofPos]
    exact hpresent
  -- the key is derived from the keys that the descriptor gave
  have hvalue : kind.value (keys.deriver.derive KeyDeriver.macLabel) v.covered = v.value kind := by
    simp only [Source.value, Source.macKey, hkeys]
  simp only [hs.disk, ht.eofPos]
  change (∃ s₁, ∃ st : Stamp, stamp kind s = .ok () s₁ ∧ s₁.handle = none ∧
      s₁.disk = v.disk.setContents v.file (v.covered ++ st.framed) ∧
      s₁.disk.contents v.file = v.covered ++ st.framed ∧ st.StandsIn st.framed ∧
      st.field kind = some (kind.value _ v.covered) ∧
      (∀ old : Stamp, old.StandsIn v.trailing → _) ∧ _) ∧
    (_ ↔ ∃ st : Stamp, st.StandsIn v.trailing ∧ st.field kind = some (kind.value _ v.covered))
  rw [hvalue]
  refine ⟨?_, (checkStamp_ends hs hcalm hblock kind).ok_iff⟩
  -- the first stamp is put, and the second one finds it
  obtain ⟨_, s₁, hrun, hs₁⟩ := (stamp_restamps hs hcalm hblock kind).answers
  have hsetup : s₁.setup = s.setup := ((stamp_setup kind).ends rfl).of_ok hrun
  have hconfig := config_of_setup hsetup
  have hblock₁ : s₁.config.maxProcessingSize ≤ allocationLimit := hconfig ▸ hblock
  obtain ⟨_, s₂, hagain, hs₂⟩ := (stamp_restamps hs₁ hcalm hblock₁ kind).answers
  have hstands : (v.stamped kind).StandsIn (v.restamp kind).trailing := by
    rw [hs.revealed.trailing_restamp]
    exact (v.valid_stamped kind).standsIn_framed
  refine ⟨s₁, v.stamped kind, hrun, hs₁.closed, hs₁.disk, ?_,
    (v.valid_stamped kind).standsIn_framed, v.field_stamped kind,
    fun old hold other hother => ?_, ?_, s₂, hagain, hs₂.closed, ?_⟩
  · rw [hs₁.disk]
    exact hs.revealed.raw_restamp kind
  · rw [Source.stamped, Stamp.ofTail_eq_ok_iff.mpr hold]
    exact Stamp.field_put_of_ne hother old _
  · refine (checkStamp_ends hs₁ hcalm hblock₁ kind).ok_iff.mpr ⟨_, hstands, ?_⟩
    rw [hs.revealed.value_restamp]
    exact v.field_stamped kind
  · rw [hs₁.disk, hs₂.disk, hs.revealed.restamp_restamp]

/-- Three bytes are written into a container, which is closed, and behind its chunk data bytes are
put that are no stamp. It can be stamped, and the stamp is right. -/
theorem stamps_are_exact_trailing :
    ∃ s t : Session, s.faults = [] ∧ launchMetadata .scan s = .ok () t ∧
      (s.disk.contents 0).drop t.eofPos = [9, 0, 1] ∧
      ∀ kind, ∃ s₁ s₂, stamp kind s = .ok () s₁ ∧ checkStamp kind s₁ = .ok () s₂ := by
  let closed : Session := close.after (((openIn .write).after (Session.pristine "vault"
    (Processor.ofConfig ⟨[7]⟩ { chunkMax := 2 }) {} (Random.seeded 0))).afterCalls [.write [1, 2, 3]])
  let s : Session := closed.withContents 0 (closed.disk.contents 0 ++ [9, 0, 1])
  obtain ⟨_, hopens⟩ : ∃ a, launchMetadata .scan s = .ok a ((launchMetadata .scan).after s) :=
    Op.ok_of_succeeds (by decide +kernel)
  have hfaults : s.faults = [] := by decide +kernel
  have hblock : s.config.maxProcessingSize ≤ allocationLimit := by decide +kernel
  obtain ⟨_, _, -, -, -, hkinds⟩ := stamps_are_exact hfaults hblock hopens
  refine ⟨s, _, hfaults, hopens, by decide +kernel, fun kind => ?_⟩
  obtain ⟨⟨s₁, _, hstamps, -, -, -, -, -, -, ⟨s₂, hchecks⟩, -⟩, -⟩ := hkinds kind
  exact ⟨s₁, s₂, hstamps, hchecks⟩

end Container

end Vault
