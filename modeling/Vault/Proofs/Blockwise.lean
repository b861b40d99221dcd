import Vault.Proofs.Resting
import Vault.Proofs.Stamping

/-!
# `Vault/Proofs/Blockwise.lean` — a raw file is hashed a block at a time

How many bytes are read at a time when a container is hashed is a matter of its configuration. The
blocks need not go together with those of the hash function or with the chunks, the last one is cut
at the end of the chunk data, and that need not be the end of the file. **None of this shows in the
value: it is that of the bytes in front of the end of the chunk data.** What does show are the
reads. They stand in the trace, one for each block that was begun and no more (`blockReads`), which
says that the loop ends and where.

A buffer for a whole block is asked for before anything is read, however short the file is. **Where
a block is configured that is larger than a buffer can be, hashing breaks off,** and the container
stays open.
-/

set_option autoImplicit false

namespace Vault

/-- The same session, but hashing so many bytes at a time. -/
def Session.inBlocks (s : Session) (block : Nat) : Session :=
  { s with config.maxProcessingSize := block }

/-- The error of a value that is not the right one. -/
def StampKind.mismatch : StampKind → CryptoError
  | .digest => .digestMismatch
  | .mac => .macMismatch

/-- A comparison looks at nothing but the value. -/
theorem StampHasher.Fed.verify {h : StampHasher} {kind : StampKind} {key message : Bytes}
    (hfed : h.Fed kind key message) (expected : Bytes) :
    h.verify expected
      = if expected = kind.value key message then .ok () else .error kind.mismatch := by
  have hmismatch : h.mismatch = kind.mismatch := by
    cases h with
    | digest h =>
      obtain ⟨rfl, -⟩ := hfed
      rfl
    | mac h =>
      obtain ⟨rfl, -⟩ := hfed
      rfl
  rw [StampHasher.verify, hfed.finish, hmismatch]
  simp only [eq_comm]

/-! ## The reads of a loop

What is said of a loop is said of a list that is computed beforehand: the reads, in the order of
the file. `blockReads_cons` takes its first element off as a turn of the loop takes the first
block. -/

/-- The reads that take `left` bytes from a place on, a block at a time. -/
def blockReads (block position left : Nat) : List Event :=
  (List.range ((left + block - 1) / block)).map fun k =>
    .read (position + block * k) (min (left - block * k) block)

section
variable {block position left : Nat}

theorem blockReads_zero (hblock : 0 < block) : blockReads block position 0 = [] := by
  have hnone : (0 + block - 1) / block = 0 := Nat.div_eq_of_lt (by omega)
  rw [blockReads, hnone]
  rfl

/-- A loop begins with its first block. -/
theorem blockReads_cons (hblock : 0 < block) (hleft : 0 < left) :
    blockReads block position left = .read position (min left block)
      :: blockReads block (position + min left block) (left - min left block) := by
  -- either a whole block is taken off and the others are counted anew, or there was no other
  rcases Nat.lt_or_ge block left with hlt | hle
  · have hcount : (left + block - 1) / block = (left - block + block - 1) / block + 1 := by
      rw [← Nat.add_div_right _ hblock]
      congr 1
      omega
    rw [Nat.min_eq_right (Nat.le_of_lt hlt), blockReads, hcount, List.range_succ_eq_map,
      List.map_cons, List.map_map, Nat.mul_zero, Nat.sub_zero, Nat.min_eq_right (Nat.le_of_lt hlt)]
    refine congrArg (_ :: ·) (List.map_congr_left fun k _ => ?_)
    rw [Function.comp_apply, Nat.mul_succ, Nat.add_comm (block * k), Nat.add_assoc, Nat.sub_sub]
  · have hone : (left + block - 1) / block = 1 := Nat.div_eq_of_lt_le (by omega) (by omega)
    rw [Nat.min_eq_left hle, Nat.sub_self, blockReads_zero hblock, blockReads, hone]
    simp [Nat.min_eq_left hle]

end

namespace Container

open Session

variable {s t : Session} {v : Source} {file position : Nat} {writable : Bool} {kind : StampKind}

/-! ## Runs without faults

Without faults each step of a loop has one outcome, and that can be computed. The sessions on the
way differ from the first in the trace and the place of the handle only (`afterReads`), so reads
one after the other are put together as lists. -/

/-- The session after some reads of the raw file, with the handle behind them. -/
def afterReads (s : Session) (reads : List Event) (position : Nat) : Session :=
  s.beside ⟨[], reads.reverse ++ s.trace, s.random, position⟩

theorem afterReads_nil (hfaults : s.faults = []) (hh : s.handle = some { file, position, writable }) :
    afterReads s [] position = s := by
  rw [afterReads, List.reverse_nil, List.nil_append, ← hfaults]
  exact (beside_of_handle hh s.faults s.trace s.random).symm

theorem afterReads_afterReads (reads reads' : List Event) (place place' : Nat) :
    afterReads (afterReads s reads place) reads' place' = afterReads s (reads ++ reads') place' := by
  simp only [afterReads, beside_beside, List.reverse_append, List.append_assoc]
  rfl

/-- Where there are no faults and the bytes are there, they are read. -/
theorem readExactly_run (hfaults : s.faults = [])
    (hh : s.handle = some { file, position, writable }) {n : Nat}
    (hend : position + n ≤ (s.disk.contents file).length) (short : Nat → Error) :
    readExactly n short s = .ok ((s.disk.contents file).slice position n)
      (afterReads s [.read position n] (position + n)) := by
  have hlen : ((s.disk.contents file).slice position n).length = n := by
    rw [Bytes.length_slice]
    omega
  simp [readExactly, Raw.read, Raw.meetFault, Raw.handle, Raw.moveTo, Raw.note, bind, EStateM.bind,
    hfaults, Fault.meet, hh, hlen, afterReads, beside]

/-- Where nothing is left the loop has ended, whatever turns it still has. -/
theorem hashBlocks_run_zero {block : Nat} (turns : Nat) (hasher : StampHasher)
    (hfaults : s.faults = []) (hh : s.handle = some { file, position, writable })
    (hblock : 0 < block) :
    hashBlocks block turns 0 hasher s
      = .ok hasher (afterReads s (blockReads block position 0) (position + 0)) := by
  rw [blockReads_zero hblock, Nat.add_zero, afterReads_nil hfaults hh]
  cases turns with
  | zero => rfl
  | succ turns => rfl

/-- **The loop reads each block that it begins, and then it ends.** The induction is on the turns,
as the loop is; a turn takes the first block of what is left. -/
theorem hashBlocks_run {block turns left : Nat} (hasher : StampHasher) (hfaults : s.faults = [])
    (hh : s.handle = some { file, position, writable }) (hblock : 0 < block) (hturns : left ≤ turns)
    (hend : position + left ≤ (s.disk.contents file).length) :
    ∃ hasher', hashBlocks block turns left hasher s
      = .ok hasher' (afterReads s (blockReads block position left) (position + left)) := by
  induction turns generalizing s position left hasher with
  | zero =>
    obtain rfl : left = 0 := Nat.le_zero.mp hturns
    exact ⟨hasher, hashBlocks_run_zero 0 hasher hfaults hh hblock⟩
  | succ turns ih =>
    rcases Nat.eq_zero_or_pos left with rfl | hleft
    · exact ⟨hasher, hashBlocks_run_zero _ hasher hfaults hh hblock⟩
    -- how much this turn takes: a block, or what is left where that is less
    obtain ⟨len, hlen⟩ : ∃ len, min left block = len := ⟨_, rfl⟩
    have hread := readExactly_run hfaults hh (by omega : position + len ≤ _) fun _ => .readFailed
    have hfree : (afterReads s [.read position len] (position + len)).faults = [] := rfl
    obtain ⟨hasher', hrest⟩ := ih (hasher.update ((s.disk.contents file).slice position len)) hfree
      (handle_beside hh _) (by omega : left - len ≤ turns)
      (by simp only [afterReads, disk_beside]; omega)
    refine ⟨hasher', ?_⟩
    simp only [hashBlocks, Nat.pos_iff_ne_zero.mp hleft, if_false, bind, EStateM.bind, hlen, hread]
    rw [hrest, afterReads_afterReads, blockReads_cons hblock hleft, hlen, Nat.add_assoc,
      Nat.add_sub_cancel' (by omega)]
    rfl

/-- Closing the raw file leaves a line in the trace. -/
theorem close_run (hfaults : s.faults = []) :
    Raw.close s = .ok () { s with handle := none, trace := .closed :: s.trace } := by
  simp [Raw.close, Raw.note, Raw.meetFault, Op.attempt, Op.ofExcept, bind, EStateM.bind, hfaults,
    Fault.meet, Functor.discard, Functor.mapConst, EStateM.map]

theorem shut_run (hfaults : s.faults = []) (hopen : s.isOpen = true) :
    ∃ t, shut false s = .ok () t ∧ t.trace = .closed :: s.trace := by
  have hclose : closeRaw false s
      = .ok () { s with handle := none, trace := .closed :: s.trace } := by
    simp [closeRaw, Op.attempt, Op.ofExcept, bind, EStateM.bind, hopen, close_run hfaults]
  simp only [shut, Op.attempt, bind, EStateM.bind, hclose]
  exact ⟨_, rfl, rfl⟩

/-! ## Whole runs

Opening, hashing and closing put together. That a value is the right one is not computed along;
it is known for every run that answers (`hashFile_ends`), with or without faults. -/

/-- Opening a container leaves its configuration alone. -/
theorem config_launchMetadata (h : launchMetadata .scan s = .ok () t) : t.config = s.config :=
  config_of_setup (((launchMetadata_setup rfl).ends rfl).of_ok h)

/-- The reads of a container that is hashed. -/
theorem hashOpen_run (h : s.Surveys v writable) (hrevealed : v.Revealed) (hcalm : v.calm = true)
    (hblock : s.config.maxProcessingSize ≤ allocationLimit) (kind : StampKind) :
    ∃ hasher, hashOpen kind s = .ok (some hasher)
      (afterReads s (blockReads (max s.config.maxProcessingSize 1) 0 v.eofPos) v.eofPos) := by
  obtain ⟨position, hh⟩ := h.handle
  obtain ⟨-, -, hpresent, -⟩ := hrevealed.present
  obtain ⟨hasher, hhasher, -⟩ := hrevealed.stampHasher kind
  have hfaults := h.faults hcalm
  have hraw : s.disk.contents v.file = v.raw := congrArg (Disk.contents · v.file) h.disk
  have hseek : Raw.seek 0 s = .ok () (afterReads s [] 0) := by
    simp [Raw.seek, Raw.meetFault, Raw.handle, Raw.moveTo, bind, EStateM.bind, hfaults, Fault.meet,
      hh, afterReads, beside, Functor.discard, Functor.mapConst, EStateM.map]
  have hfree : (afterReads s [] 0).faults = [] := rfl
  obtain ⟨hasher', hrun⟩ := hashBlocks_run hasher hfree (handle_beside hh _)
    (by omega : 0 < max s.config.maxProcessingSize 1) (Nat.le_refl v.eofPos)
    (by simp only [afterReads, disk_beside, hraw]; omega)
  refine ⟨hasher', ?_⟩
  -- the buffer is for one byte at least, which always fits
  have hfits : ¬allocationLimit < max s.config.maxProcessingSize 1 := by
    unfold allocationLimit at hblock ⊢
    omega
  simp only [hashOpen, bind, EStateM.bind, Op.get_run, h.processor, hhasher, Op.ofExcept,
    Op.pure_run, if_neg hfits, hseek, h.eofPos, hrun, afterReads_afterReads]
  simp

/-- Where the block is too large nothing is read. -/
theorem hashOpen_run_none (h : s.Surveys v writable) (hrevealed : v.Revealed)
    (hblock : allocationLimit < s.config.maxProcessingSize) (kind : StampKind) :
    hashOpen kind s = .ok none s := by
  obtain ⟨hasher, hhasher, -⟩ := hrevealed.stampHasher kind
  have hlarge : allocationLimit < max s.config.maxProcessingSize 1 :=
    Nat.lt_of_lt_of_le hblock (Nat.le_max_left _ _)
  simp only [hashOpen, bind, EStateM.bind, Op.get_run, h.processor, hhasher, Op.ofExcept,
    Op.pure_run, if_pos hlarge]

/-- A container that reveals something is opened for it, where there are no faults. -/
theorem launchMetadata_run (h : s.Reveals v) (hcalm : v.calm = true) :
    ∃ t, launchMetadata .scan s = .ok () t ∧ t.Surveys v false := by
  have hopens : (launchMetadata .scan).Ends s (fun _ t => t.Surveys v false) fun _ _ => False :=
    (launchMetadata_reveals h rfl).mono (fun _ _ => id) fun _ _ hbad =>
      absurd (hcalm.symm.trans hbad.1) (by simp)
  obtain ⟨⟨⟩, t, hlaunch, ht⟩ := hopens.answers
  exact ⟨t, hlaunch, ht⟩

/-- A closed container is hashed and closed again, in the same way for either kind of value. -/
theorem hashFile_run (h : s.Reveals v) (hcalm : v.calm = true)
    (hblock : s.config.maxProcessingSize ≤ allocationLimit) :
    ∃ t s₁, launchMetadata .scan s = .ok () t ∧ s₁.trace = .closed ::
        ((blockReads (max s.config.maxProcessingSize 1) 0 v.eofPos).reverse ++ t.trace) ∧
      ∀ kind, ∃ hasher, hashFile kind s = .ok hasher s₁ := by
  obtain ⟨t, hlaunch, ht⟩ := launchMetadata_run h hcalm
  let reads := blockReads (max t.config.maxProcessingSize 1) 0 v.eofPos
  obtain ⟨s₁, hshut, htrace⟩ : ∃ s₁, shut false (afterReads t reads v.eofPos) = .ok () s₁ ∧
      s₁.trace = .closed :: (afterReads t reads v.eofPos).trace := by
    refine shut_run rfl ?_
    obtain ⟨position, hh⟩ := ht.handle
    rw [afterReads, isOpen_beside, Container.isOpen, hh]
    rfl
  refine ⟨t, s₁, hlaunch, ?_, fun kind => ?_⟩
  · rw [htrace, ← config_launchMetadata hlaunch]
    rfl
  · have hfits : t.config.maxProcessingSize ≤ allocationLimit :=
      config_launchMetadata hlaunch ▸ hblock
    obtain ⟨hasher, hopen⟩ := hashOpen_run ht h.revealed hcalm hfits kind
    refine ⟨hasher, ?_⟩
    simp only [hashFile, closeMetadata, Op.attempt, Op.ofExcept, bind, EStateM.bind, hlaunch, hopen,
      hshut, Op.pure_run, reads]

/-- **Where the block is too large every run that hashes breaks off,** and leaves the container
opened for it. -/
theorem integrity_breaks (h : s.Reveals v) (hcalm : v.calm = true)
    (hblock : allocationLimit < s.config.maxProcessingSize) :
    ∃ t, launchMetadata .scan s = .ok () t ∧ t.isOpen = true ∧
      ∀ kind, (do return (← hashFile kind).finish : Op Bytes) s = .error .brokenOff t ∧
        ∀ expected, verify kind expected s = .error .brokenOff t := by
  obtain ⟨t, hlaunch, ht⟩ := launchMetadata_run h hcalm
  obtain ⟨position, hh⟩ := ht.handle
  have hlarge : allocationLimit < t.config.maxProcessingSize :=
    config_launchMetadata hlaunch ▸ hblock
  refine ⟨t, hlaunch, by rw [Container.isOpen, hh]; rfl, fun kind => ?_⟩
  have hhash : hashFile kind s = .error .brokenOff t := by
    simp only [hashFile, Op.attempt, bind, EStateM.bind, hlaunch,
      hashOpen_run_none ht h.revealed hlarge kind]
    rfl
  refine ⟨?_, fun expected => ?_⟩
  · simp only [bind, EStateM.bind, hhash]
  · simp only [verify, bind, EStateM.bind, hhash]

/-- Without faults a value is computed, and compared with whatever is expected. -/
theorem integrity_run (h : s.Reveals v) (hcalm : v.calm = true)
    (hblock : s.config.maxProcessingSize ≤ allocationLimit) :
    ∃ t s₁, launchMetadata .scan s = .ok () t ∧ s₁.Reveals v ∧
      s₁.trace = .closed ::
        ((blockReads (max s.config.maxProcessingSize 1) 0 v.eofPos).reverse ++ t.trace) ∧
      ∀ kind, (do return (← hashFile kind).finish : Op Bytes) s = .ok (v.value kind) s₁ ∧
        ∀ expected, verify kind expected s = if expected = v.value kind then .ok () s₁
          else .error (.crypto kind.mismatch) s₁ := by
  obtain ⟨t, s₁, hlaunch, htrace, hruns⟩ := hashFile_run h hcalm hblock
  -- both kinds of value leave the same session, which reveals the same source again
  have hends (kind : StampKind) {hasher : StampHasher} (hrun : hashFile kind s = .ok hasher s₁) :
      s₁.Reveals v ∧ hasher.Fed kind v.macKey v.covered := (hashFile_ends h kind).of_ok hrun
  obtain ⟨_, hdigest⟩ := hruns .digest
  refine ⟨t, s₁, hlaunch, (hends _ hdigest).1, htrace, fun kind => ?_⟩
  obtain ⟨hasher, hrun⟩ := hruns kind
  obtain ⟨-, hfed⟩ := hends kind hrun
  refine ⟨?_, fun expected => ?_⟩
  · simp only [bind, EStateM.bind, hrun, hfed.finish]
    rfl
  have hcompare : hasher.verify expected
      = if expected = v.value kind then .ok () else .error kind.mismatch := hfed.verify expected
  by_cases hright : expected = v.value kind
  · rw [if_pos hright] at hcompare ⊢
    simp only [verify, bind, EStateM.bind, hrun, hcompare]
    rfl
  · rw [if_neg hright] at hcompare ⊢
    simp only [verify, bind, EStateM.bind, hrun, hcompare]
    rfl

/-- What a container reveals does not depend on the blocks. -/
theorem reveals_inBlocks (h : s.Reveals v) (block : Nat) : (s.inBlocks block).Reveals v :=
  ⟨h.closed, h.faults, h.disk, h.path, h.processor, h.revealed⟩

/-- A value that was computed is the right one, and a comparison that passed was with it. -/
theorem integrity_sound (h : s.Reveals v) (kind : StampKind) :
    Op.Ends (do return (← hashFile kind).finish) s (fun value _ => value = v.value kind)
        (fun _ _ => True) ∧
      ∀ expected, (verify kind expected).Ends s (fun _ _ => expected = v.value kind)
        fun _ _ => True := by
  have hhash : (hashFile kind).Ends s (fun hasher _ => hasher.Fed kind v.macKey v.covered)
      fun _ _ => True := (hashFile_ends h kind).mono (fun _ _ => And.right) fun _ _ _ => trivial
  refine ⟨hhash.bind fun hasher u hfed => hfed.finish, fun expected => ?_⟩
  refine hhash.bind fun hasher u hfed => Op.Ends.ofExcept (fun _ hok => ?_) fun _ _ => trivial
  have hright := except_ok_of_mapError hok
  exact (StampHasher.verify_eq_ok_iff.mp hright).symm.trans hfed.finish

end Container

end Vault
