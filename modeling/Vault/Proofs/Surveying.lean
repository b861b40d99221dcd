import Vault.Proofs.BrowsingOpening
import Vault.Proofs.Calls
import Vault.Proofs.Launching
import Vault.Proofs.StampRecords

/-!
# `Vault/Proofs/Surveying.lean` — closed containers whose metadata can be read

Some things are done to a closed container, which is opened as far as its metadata for that and
closed again. `Session.Reveals` says of a closed container what would be found there, and
`Session.Surveys` of one that was opened that it was found. **What is done with the metadata leaves
the container closed again, revealing what was left there, whether or not faults struck**
(`withMetadata_ends`). Only where there are no faults can nothing fail on the way.
-/

set_option autoImplicit false

namespace Vault

/-! ## Closed containers whose metadata can be read

A `Source` is what a scan finds: the file, its layout and sizes, the keys. Being found again is
the property that is kept here, first when the bytes behind the chunk data change, then when
faults come and go. -/

/-- What is found does not depend on what the processor read before. -/
theorem Place.survey_reset (w : Place) (mode : Mode) (p : Processor) :
    w.survey mode p.reset = w.survey mode p := rfl

/-- What is measured in one place is measured in another one, if the chunk data are there. -/
theorem Place.measure_elsewhere {w : Place} {mode : Mode} {file : Nat} {info : HeaderInfo}
    {processor : Processor} {v : Source} (h : w.measure mode file info processor = .ok v)
    {w' : Place}
    (hpresent : v.ciphertextSize ≤ (w'.disk.contents file).length - v.layout.dataOffset) :
    w'.measure mode file info processor = .ok { v with toPlace := w' } := by
  obtain ⟨-, hmode, hfile, hprocessor, hlayout, hct, hsize, -, hlast, needed, hle, hneeded⟩ :=
    Place.measure_eq_ok h
  rw [← hct] at hsize
  unfold Place.measure Place.fit
  simp only [← hlayout, ← hct, ← hsize, hlast, hneeded]
  rw [if_neg (Nat.not_lt.mpr hpresent), if_neg (Nat.not_lt.mpr hle), ← hmode, ← hfile, ← hprocessor]

/-- A descriptor that can be read leads to keys. -/
theorem Processor.keys_of_unpackDescriptor {p p' : Processor} {data : Bytes}
    (h : p.unpackDescriptor data = .ok p') : p'.keys.isSome = true := by
  obtain ⟨_, -, h₁⟩ := except_ok_of_bind h
  obtain ⟨_, -, h₂⟩ := except_ok_of_bind h₁
  obtain ⟨_, -, h₃⟩ := except_ok_of_bind h₂
  obtain ⟨-, h₄⟩ := except_ok_of_unless h₃
  obtain ⟨_, -, h₅⟩ := except_ok_of_bind h₄
  cases h₅
  rfl

namespace Source

variable {v : Source} {raw : Bytes}

/-- The source is what is found at its own place. -/
def Revealed (v : Source) : Prop := v.toPlace.survey .scan v.processor.reset = .ok v

/-- The bytes that a stamp covers. -/
def covered (v : Source) : Bytes := v.raw.take v.eofPos

/-- What stands behind the chunk data. -/
def trailing (v : Source) : Bytes := v.raw.drop v.eofPos

/-- The same source with other bytes in its raw file. -/
def withRaw (v : Source) (raw : Bytes) : Source :=
  { v with disk := v.disk.setContents v.file raw }

/-- Bytes that are no different in front of the end of the chunk data. -/
structure Retained (v : Source) (raw : Bytes) : Prop where
  covered : raw.take v.eofPos = v.covered
  long : v.eofPos ≤ raw.length

/-- What is found is found again, by the processor that found it. -/
theorem revealed_of_survey {w : Place} {p : Processor} (h : w.survey .scan p = .ok v) :
    v.toPlace = w ∧ v.processor.reset = p.reset ∧ v.Revealed := by
  cases hfile : w.disk.find? w.path with
  | none =>
    rw [Place.survey, hfile] at h
    exact absurd h (by simp)
  -- reading the metadata and measuring them against the file are two answers, one after the other
  | some file =>
    have hsurvey := h
    rw [Place.survey_eq_bind .scan p hfile] at hsurvey
    obtain ⟨⟨info, processor⟩, hread, hmeasure⟩ := except_ok_of_bind hsurvey
    obtain ⟨hplace, -, -, hprocessor, -⟩ := Place.measure_eq_ok hmeasure
    obtain ⟨-, -, -, hdescriptor⟩ := Place.readMetadata_eq_ok hread
    have hreset : v.processor.reset = p.reset := by
      rw [hprocessor]
      exact Processor.reset_of_unpackDescriptor hdescriptor
    refine ⟨hplace, hreset, ?_⟩
    rw [Revealed, hplace, hreset, Place.survey_reset]
    exact h

theorem withRaw_withRaw (v : Source) (raw raw' : Bytes) :
    (v.withRaw raw).withRaw raw' = v.withRaw raw' := by
  simp [withRaw, Disk.setContents, List.set_set]

theorem withRaw_raw (v : Source) : v.withRaw v.raw = v :=
  congrArg (fun disk => { v with disk }) (Disk.setContents_contents v.disk v.file)

/-- The file is there, and what its metadata say was measured against it. -/
theorem Revealed.measured (h : v.Revealed) :
    v.disk.find? v.path = some v.file ∧
      ∃ info, v.processor.reset.readMetadata v.raw = .ok (info, v.processor) ∧
        v.toPlace.measure .scan v.file info v.processor = .ok v := by
  unfold Revealed at h
  cases hfound : v.disk.find? v.path with
  | none => simp [Place.survey, hfound] at h
  | some file =>
    rw [Place.survey_eq_bind (w := v.toPlace) .scan v.processor.reset hfound] at h
    obtain ⟨⟨info, processor⟩, hread, hmeasure⟩ := except_ok_of_bind h
    obtain ⟨-, -, rfl, rfl, -⟩ := Place.measure_eq_ok hmeasure
    exact ⟨rfl, info, hread, hmeasure⟩

/-- What was read from metadata goes with the file. -/
theorem Revealed.present (h : v.Revealed) :
    v.disk.find? v.path = some v.file ∧ v.file < v.disk.files.length ∧
      v.eofPos ≤ v.raw.length ∧ v.processor.keys.isSome = true := by
  obtain ⟨hfile, info, hread, hmeasure⟩ := h.measured
  obtain ⟨-, -, -, -, hlayout, hct, -, hfound, -⟩ := Place.measure_eq_ok hmeasure
  obtain ⟨hlong, -, -, hdescriptor⟩ := Place.readMetadata_eq_ok hread
  have hdata : v.layout.dataOffset = Header.size + info.descriptorSize := by
    rw [hlayout]
    rfl
  have hsize : Header.size = 22 := rfl
  refine ⟨hfile, ?_, by rw [Source.eofPos]; omega,
    Processor.keys_of_unpackDescriptor hdescriptor⟩
  -- a file that is not listed has no bytes, and then no header either
  refine Nat.lt_of_not_le fun hout => ?_
  have hnone : v.raw = [] := by simp [Source.raw, Disk.contents, hout]
  rw [hnone, List.length_nil] at hlong
  omega

theorem Revealed.length_covered (h : v.Revealed) : v.covered.length = v.eofPos := by
  rw [covered, List.length_take]
  exact Nat.min_eq_left h.present.2.2.1

theorem Revealed.retained (h : v.Revealed) : v.Retained v.raw := ⟨rfl, h.present.2.2.1⟩

theorem Revealed.retained_append (h : v.Revealed) (tail : Bytes) :
    v.Retained (v.covered ++ tail) where
  covered := List.take_left' h.length_covered
  long := by
    rw [List.length_append, h.length_covered]
    exact Nat.le_add_right _ _

theorem Revealed.retained_overlay (h : v.Revealed) (written : Bytes) :
    v.Retained (v.raw.overlay v.eofPos written) where
  covered := Bytes.take_overlay (Nat.le_refl _) h.present.2.2.1
  long := by
    rw [Bytes.length_overlay]
    omega

/-- **Opening does not look behind the chunk data.** -/
theorem Revealed.withRaw (h : v.Revealed) (hraw : v.Retained raw) :
    (v.withRaw raw).Revealed ∧ (v.withRaw raw).raw = raw := by
  obtain ⟨hcovers, hlong⟩ := hraw
  obtain ⟨hfound, hlisted, hpresent, -⟩ := h.present
  have hraw : (v.withRaw raw).raw = raw := Disk.contents_setContents hlisted raw
  refine ⟨?_, hraw⟩
  -- whatever is read of the metadata lies in front of the end of the chunk data
  have hslice {a n : Nat} (han : a + n ≤ v.eofPos) : raw.slice a n = v.raw.slice a n := by
    rw [← Bytes.slice_take han, hcovers, covered, Bytes.slice_take han]
  obtain ⟨-, info, hread, hmeasure⟩ := h.measured
  obtain ⟨-, -, -, -, hlayout, -⟩ := Place.measure_eq_ok hmeasure
  obtain ⟨-, -, hheader, hdescriptor⟩ := Place.readMetadata_eq_ok hread
  have hdata : v.layout.dataOffset = Header.size + info.descriptorSize := by
    rw [hlayout]
    rfl
  have hend : v.eofPos = v.layout.dataOffset + v.ciphertextSize := rfl
  have hread' : v.processor.reset.readMetadata raw = .ok (info, v.processor) := by
    rw [← hslice (by omega)] at hheader
    rw [← hslice (by omega)] at hdescriptor
    unfold Processor.readMetadata
    simp only [hheader, hdescriptor, Bytes.length_slice]
    rw [if_neg (by omega), if_neg (by omega)]
  have hfound' : (v.withRaw raw).disk.find? (v.withRaw raw).path = some v.file := hfound
  unfold Revealed
  rw [Place.survey_eq_bind .scan (v.withRaw raw).processor.reset hfound']
  show (v.processor.reset.readMetadata (v.withRaw raw).raw).bind _ = _
  rw [hraw, hread']
  -- the chunk data is still there, so the sizes are still right
  refine Place.measure_elsewhere hmeasure ?_
  show v.ciphertextSize ≤ (v.withRaw raw).raw.length - v.layout.dataOffset
  rw [hraw]
  omega

/-- Whether there are faults does not matter for what is found. -/
theorem Revealed.recalm (h : v.Revealed) (calm : Bool) : Revealed { v with calm } := by
  obtain ⟨hfound, info, hread, hmeasure⟩ := h.measured
  obtain ⟨-, -, -, -, -, -, -, hpresent, -⟩ := Place.measure_eq_ok hmeasure
  unfold Revealed
  rw [Place.survey_eq_bind (w := { v.toPlace with calm }) .scan v.processor.reset hfound]
  show (v.processor.reset.readMetadata v.raw).bind _ = _
  rw [hread]
  exact Place.measure_elsewhere hmeasure hpresent

end Source

namespace Session

variable {s t : Session} {v : Source} {writable : Bool}

/-- Nothing is open, and without faults the metadata of the raw file can be read. -/
structure Reveals (s : Session) (v : Source) : Prop where
  closed : s.handle = none
  faults : v.calm = true → s.faults = []
  disk : s.disk = v.disk
  path : s.path = v.path
  processor : s.processor.reset = v.processor.reset
  revealed : v.Revealed

/-- The metadata were read, and nothing else. -/
structure Surveys (s : Session) (v : Source) (writable : Bool) : Prop where
  handle : ∃ position, s.handle = some { file := v.file, position, writable }
  faults : v.calm = true → s.faults = []
  disk : s.disk = v.disk
  path : s.path = v.path
  processor : s.processor = v.processor
  layout : s.layout = v.layout
  ciphertextSize : s.ciphertextSize = v.ciphertextSize

theorem Surveys.eofPos (h : s.Surveys v writable) : s.eofPos = v.eofPos := by
  rw [Container.eofPos, h.layout, h.ciphertextSize, Source.eofPos]

theorem Surveys.passesOn (h : s.Surveys v writable) (hpass : s.PassesOn t) :
    t.Surveys v writable := by
  obtain ⟨y, hcalm, rfl⟩ := hpass
  obtain ⟨position, hh⟩ := h.handle
  exact { h with
    handle := ⟨y.position, handle_beside hh y⟩
    faults := fun hv => hcalm (h.faults hv) }

/-- Where a fault struck there are faults. -/
theorem Surveys.faulty (h : s.Surveys v writable) (hfaulty : s.faults ≠ []) : v.calm = false :=
  Bool.eq_false_iff.mpr fun hv => hfaulty (h.faults hv)

/-- Other bytes were put into the raw file. -/
theorem Surveys.withContents (h : s.Surveys v writable) (raw : Bytes) :
    (s.withContents v.file raw).Surveys (v.withRaw raw) writable where
  handle := h.handle
  faults := h.faults
  disk := congrArg (·.setContents v.file raw) h.disk
  path := h.path
  processor := h.processor
  layout := h.layout
  ciphertextSize := h.ciphertextSize

end Session

/-! ## Reading the metadata

`Place.survey` is what the container computes, with no container around it. Where nothing fails
the two agree step by step; otherwise `calm` says that a fault was there to blame. -/

namespace Container

open Session

variable {s t : Session} {v : Source} {mode : Mode} {file : Nat} {position : Nat}
  {writable calm : Bool}

/-- Where a session looks for its raw file, and whether it finds faults there. -/
def place (s : Session) (calm : Bool) : Place := ⟨s.disk, s.path, calm⟩

/-- The sizes are taken over if they go together. -/
theorem loadSizes_surveys (hh : s.handle = some { file, position, writable })
    (hfaults : calm = true → s.faults = []) {info : HeaderInfo}
    (hdescriptor : info.descriptorSize < 0x10000) (hct : info.ciphertextSize < offsetLimit) :
    (loadSizes info).Ends s
      (fun _ t => ∃ v, (place s calm).measure .scan file info s.processor = .ok v ∧
        t.Surveys v writable)
      (fun e _ => calm = false ∨
        (place s calm).measure .scan file info s.processor = .error e) := by
  refine (loadSizes_measures (w := place s calm) hh rfl .scan hdescriptor hct).ends.mono ?_ ?_
  · rintro - - ⟨v, -, hmeasure, ⟨x, hcalm, rfl⟩, rfl⟩
    obtain ⟨hplace, -, rfl, hprocessor, -⟩ := Place.measure_eq_ok hmeasure
    refine ⟨v, hmeasure,
      -- the faults that are left are some of those that there were
      { handle := ⟨_, handle_beside hh x⟩, faults := fun hv => hcalm (hfaults ?_)
        disk := congrArg Place.disk hplace.symm, path := congrArg Place.path hplace.symm
        processor := hprocessor.symm, layout := rfl, ciphertextSize := rfl }⟩
    exact (congrArg Place.calm hplace).symm.trans hv
  · rintro e - ⟨hstruck | he, -⟩
    · exact .inl (Bool.eq_false_iff.mpr fun hc => hstruck (hfaults hc))
    · exact .inr he

/-- What a container finds out about a raw file that it has open. Unless only the metadata are
wanted, it goes on from there. -/
theorem loadLayout_surveys (hh : s.handle = some { file, position, writable })
    (hfaults : calm = true → s.faults = []) (hfound : s.disk.find? s.path = some file)
    (metadataOnly : Bool) :
    (loadLayout metadataOnly).Ends s
      (fun _ t => ∃ v, (place s calm).survey .scan s.processor = .ok v ∧
        (metadataOnly = true → t.Surveys v writable))
      (fun e _ => metadataOnly = true →
        calm = false ∨ (place s calm).survey .scan s.processor = .error e) := by
  have hsurvey : (place s calm).survey .scan s.processor
      = (s.processor.readMetadata (s.disk.contents file)).bind
          fun found => (place s calm).measure .scan file found.1 found.2 :=
    Place.survey_eq_bind .scan s.processor hfound
  unfold loadLayout
  -- either header and descriptor were read, or one of them is what the survey refuses
  refine readMetadata_ends hh (fun info processor t hread hdescriptor hct hpass => ?_)
    fun e t hwhy _ _ => ?_
  · rw [hread] at hsurvey
    obtain ⟨x, hcalm, rfl⟩ := hpass
    refine Op.Ends.modify_bind (Op.Ends.bind ((loadSizes_surveys
      (s := { s.beside x with processor }) (handle_beside hh x) (fun hc => hcalm (hfaults hc))
      hdescriptor hct).mono (fun _ _ => id) fun _ _ he _ => he.imp id hsurvey.trans) ?_)
    rintro - t ⟨v, hmeasure, hv⟩
    cases metadataOnly with
    | true => exact ⟨v, hsurvey.trans hmeasure, fun _ => hv⟩
    | false =>
      exact (Op.Ends.any _ t).mono (fun _ _ _ => ⟨v, hsurvey.trans hmeasure, nofun⟩)
        fun _ _ _ => nofun
  · rcases hwhy with hstruck | he
    · exact .inl (Bool.eq_false_iff.mpr fun hc => hstruck (hfaults hc))
    · rw [he] at hsurvey
      exact .inr hsurvey

/-- What does not go away when a container is opened and closed. -/
def Lasting (s t : Session) : Prop :=
  t.disk = s.disk ∧ t.path = s.path ∧ t.processor.reset = s.processor.reset

/-- **Opening a container that is there comes to what is found there.** -/
theorem launch_surveys (hclosed : s.handle = none) (hfaults : calm = true → s.faults = [])
    (hcreates : mode.createsFile (s.disk.contains s.path) = false) (metadataOnly : Bool) :
    (launch mode metadataOnly).Ends s
      (fun _ t => ∃ v, (place s calm).survey .scan s.processor = .ok v ∧
        (metadataOnly = true → t.Surveys v mode.isWrite))
      (fun _ _ => metadataOnly = true → calm = false ∨
        ∀ v, (place s calm).survey .scan s.processor ≠ .ok v) := by
  unfold launch
  refine Op.Ends.get_bind (Op.Ends.get_bind (Op.Ends.modify_bind ?_))
  refine Op.Ends.bind ((Raw.openAs_ends hcreates ?closed).mono
    (fun _ _ => id) fun _ _ hmissing _ => ?_) ?_
  case closed => exact hclosed
  · -- the raw file could not be opened: a fault struck, or there is none
    refine hmissing.1.imp (fun hstruck => Bool.eq_false_iff.mpr fun hc => hstruck (hfaults hc))
      fun hmissing v hv => ?_
    have hnone : (place s calm).disk.find? (place s calm).path = none := hmissing.1
    rw [Place.survey, hnone] at hv
    exact absurd hv (by simp)
  rintro - - ⟨file, faults, trace, hfound, hcalm, rfl⟩
  simp only [hcreates, Bool.false_eq_true, if_false]
  have hload {t : Session} (hh : t.handle = some { file, position := 0, writable := mode.isWrite })
      (hfaults : calm = true → t.faults = []) := loadLayout_surveys hh hfaults
  refine Op.Ends.bind (Op.Ends.attempt (hload rfl ?faults ?found metadataOnly)) ?_
  case faults => exact fun hc => hcalm (hfaults hc)
  case found => exact hfound
  rintro - t (⟨-, rfl, hsurveys⟩ | ⟨e, rfl, hrefused⟩)
  · exact hsurveys
  · -- what was refused is told after the container was closed, whatever comes of that
    refine Op.Ends.bind (P := fun _ _ => True) ?_ fun _ _ _ hmetadata => ?_
    · exact Op.Ends.discard ((Op.Ends.attempt (Op.Ends.any _ _)).mono (fun _ _ _ => trivial)
        fun _ _ => id)
    · exact (hrefused hmetadata).imp id fun hrefused v hv =>
        absurd (hv.symm.trans hrefused) (by simp)

theorem launchMetadata_surveys (hfaults : calm = true → s.faults = [])
    (hcreates : mode.createsFile (s.disk.contains s.path) = false) :
    (launchMetadata mode).Ends s
      (fun _ t => s.handle = none ∧
        ∃ v, (place s calm).survey .scan s.processor = .ok v ∧ t.Surveys v mode.isWrite)
      (fun _ _ => s.handle = none →
        calm = false ∨ ∀ v, (place s calm).survey .scan s.processor ≠ .ok v) := by
  unfold launchMetadata
  refine Op.Ends.get_bind (Op.Ends.unless (fun hopen hclosed => ?_) fun hclosed => ?_)
  · exact absurd hopen (by simp [Container.isOpen, hclosed])
  replace hclosed : s.handle = none := by
    simpa [Container.isOpen] using hclosed
  refine (launch_surveys hclosed hfaults hcreates true).mono ?_ fun _ _ h _ => h rfl
  rintro - t ⟨v, hfound, ht⟩
  exact ⟨hclosed, v, hfound, ht rfl⟩

/-- **A container that can be opened for its content can be opened for its metadata.** -/
theorem launchMetadata_of_openIn (hfaults : s.faults = [])
    (hcreates : mode.createsFile (s.disk.contains s.path) = false) (h : openIn mode s = .ok () t) :
    ∃ t', launchMetadata .scan s = .ok () t' := by
  obtain ⟨_, _, ⟨⟩, h₁⟩ := Op.ok_of_bind h
  obtain ⟨hclosed, h₂⟩ := Op.ok_of_unless h₁
  obtain ⟨-, h₃⟩ := Op.ok_of_unless h₂
  replace hclosed : s.handle = none := by
    simpa [Container.isOpen] using hclosed
  have hnone : true = true → s.faults = [] := fun _ => hfaults
  obtain ⟨v, hfound, -⟩ := (launch_surveys hclosed hnone hcreates false).of_ok h₃
  cases hrun : launchMetadata .scan s with
  | ok _ t' => exact ⟨t', rfl⟩
  | error e t' =>
    -- opening for the metadata fails only if opening for the content does
    rcases (launchMetadata_surveys hnone rfl).of_error hrun hclosed with hcalm | hrefused
    · simp at hcalm
    · exact absurd hfound (hrefused v)

/-! ## Closed again

Closing forgets everything but what is configured, so the metadata can be read again afterwards,
with the same answer. -/

/-- Closing without flushing leaves the raw file closed, whether or not a fault struck. -/
theorem shut_lasting (s : Session) :
    (shut false).Ends s (fun _ t => t.handle = none ∧ Lasting s t ∧ (s.faults = [] → t.faults = []))
      (fun _ t => t.handle = none ∧ Lasting s t ∧ s.faults ≠ []) := by
  have hclose : (closeRaw false).Ends s
      (fun _ t => ∃ faults trace, (s.faults = [] → faults = []) ∧
        t = { s with handle := none, faults, trace })
      (fun _ t => ∃ faults trace, s.faults ≠ [] ∧
        t = { s with handle := none, faults, trace }) := by
    unfold closeRaw
    refine Op.Ends.get_bind (Op.Ends.ite (fun _ => ?_) fun hclosed => ?_)
    · -- nothing is flushed, so only the close of the raw file can fail
      refine Op.Ends.bind (P := fun a t => a = .ok () ∧ t = s) ⟨rfl, rfl⟩ ?_
      rintro _ _ ⟨rfl, rfl⟩
      refine Op.Ends.bind (Op.Ends.attempt (Raw.close_ends _)) ?_
      rintro closed t (⟨-, rfl, faults, trace, hcalm, rfl⟩ | ⟨e, rfl, hstruck, faults, trace, rfl⟩)
      · exact ⟨faults, trace, hcalm, rfl⟩
      · exact ⟨faults, trace, hstruck, rfl⟩
    · -- there was no raw file to close
      have hnone : s.handle = none := by simpa [Container.isOpen] using hclosed
      exact ⟨s.faults, s.trace, id, by rw [← hnone]⟩
  unfold shut
  refine Op.Ends.bind (Op.Ends.attempt hclose) ?_
  rintro closed t (⟨-, rfl, faults, trace, hcalm, rfl⟩ | ⟨e, rfl, faults, trace, hstruck, rfl⟩)
  · exact ⟨rfl, ⟨rfl, rfl, rfl⟩, hcalm⟩
  · exact ⟨rfl, ⟨rfl, rfl, rfl⟩, hstruck⟩

/-- Reading the metadata replaces the processor by one that forgets to the same. -/
theorem loadLayout_lasting (s : Session) {t : Session} :
    (loadLayout true).Keeps (Lasting s) (fun _ => True) t := by
  have hambient : Ambient (Lasting s) :=
    { faults := fun _ h => h, handle := fun _ h => h, noted := fun _ h => h }
  unfold loadLayout
  refine Op.Keeps.bind (Raw.seek_keeps hambient 0) fun _ _ _ => ?_
  refine Op.Keeps.bind (readExactly_keeps hambient _ _) fun _ _ _ => Op.Keeps.get_bind fun _ => ?_
  refine Op.Keeps.ofExcept_bind fun info _ => ?_
  refine Op.Keeps.bind (readExactly_keeps hambient _ _) fun _ _ _ => Op.Keeps.get_bind fun _ => ?_
  refine Op.Keeps.ofExcept_bind fun p hp => ?_
  -- only the processor changes, and what it forgets to is what it was before
  refine Op.Keeps.modify_bind (fun h => ⟨h.1, h.2.1, ?_⟩) ?_
  · exact (Processor.reset_of_unpackDescriptor hp).trans h.2.2
  refine Op.Keeps.bind (P := fun _ => True) ?_ fun _ _ _ => Op.Keeps.pure trivial
  unfold loadSizes
  refine Op.Keeps.modify_bind (fun h => h) (Op.Keeps.get_bind fun _ => ?_)
  refine Op.Keeps.bind (Raw.size_keeps hambient) fun _ _ _ => Op.Keeps.unless fun _ => ?_
  split
  · exact Op.Keeps.throw
  · refine Op.Keeps.modify_bind (fun h => h) ?_
    split
    · exact Op.Keeps.throw
    · exact Op.Keeps.ite (fun _ => Op.Keeps.throw) fun _ => Op.Keeps.pure trivial

/-- A container that could not be opened for its metadata is as it was. -/
theorem launchMetadata_lasting (hclosed : s.handle = none)
    (hcreates : mode.createsFile (s.disk.contains s.path) = false) :
    (launchMetadata mode).Ends s (fun _ _ => True) fun _ t => t.handle = none ∧ Lasting s t := by
  unfold launchMetadata launch
  refine Op.Ends.get_bind (Op.Ends.unless (fun hopen => ?_) fun _ => ?_)
  · exact absurd hopen (by simp [Container.isOpen, hclosed])
  refine Op.Ends.get_bind (Op.Ends.get_bind (Op.Ends.modify_bind ?_))
  refine Op.Ends.bind ((Raw.openAs_ends hcreates (by exact hclosed)).mono (fun _ _ => id) ?_) ?_
  · rintro _ _ ⟨-, faults, trace, -, rfl⟩
    exact ⟨hclosed, rfl, rfl, rfl⟩
  rintro - - ⟨file, faults, trace, -, -, rfl⟩
  simp only [hcreates, Bool.false_eq_true, if_false]
  refine ((loadLayout_lasting s).ends ?_).attempt_bind fun opened t ht => ?_
  · exact ⟨rfl, rfl, rfl⟩
  cases opened with
  | ok _ => exact trivial
  | error e =>
    -- a failed opening closes again, and closing lasts as well
    refine Op.Ends.bind (P := fun _ u => u.handle = none ∧ Lasting s u) (Op.Ends.discard ?_)
      fun _ u hu => hu
    have hlasts {u : Session} (hu : Lasting t u) : Lasting s u :=
      ⟨hu.1.trans ht.1, hu.2.1.trans ht.2.1, hu.2.2.trans ht.2.2⟩
    refine (Op.Ends.attempt (shut_lasting t)).mono ?_ fun _ _ => False.elim
    rintro - u (⟨-, -, hnone, hu, -⟩ | ⟨-, -, hnone, hu, -⟩)
    · exact ⟨hnone, hlasts hu⟩
    · exact ⟨hnone, hlasts hu⟩

/-- A container that reveals something is opened for it. Only faults keep it from that, and then it
reveals the same as before. -/
theorem launchMetadata_reveals (h : s.Reveals v)
    (hcreates : mode.createsFile (s.disk.contains s.path) = false) :
    (launchMetadata mode).Ends s (fun _ t => t.Surveys v mode.isWrite)
      (fun _ t => v.calm = false ∧ t.Reveals v) := by
  have hplace : place s v.calm = v.toPlace := by
    rw [place, h.disk, h.path]
  have hsurvey : (place s v.calm).survey .scan s.processor = .ok v := by
    rw [← Place.survey_reset, h.processor, hplace]
    exact h.revealed
  have hlast := launchMetadata_lasting h.closed hcreates
  refine ((launchMetadata_surveys h.faults hcreates).and hlast).mono ?_ ?_
  · -- what is found is unique, so it is what the closed container revealed
    rintro - t ⟨⟨-, v', hfound, ht⟩, -⟩
    obtain rfl : v = v' := Except.ok.inj (hsurvey.symm.trans hfound)
    exact ht
  · rintro e t ⟨hrefused, hnone, hdisk, hpath, hprocessor⟩
    have hcalm : v.calm = false := (hrefused h.closed).resolve_right fun hno => hno v hsurvey
    exact ⟨hcalm, hnone, fun hv => absurd (hv.symm.trans hcalm) (by simp), hdisk.trans h.disk,
      hpath.trans h.path, hprocessor.trans h.processor, h.revealed⟩

/-- Where metadata were read, they can be read again once the container is closed. -/
theorem shut_surveys (h : t.Surveys v writable) (hrevealed : v.Revealed) :
    (shut false).Ends t (fun _ u => u.Reveals v) (fun _ u => v.calm = false ∧ u.Reveals v) := by
  have hreveals {u : Session} (hnone : u.handle = none) (hu : Lasting t u)
      (hfaults : v.calm = true → u.faults = []) : u.Reveals v :=
    ⟨hnone, hfaults, hu.1.trans h.disk, hu.2.1.trans h.path, by rw [hu.2.2, h.processor], hrevealed⟩
  refine (shut_lasting t).mono ?_ ?_
  · rintro - u ⟨hnone, hu, hcalm⟩
    exact hreveals hnone hu fun hv => hcalm (h.faults hv)
  · rintro - u ⟨hnone, hu, hstruck⟩
    have hv := h.faulty hstruck
    exact ⟨hv, hreveals hnone hu fun hcalm => absurd (hcalm.symm.trans hv) (by simp)⟩

section
variable {α : Type} {x : Op α} {P : α → Source → Prop} {E : Error → Source → Prop}

/-- What was answered is told when the container is closed again, unless a fault strikes there. -/
theorem closeMetadata_ok (h : t.Surveys v writable) (hrevealed : v.Revealed) (a : α) :
    (closeMetadata (.ok a)).Ends t (fun b u => b = a ∧ u.Reveals v)
      (fun _ u => v.calm = false ∧ u.Reveals v) := by
  refine Op.Ends.bind (Op.Ends.attempt (shut_surveys h hrevealed)) ?_
  rintro closed u (⟨-, rfl, hu⟩ | ⟨e, rfl, hcalm, hu⟩)
  · exact ⟨rfl, hu⟩
  · exact ⟨hcalm, hu⟩

/-- An error is told when the container is closed again, whatever comes of closing. -/
theorem closeMetadata_error (h : t.Surveys v writable) (hrevealed : v.Revealed) (e : Error) :
    (closeMetadata (.error e : Except Error α)).Ends t (fun _ _ => False)
      (fun e' u => e' = e ∧ u.Reveals v) := by
  refine Op.Ends.bind (Op.Ends.attempt (shut_surveys h hrevealed)) ?_
  rintro closed u (⟨-, rfl, hu⟩ | ⟨_, rfl, -, hu⟩)
  · exact ⟨rfl, hu⟩
  · exact ⟨rfl, hu⟩

/-- **What is done with the metadata of a closed container is done on the open one,** and the
container is closed again. A fault that strikes before or after that is an error like one on the
way. -/
theorem withMetadata_ends (h : s.Reveals v)
    (hcreates : mode.createsFile (s.disk.contains s.path) = false)
    (hbefore : v.calm = false → ∀ e, E e v)
    (hx : ∀ t : Session, t.Surveys v mode.isWrite → x.Ends t
      (fun a u => ∃ v', u.Surveys v' mode.isWrite ∧ v'.Revealed ∧ P a v')
      (fun e u => ∃ v', u.Surveys v' mode.isWrite ∧ v'.Revealed ∧ E e v'))
    (hafter : ∀ a v', P a v' → v'.calm = false → ∀ e, E e v') :
    (withMetadata mode x).Ends s (fun a s' => ∃ v', s'.Reveals v' ∧ P a v')
      (fun e s' => ∃ v', s'.Reveals v' ∧ E e v') := by
  unfold withMetadata
  refine Op.Ends.bind ((launchMetadata_reveals h hcreates).mono (fun _ _ => id)
    fun e _ ⟨hcalm, ht⟩ => ⟨v, ht, hbefore hcalm e⟩) ?_
  intro _ t ht
  -- an error on the way is caught, and told after closing
  refine Op.Ends.bind (Op.Ends.attempt (hx t ht)) ?_
  rintro result u (⟨a, rfl, v', hu, hrevealed, hP⟩ | ⟨e, rfl, v', hu, hrevealed, hE⟩)
  · refine (closeMetadata_ok hu hrevealed a).mono ?_ fun e _ ⟨hcalm, hs'⟩ =>
      ⟨v', hs', hafter a v' hP hcalm e⟩
    rintro _ s' ⟨rfl, hs'⟩
    exact ⟨v', hs', hP⟩
  · refine (closeMetadata_error hu hrevealed e).mono (fun _ _ => False.elim) ?_
    rintro _ s' ⟨rfl, hs'⟩
    exact ⟨v', hs', hE⟩

end

end Container

end Vault
