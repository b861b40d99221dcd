import Vault.Proofs.Appending
import Vault.Proofs.Reopen
import Vault.Proofs.Stamping

/-!
# `Vault/Proofs/Trailing.lean` — a stamp does not outlive the size that it was made for

A stamp stands behind the chunk data and covers what is in front of it. A session that changes the
size of the content must not leave the old stamp there, and one that does not change it has no
reason to touch it. **If users were told another size at any time of a session, nothing stands
behind the chunk data when the container is closed again; if not, every byte there is where it
was.** That is so in sealed and in streamed chunks, also when the size comes back to what it was,
and for a closed container that is given a new size.

The invariants of both kinds of chunks know what stands behind the chunk data (`Trail`). What is
left to say here is which sizes a session goes through (`Session.Reports`), and what a closed
container tells of its file (`Session.Filed`).
-/

set_option autoImplicit false

namespace Vault

/-! ## The sizes on the way

A session goes through the strings that the calls make one after the other. `reached` lists them;
what users are told at any time between two calls is the size of one of these. -/

namespace Flat

variable {f r : Flat} {calls past future : List Call}

/-- The strings on the way are those after the first few calls. -/
theorem mem_reached_iff :
    r ∈ f.reached calls ↔ ∃ past future, calls = past ++ future ∧ (f.run past).2 = r := by
  -- by induction on the calls: a string on the way is the first one, or on the way of the rest
  induction calls generalizing f with
  | nil =>
    constructor
    · intro hr
      exact ⟨[], [], rfl, (List.mem_singleton.mp hr).symm⟩
    · rintro ⟨past, future, hsplit, rfl⟩
      obtain ⟨rfl, rfl⟩ := List.nil_eq_append_iff.mp hsplit
      exact f.self_mem_reached []
  | cons call calls ih =>
    constructor
    · intro hr
      rcases List.mem_cons.mp hr with rfl | hr
      · exact ⟨[], call :: calls, rfl, rfl⟩
      · obtain ⟨past, future, rfl, hlast⟩ := ih.mp hr
        exact ⟨call :: past, future, rfl, hlast⟩
    · rintro ⟨past, future, hsplit, rfl⟩
      -- no call was made, or the first one was
      cases past with
      | nil => exact f.self_mem_reached _
      | cons first past =>
        obtain ⟨rfl, hrest⟩ := List.cons.inj hsplit
        exact List.mem_cons_of_mem f (ih.mpr ⟨past, future, hrest, rfl⟩)

theorem reached_append_subset : f.reached past ⊆ f.reached (past ++ future) := by
  intro r hr
  obtain ⟨past, rest, rfl, hlast⟩ := mem_reached_iff.mp hr
  exact mem_reached_iff.mpr ⟨past, rest ++ future, List.append_assoc .., hlast⟩

/-- Where bytes are only added, the content grows. -/
theorem grows_of_appending (happ : f.appending = true) (hend : f.AtEnd) : f.Grows calls := by
  induction calls generalizing f with
  | nil => exact f.grows_nil
  | cons call calls ih =>
    obtain ⟨happ', hgrows⟩ := content_step happ hend call
    exact (ih happ' (hend.step call)).cons hgrows.length_le

/-- What a session that starts with a string leaves behind the chunk data. -/
def Spares (f : Flat) (calls : List Call) (raw : Bytes) (eofPos : Nat) (raw' : Bytes)
    (eofPos' : Nat) : Prop :=
  (raw'.drop eofPos' = [] ∧ ∃ r ∈ f.reached calls, r.content.length ≠ f.content.length) ∨
    (eofPos' = eofPos ∧ raw'.drop eofPos' = raw.drop eofPos ∧
      ∀ r ∈ f.reached calls, r.content.length = f.content.length)

/-- What is known of a content that only grew, once all of it is stored: if it is as long as it was,
it was that long all the way. -/
theorem Grows.spares {raw raw' : Bytes} {eofPos eofPos' : Nat} {tailCut : Bool}
    (h : f.Grows calls)
    (hfits : (Trail.kept f.content.length eofPos (raw.drop eofPos)).Fits raw' eofPos'
      (f.run calls).2.content.length (f.run calls).2.content.length tailCut) :
    f.Spares calls raw eofPos raw' eofPos' := by
  rcases hfits with ⟨hnil, hlt⟩ | ⟨-, heof, hsize, hbytes⟩
  · exact .inl ⟨hnil, _, f.last_mem_reached calls, Nat.ne_of_gt hlt⟩
  · refine .inr ⟨heof, hbytes, fun r hr => ?_⟩
    obtain ⟨hstart, hend⟩ := h r hr
    exact Nat.le_antisymm (Nat.le_trans hend (Nat.le_of_eq hsize)) hstart

end Flat

namespace Session

open Container

variable {s s' s₁ t : Session} {m : Metadata} {file : Nat} {c : Bytes} {mode : Mode} {f : Flat}
  {calls : List Call} {n : Nat}

/-- The size that users are told at some time between calls. -/
def Reports (s : Session) (calls : List Call) (n : Nat) : Prop :=
  ∃ past future answers t t', calls = past ++ future ∧ Call.runAll past s = .ok answers t ∧
    contentSize t = .ok n t'

/-- As long as there is room, users are answered as by the string, and told its size. -/
def Follows (s : Session) (m : Metadata) (f : Flat) : Prop :=
  ∀ calls, (∀ r ∈ f.reached calls, Layout.Roomy m.firstMax m.chunkMax r.content.length) →
    ∃ t t', Call.runAll calls s = .ok (f.run calls).1 t ∧
      contentSize t = .ok (f.run calls).2.content.length t'

theorem Depicts.follows {g : Site} (h : s.Depicts g f) (hfaults : s.faults = []) (hend : f.AtEnd)
    (hwrite : g.mode.isWrite = true) : s.Follows g.metadata f := by
  intro calls hroom
  obtain ⟨t, hrun, hfaults', -, -, g', d, -, -, hshows⟩ := h.run hfaults hend hwrite calls hroom
  obtain ⟨_, t', hsize, -, rfl, -⟩ :=
    (contentSize_does hshows fun _ => False).answers hfaults' not_false
  exact ⟨t, t', hrun, hsize⟩

theorem Adds.follows {g : Channel} {ink : Ink} (h : s.Adds g ink f) (hfaults : s.faults = []) :
    s.Follows g.metadata f := by
  intro calls hroom
  obtain ⟨t, ink', hrun, -, ht⟩ := h.run hfaults calls hroom
  exact ⟨t, t, hrun, ht.streams.contentSize_eq⟩

/-- **Users are told the sizes of the strings on the way.** -/
theorem Follows.reports_iff (h : s.Follows m f)
    (hroom : ∀ r ∈ f.reached calls, Layout.Roomy m.firstMax m.chunkMax r.content.length) :
    s.Reports calls n ↔ ∃ r ∈ f.reached calls, r.content.length = n := by
  -- after the first few calls the container answers as the string does
  have htold {past future : List Call} (hsplit : calls = past ++ future) :
      ∃ t t', Call.runAll past s = .ok (f.run past).1 t ∧
        contentSize t = .ok (f.run past).2.content.length t' :=
    h past fun r hr => hroom r (hsplit ▸ Flat.reached_append_subset hr)
  constructor
  · -- the same calls lead to the same state, so the size that was told is that of the string
    rintro ⟨past, future, answers, t, t', hsplit, hrun, hsize⟩
    obtain ⟨u, u', hrun', hsize'⟩ := htold hsplit
    obtain ⟨-, rfl⟩ : _ ∧ t = u := by simpa using hrun.symm.trans hrun'
    obtain ⟨rfl, -⟩ : n = _ ∧ _ := by simpa using hsize.symm.trans hsize'
    exact ⟨_, Flat.mem_reached_iff.mpr ⟨past, future, hsplit, rfl⟩, rfl⟩
  · rintro ⟨r, hr, rfl⟩
    obtain ⟨past, future, hsplit, rfl⟩ := Flat.mem_reached_iff.mp hr
    obtain ⟨t, t', hrun, hsize⟩ := htold hsplit
    exact ⟨past, future, _, t, t', hsplit, hrun, hsize⟩

/-! ## Closed containers

Both kinds of chunks in one predicate, with the end of the chunk data as a number. What is found
in the metadata has to be the same number, which both kinds prove from their headers. -/

/-- A closed container, in sealed or in streamed chunks: a raw file, the content in it and the end
of its chunk data. Behind that there may be anything. -/
inductive Filed (s : Session) (m : Metadata) : (raw content : Bytes) → (eofPos : Nat) → Prop where
  | sealed {file ct last : Nat} {content : Bytes} (waits : s.Waits m file ct last content) :
      Filed s m (s.disk.contents file) content (m.dataOffset + ct)
  | streamed {file : Nat} {ink : Ink} {content : Bytes} (shelved : s.Shelved m file ink content) :
      Filed s m (s.disk.contents file) content
        (m.dataOffset + (m.layout.ciphertext ink content).length)

variable {raw : Bytes} {eofPos : Nat}

theorem Filed.closed (h : s.Filed m raw c eofPos) : s.handle = none := by
  cases h with
  | sealed waits => exact waits.closed
  | streamed shelved => exact shelved.closed

theorem Filed.read? (h : s.Filed m raw c eofPos) : s.disk.read? s.path = some raw := by
  cases h with
  | sealed waits => simp [Disk.read?, waits.found]
  | streamed shelved => exact shelved.read?

/-- The header says where the chunk data end. -/
theorem Filed.header (h : s.Filed m raw c eofPos) (hsmall : c.length < 2 ^ 62) :
    ∃ x < offsetLimit, ∃ y < offsetLimit, raw.slice 0 Header.size = m.header x y ∧
      eofPos = m.dataOffset + y ∧ eofPos ≤ raw.length ∧
      s.processor.config.streaming = m.streaming := by
  -- the two kinds fix the end of their chunk data by different sizes in the same header
  cases h with
  | sealed waits =>
    have hend := waits.keeps.end_lt (Metadata.fits_of_lt hsmall)
    have hlimit : 2 ^ 62 < offsetLimit := by decide
    exact ⟨_, Nat.lt_trans hsmall hlimit, _, Nat.lt_of_add_left_lt hend, waits.keeps.header_eq, rfl,
      waits.keeps.present, waits.kind⟩
  | @streamed file ink c shelved =>
    obtain ⟨rest, hcarries⟩ := shelved.carries
    obtain ⟨last, hends⟩ := shelved.ends
    obtain ⟨x, hx, hheader⟩ := hcarries.slice_header
    have hend := Metadata.end_lt_of_small ink shelved.streaming hends hsmall
    have hlength := hcarries.length_eq
    exact ⟨x, hx, _, Nat.lt_of_add_left_lt hend, hheader, rfl, hlength ▸ Nat.le_add_right _ _,
      shelved.kind.trans shelved.streaming.symm⟩

/-- Where there is room for the content, it can be scanned. -/
theorem Filed.scans (h : s.Filed m raw c eofPos) (hfaults : s.faults = [])
    (hroom : Layout.Roomy m.firstMax m.chunkMax c.length) : ∃ t, openIn .scan s = .ok () t := by
  cases h with
  | sealed waits =>
    have hopens : (openIn .scan).Does _ s _ _ :=
      openIn_does waits (Metadata.fits_of_lt hroom.1) rfl .unknown trivial
    obtain ⟨_, t, hopen, -⟩ := hopens.answers hfaults hroom.2
    exact ⟨t, hopen⟩
  | streamed shelved =>
    obtain ⟨t, hopen, -⟩ := shelved.scanned hfaults hroom.1 hroom.2
    exact ⟨t, hopen⟩

/-- **What is found in the metadata is the end of the chunk data.** -/
theorem Filed.reveals (h : s.Filed m raw c eofPos) (hfaults : s.faults = [])
    (hroom : Layout.Roomy m.firstMax m.chunkMax c.length) :
    ∃ v : Source, s.Reveals v ∧ v.calm = true ∧ v.raw = raw ∧ v.eofPos = eofPos := by
  obtain ⟨t, hopen⟩ := h.scans hfaults hroom
  obtain ⟨t, hlaunch⟩ := launchMetadata_of_openIn hfaults rfl hopen
  obtain ⟨v, hv, hcalm, -⟩ := launchMetadata_eq_ok hfaults hlaunch rfl
  obtain ⟨x, hx, y, hy, hheader, rfl, -, hkind⟩ := h.header hroom.1
  -- the metadata that a scan reads are those that the header has
  obtain ⟨hfound, info, hread, hmeasure⟩ := hv.revealed.measured
  have hraw : v.raw = raw := by
    have hstored := h.read?
    rw [hv.disk, hv.path, Disk.read?, hfound] at hstored
    exact Option.some.inj hstored
  refine ⟨v, hv, hcalm, hraw, ?_⟩
  obtain ⟨-, -, -, -, hlayout, hct, -⟩ := Place.measure_eq_ok hmeasure
  obtain ⟨-, -, hunpack, -⟩ := Place.readMetadata_eq_ok hread
  have hkind' : v.processor.reset.config.streaming = m.streaming := by
    rw [← hv.processor]
    exact hkind
  rw [hraw, hheader, Metadata.unpackHeader_header hkind' hx hy] at hunpack
  obtain rfl := Except.ok.inj hunpack
  rw [Source.eofPos, hct, hlayout]
  rfl

/-! ## What a closed container tells

Of a closed container users can ask what the file takes, what of it is used, and whether there is
a stamp. If nothing stands behind the chunk data, the first two are the same and there is none. -/

namespace Reveals

variable {v : Source}

theorem storageSize_eq (h : s.Reveals v) : storageSize s = .ok v.raw.length s := by
  obtain ⟨hfound, -, -, -⟩ := h.revealed.present
  have hread : s.disk.read? s.path = some v.raw := by
    rw [h.disk, h.path, Disk.read?, hfound]
    rfl
  simp only [storageSize, bind, EStateM.bind, Op.get_run, hread, Op.pure_run]

theorem usedSize_ends (h : s.Reveals v) :
    usedSize.Ends s (fun n _ => n = v.eofPos) (fun _ _ => v.calm = false) := by
  unfold usedSize
  refine Op.Ends.get_bind ?_
  rw [if_neg (by simp [Container.isOpen, h.closed])]
  refine (withMetadata_ends (P := fun n v' => v' = v ∧ n = v.eofPos)
    (E := fun _ _ => v.calm = false) h rfl (fun hcalm _ => hcalm) (fun t ht => ?_) ?_).mono ?_ ?_
  · exact Op.Ends.get_bind ⟨v, ht, h.revealed, rfl, ht.eofPos⟩
  · rintro _ _ ⟨rfl, -⟩ hcalm _
    exact hcalm
  · rintro n t ⟨-, -, -, hn⟩
    exact hn
  · rintro _ _ ⟨-, -, hcalm⟩
    exact hcalm

/-- **Where nothing stands behind the chunk data, no stamp is found.** -/
theorem checkStamp_absent (h : s.Reveals v) (hcalm : v.calm = true) (hnone : v.trailing = [])
    (kind : StampKind) :
    ∃ t, checkStamp kind s = .error (.stampFailed .absent) t := by
  have habsent : Stamp.ofTail v.trailing = .error (.stampFailed .absent) := by
    rw [hnone]
    rfl
  have hload := loadStamp_ends h
  unfold checkStamp
  -- without a stamp there is nothing to compare, so the check ends where loading does
  cases hrun : loadStamp s with
  | ok st t =>
    obtain ⟨-, hst⟩ := hload.of_ok hrun
    exact absurd (hst.symm.trans habsent) (by simp)
  | error e t =>
    obtain ⟨-, hfaulty | he⟩ := hload.of_error hrun
    · exact absurd (hcalm.symm.trans hfaulty) (by simp)
    obtain rfl : e = .stampFailed .absent := Except.error.inj (he.symm.trans habsent)
    exact ⟨t, by simp only [bind, EStateM.bind, hrun]⟩

end Reveals

/-- Of a closed container, now that another session is over: it holds a content, and if it was
resized on the way its raw file ends with the chunk data and no stamp is found. If it was not, what
stood behind the chunk data still stands there. -/
structure Sheds (s s' : Session) (m : Metadata) (raw : Bytes) (eofPos : Nat) (content : Bytes)
    (resized : Prop) : Prop where
  path : s'.path = s.path
  ends : ∃ raw' eofPos', s'.Filed m raw' content eofPos' ∧
    (resized → raw'.length = eofPos' ∧ (∃ t, storageSize s' = .ok eofPos' t) ∧
      (∃ t, usedSize s' = .ok eofPos' t) ∧
      ∀ kind, ∃ t, checkStamp kind s' = .error (.stampFailed .absent) t) ∧
    (¬resized → eofPos' = eofPos ∧ raw'.drop eofPos = raw.drop eofPos)

/-- What a session left behind the chunk data, told by the closed container. -/
theorem Filed.sheds {raw' content : Bytes} {eofPos' : Nat} {resized : Prop}
    (h : s'.Filed m raw' content eofPos') (hfaults : s'.faults = []) (hpath : s'.path = s.path)
    (hroom : Layout.Roomy m.firstMax m.chunkMax content.length)
    (hspares : f.Spares calls raw eofPos raw' eofPos')
    (hresized : resized ↔ ∃ r ∈ f.reached calls, r.content.length ≠ f.content.length) :
    s.Sheds s' m raw eofPos content resized := by
  refine ⟨hpath, raw', eofPos', h, fun hyes => ?_, fun hno => ?_⟩
  · obtain ⟨r, hr, hne⟩ := hresized.mp hyes
    -- the size was another one, so what stood behind the chunk data went
    rcases hspares with ⟨hnil, -⟩ | ⟨-, -, hall⟩
    · obtain ⟨v, hv, hcalm, rfl, rfl⟩ := h.reveals hfaults hroom
      have hlen : v.raw.length = v.eofPos :=
        Nat.le_antisymm (List.drop_eq_nil_iff.mp hnil) hv.revealed.present.2.2.1
      obtain ⟨_, t, hused, rfl⟩ := (hv.usedSize_ends.mono (fun _ _ => id) fun _ _ hfaulty =>
        absurd (hcalm.symm.trans hfaulty) (by simp)).answers
      exact ⟨hlen, ⟨s', hlen ▸ hv.storageSize_eq⟩, ⟨t, hused⟩, hv.checkStamp_absent hcalm hnil⟩
    · exact absurd (hall r hr) hne
  · -- the size was the same all the time, so nothing went
    rcases hspares with ⟨-, hchanged⟩ | ⟨rfl, hsame, -⟩
    · exact absurd (hresized.mpr hchanged) hno
    · exact ⟨rfl, hsame⟩

/-! ## Sessions

A session is opened, asked and closed. The strings that it goes through decide what is left
behind the chunk data, and `Completes` says so for both kinds. Giving a closed container a new
size is a session with a single call. -/

/-- A closed container is opened, asked for some things and closed. -/
structure Spans (s : Session) (mode : Mode) (calls : List Call)
    (answers : List (Except Error Answer)) (s₁ t s' : Session) : Prop where
  opens : openIn mode s = .ok () s₁
  answers : Call.runAll calls s₁ = .ok answers t
  closes : close t = .ok () s'
  writes : s₁.isOpen = true ∧ s₁.mode = mode
  isOpen : t.isOpen = true

/-- A closed container goes through a session that is answered as by a string, and what stood behind
its chunk data stands there afterwards if and only if the size did not change. -/
def Completes (s : Session) (m : Metadata) (raw : Bytes) (eofPos : Nat) (mode : Mode)
    (calls : List Call) (f : Flat) : Prop :=
  ∃ s₁ t s' raw' eofPos', s.Spans mode calls (f.run calls).1 s₁ t s' ∧ s₁.Follows m f ∧
    s'.faults = [] ∧ s'.path = s.path ∧ s'.Filed m raw' (f.run calls).2.content eofPos' ∧
    f.Spares calls raw eofPos raw' eofPos'

/-- What is behind the chunk data of sealed chunks goes when the size changes. -/
theorem Waits.completes {ct last : Nat} (h : s.Waits m file ct last c) (hfaults : s.faults = [])
    (hwrite : mode.isWrite = true) (hcreates : mode.createsFile true = false) (calls : List Call)
    (hroom : ∀ r ∈ (Flat.opened mode c).reached calls,
      Layout.Roomy m.firstMax m.chunkMax r.content.length) :
    s.Completes m (s.disk.contents file) (m.dataOffset + ct) mode calls (Flat.opened mode c) := by
  have hroom₀ := hroom _ (Flat.self_mem_reached _ calls)
  have hend : (Flat.opened mode c).AtEnd := Flat.atEnd_opened mode c
  let g : Site := h.site mode (.kept c.length (m.dataOffset + ct)
    ((s.disk.contents file).drop (m.dataOffset + ct)))
  obtain ⟨_, s₁, hopen, hfaults₁, hs₁, hplaced, -, -⟩ := (openIn_does h
    (Metadata.fits_of_lt hroom₀.1) hcreates g.trail Trail.fits_kept).answers hfaults hroom₀.2
  have hdepicts : s₁.Depicts g (Flat.opened mode c) :=
    hs₁.toShows.depicts (Site.Alike.refl g) rfl rfl rfl hplaced
  obtain ⟨t, hrun, hfaults₂, -, -, g', d, halike, -, hshows⟩ :=
    hdepicts.run hfaults₁ hend hwrite calls hroom
  obtain ⟨_, s', hclose, hfaults₃, u, hu, hforgotten⟩ :=
    (close_does hshows).answers hfaults₂ not_false
  -- neither opening nor the calls change the metadata
  have hmetadata : g'.metadata = m := halike.metadata.trans (Site.metadata_through g _ calls)
  have hwaits := hu.waits_forgotten hforgotten
  have htrail := hu.trail
  rw [hu.eofPos_eq, hu.size, halike.trail, hmetadata] at htrail
  obtain ⟨y, rfl⟩ := hforgotten
  refine ⟨s₁, t, _, _, _, ⟨hopen, hrun, hclose, ⟨hs₁.isOpen, hs₁.mode⟩, hshows.isOpen⟩,
    hdepicts.follows hfaults₁ hend hwrite, hfaults₃,
    hu.path.trans (halike.path.trans (Site.path_through g _ calls)),
    .sealed (hmetadata ▸ hwaits), ?_⟩
  -- either the content got shorter on the way, or what is known from the start still is
  rcases g.through_cases (Flat.opened mode c) calls with ⟨hcut, hchanged⟩ | ⟨hsame, hgrown⟩
  · rw [hcut] at htrail
    exact .inl ⟨htrail, hchanged⟩
  · rw [hsame] at htrail
    exact hgrown.spares htrail

/-- What is behind the chunk data of streamed chunks goes when the content grows. -/
theorem Shelved.completes {ink : Ink} (h : s.Shelved m file ink c) (hfaults : s.faults = [])
    (happ : mode.isAppend = true) (calls : List Call)
    (hroom : ∀ r ∈ (Flat.opened mode c).reached calls,
      Layout.Roomy m.firstMax m.chunkMax r.content.length) :
    s.Completes m (s.disk.contents file) (m.dataOffset + (m.layout.ciphertext ink c).length) mode
      calls (Flat.opened mode c) := by
  have hroom₀ := hroom _ (Flat.self_mem_reached _ calls)
  obtain ⟨_, s₁, hopen, hfaults₁, hpoised⟩ :=
    (openStream_does h happ hroom₀.1).answers hfaults hroom₀.2
  have hadds := hpoised.adds happ
  obtain ⟨t, ink', hrun, hfaults₂, ht⟩ := hadds.run hfaults₁ calls hroom
  obtain ⟨_, s', hclose, hfaults₃, hpath, hshelved, htrail⟩ :=
    (closeStream_does ht.streams).answers hfaults₂ not_false
  -- where bytes are only added, the content never gets shorter
  have hgrows : (Flat.opened mode c).Grows calls :=
    Flat.grows_of_appending happ (Flat.atEnd_opened mode c)
  refine ⟨s₁, t, s', _, _, ⟨hopen, hrun, hclose, ⟨hadds.streams.isOpen, hadds.streams.mode⟩,
    ht.streams.isOpen⟩, hadds.follows hfaults₁, hfaults₃, hpath, .streamed hshelved,
    hgrows.spares htrail⟩

/-- **A session leaves of what stands behind the chunk data all or nothing,** in both kinds of
chunks. -/
theorem Filed.completes (h : s.Filed m raw c eofPos) (hfaults : s.faults = [])
    (hwrite : mode.isWrite = true) (hcreates : mode.createsFile true = false)
    (happ : m.streaming = true → mode.isAppend = true) (calls : List Call)
    (hroom : ∀ r ∈ (Flat.opened mode c).reached calls,
      Layout.Roomy m.firstMax m.chunkMax r.content.length) :
    s.Completes m raw eofPos mode calls (Flat.opened mode c) := by
  cases h with
  | sealed waits => exact waits.completes hfaults hwrite hcreates calls hroom
  | streamed shelved => exact shelved.completes hfaults (happ shelved.streaming) calls hroom

/-- After a session what stood behind the chunk data is gone or there. -/
theorem Filed.session (h : s.Filed m raw c eofPos) (hfaults : s.faults = [])
    (hmode : mode ∈ [Mode.writeExisting, .append, .appendExisting])
    (happ : m.streaming = true → mode.isAppend = true)
    (hroom : ∀ r ∈ (Flat.opened mode c).reached calls,
      Layout.Roomy m.firstMax m.chunkMax r.content.length) :
    ∃ s₁ s', openIn mode s = .ok () s₁ ∧
      (do discard (Call.runAll calls); close) s₁ = .ok () s' ∧
      (∀ n, s₁.Reports calls n ↔ ∃ f ∈ (Flat.opened mode c).reached calls, f.content.length = n) ∧
      s.Sheds s' m raw eofPos ((Flat.opened mode c).run calls).2.content
        (∃ n, s₁.Reports calls n ∧ n ≠ c.length) := by
  obtain ⟨hwrite, hcreates⟩ : mode.isWrite = true ∧ mode.createsFile true = false := by
    simp only [List.mem_cons, List.not_mem_nil, or_false] at hmode
    rcases hmode with rfl | rfl | rfl <;> exact ⟨rfl, rfl⟩
  obtain ⟨s₁, t, s', raw', eofPos', hspans, hfollows, hfaults', hpath, hfiled, hspares⟩ :=
    h.completes hfaults hwrite hcreates happ calls hroom
  refine ⟨s₁, s', hspans.opens, ?_, fun n => hfollows.reports_iff hroom, hfiled.sheds hfaults' hpath
    (hroom _ (Flat.last_mem_reached _ calls)) hspares ?_⟩
  · simp only [Functor.discard, Functor.mapConst, Function.comp, bind, EStateM.bind, EStateM.map,
      hspans.answers, hspans.closes]
  · -- another size was told if and only if a string on the way had another size
    simp only [hfollows.reports_iff hroom]
    constructor
    · rintro ⟨_, ⟨r, hr, rfl⟩, hne⟩
      exact ⟨r, hr, hne⟩
    · rintro ⟨r, hr, hne⟩
      exact ⟨_, ⟨r, hr, rfl⟩, hne⟩

/-- Streamed chunks are only opened for appending. -/
theorem Filed.openIn_refused (h : s.Filed m raw c eofPos) (hstreaming : m.streaming = true)
    (hmode : mode.allowsStreaming = false) : openIn mode s = .error .streamMode s := by
  have hkind : s.processor.config.streaming = true := by
    cases h with
    | sealed waits => exact waits.kind.trans hstreaming
    | streamed shelved => exact shelved.kind
  simp [openIn, bind, EStateM.bind, Container.isOpen, h.closed, hkind, hmode]

/-- **A closed container is given a new size in a session of its own.** -/
theorem Spans.truncate_eq {backup : Bool} {result : Except Error Unit}
    (h : s.Spans mode [.truncate n backup] [result.map fun _ => .done] s₁ t s')
    (hclosed : s.handle = none)
    (hmode : mode = if s.processor.config.streaming then .appendExisting else .writeExisting)
    (hsmall : zerosAtOnce s₁ n ≤ allocationLimit) :
    Op.attempt (Container.truncate n backup) s = .ok result s' := by
  have hwrite : mode.isWrite = true := by
    rw [hmode]
    split <;> rfl
  -- opening checks that the container is closed, and that the mode goes with the chunks
  obtain ⟨_, _, ⟨⟩, h₁⟩ := Op.ok_of_bind h.opens
  obtain ⟨-, h₂⟩ := Op.ok_of_unless h₁
  obtain ⟨-, hlaunch⟩ := Op.ok_of_unless h₂
  have hfree : s.isOpen = false := by simp [Container.isOpen, hclosed]
  have hsame : Container.truncate n backup s₁ = resize n backup s₁ := by
    simp [Container.truncate, bind, EStateM.bind, h.writes.1, h.writes.2, hwrite]
  have hshut : shut true t = .ok () s' := by
    have hclose := h.closes
    simpa only [close, bind, EStateM.bind, Op.get_run, h.isOpen, if_true] using hclose
  have hrun := h.answers
  simp only [Call.runAll, Call.run, Op.attempt, bind, EStateM.bind, hsame, Op.pure_run] at hrun
  simp only [Container.truncate, Op.attempt, bind, EStateM.bind, Op.get_run, hfree,
    Bool.false_eq_true, if_false, ← hmode, hlaunch, if_neg (Nat.not_lt.mpr hsmall)]
  -- the call is answered or refused; closing comes after it either way
  cases hresize : resize n backup s₁ with
  | ok _ u =>
    simp only [hresize] at hrun
    cases result with
    | ok _ =>
      obtain rfl : u = t := by simpa [Except.map] using hrun
      simp [hshut, Op.ofExcept]
    | error e => simp [Except.map] at hrun
  | error e u =>
    simp only [hresize] at hrun
    cases result with
    | ok _ => simp [Except.map] at hrun
    | error e' =>
      obtain ⟨rfl, rfl⟩ : e = e' ∧ u = t := by simpa [Except.map] using hrun
      simp [hshut, Op.ofExcept]

/-- After a closed container was given a new size, what stood behind its chunk data is gone or
there. -/
theorem Filed.truncate (h : s.Filed m raw c eofPos) (hfaults : s.faults = [])
    (hroom : Layout.Roomy m.firstMax m.chunkMax c.length) {newSize : Nat}
    (hroom' : Layout.Roomy m.firstMax m.chunkMax newSize) (backup : Bool) {shorter : Prop}
    [Decidable shorter] (hshorter : shorter ↔ m.streaming = true ∧ newSize < c.length)
    {content : Bytes} (hcontent : content = if shorter then c else c.resize newSize) :
    ∃ s', Op.attempt (Container.truncate newSize backup) s
        = .ok (if shorter then .error (.invalidSeek newSize c.length) else .ok ()) s' ∧
      s.Sheds s' m raw eofPos content (content.length ≠ c.length) := by
  obtain ⟨-, -, -, -, -, -, -, hkind⟩ := h.header hroom.1
  -- the mode is the one that a closed container is opened in for this
  let mode : Mode := if s.processor.config.streaming then .appendExisting else .writeExisting
  let f := Flat.opened mode c
  let call := Call.truncate newSize backup
  have happ : f.appending = m.streaming := by
    show mode.isAppend = m.streaming
    simp only [mode, hkind]
    split <;> simp [*, Mode.isAppend]
  have hwrite : mode.isWrite = true ∧ mode.createsFile true = false := by
    simp only [mode]
    split <;> exact ⟨rfl, rfl⟩
  have hstep : (f.step call).1 = Except.map (fun _ => .done)
        (if shorter then .error (.invalidSeek newSize c.length) else .ok ()) ∧
      (f.step call).2.content = content := by
    subst hcontent
    -- the new size is refused, or the content has it
    by_cases hshort : shorter
    · have hstring : f.appending = true ∧ newSize < f.content.length := happ ▸ hshorter.mp hshort
      simp only [call, Flat.step, if_pos hstring, if_pos hshort]
      exact ⟨rfl, rfl⟩
    · have hstring : ¬(f.appending = true ∧ newSize < f.content.length) :=
        happ ▸ hshort ∘ hshorter.mpr
      simp only [call, Flat.step, if_neg hstring, if_neg hshort]
      exact ⟨rfl, rfl⟩
  have hroom'' : Layout.Roomy m.firstMax m.chunkMax content.length := by
    rw [hcontent]
    split
    · exact hroom
    · rwa [Bytes.length_resize]
  have hreached {r : Flat} : r ∈ f.reached [call] ↔ r = f ∨ r = (f.step call).2 := by
    simp [Flat.reached]
  obtain ⟨s₁, t, s', raw', eofPos', hspans, -, hfaults', hpath, hfiled, hspares⟩ :=
    h.completes hfaults hwrite.1 hwrite.2 (fun hstreaming => happ.trans hstreaming) [call] <| by
      intro r hr
      rcases hreached.mp hr with rfl | rfl
      · exact hroom
      · rwa [hstep.2]
  have hspans' : s.Spans mode [call] [(f.step call).1] s₁ t s' := hspans
  refine ⟨s', Spans.truncate_eq (hstep.1 ▸ hspans') h.closed rfl
    (zerosAtOnce_le_limit hroom'.1 s₁), ?_⟩
  have hfiled' : s'.Filed m raw' content eofPos' := hstep.2 ▸ hfiled
  refine hfiled'.sheds hfaults' hpath hroom'' hspares ?_
  constructor
  · exact fun hne => ⟨_, hreached.mpr (.inr rfl), hstep.2.symm ▸ hne⟩
  · rintro ⟨r, hr, hne⟩
    rcases hreached.mp hr with rfl | rfl
    · exact absurd rfl hne
    · rwa [hstep.2] at hne

end Session

open Session

/-- **No stale stamp survives a change of size.** A closed container, in sealed or in streamed
chunks and with anything behind its chunk data, is opened for writing as it is, asked for anything
and closed, without faults and with room for its content. If users were told another size at any
time in between, the raw file ends with the chunk data and both checks find no stamp; if they were
not, what stood behind the chunk data stands there byte for byte. The same holds of a closed
container that is given a new size. Streamed chunks are only opened for appending. -/
theorem stale_stamp_never_survives {s : Session} {m : Metadata} {raw c : Bytes} {eofPos : Nat}
    (h : s.Filed m raw c eofPos) (hfaults : s.faults = []) :
    (∀ mode ∈ [Mode.writeExisting, .append, .appendExisting],
      (m.streaming = true → mode.isAppend = true) → ∀ calls : List Call,
        (∀ f ∈ (Flat.opened mode c).reached calls,
          Layout.Roomy m.firstMax m.chunkMax f.content.length) →
        ∃ s₁ s', Container.openIn mode s = .ok () s₁ ∧
          (do discard (Call.runAll calls); Container.close) s₁ = .ok () s' ∧
          (∀ n, s₁.Reports calls n ↔
            ∃ f ∈ (Flat.opened mode c).reached calls, f.content.length = n) ∧
          s.Sheds s' m raw eofPos ((Flat.opened mode c).run calls).2.content
            (∃ n, s₁.Reports calls n ∧ n ≠ c.length)) ∧
    (m.streaming = true → ∀ mode : Mode, mode.allowsStreaming = false →
      Container.openIn mode s = .error .streamMode s) ∧
    ∀ newSize backup, Layout.Roomy m.firstMax m.chunkMax c.length →
      Layout.Roomy m.firstMax m.chunkMax newSize →
      let shorter := m.streaming = true ∧ newSize < c.length
      let content := if shorter then c else c.resize newSize
      ∃ s', Op.attempt (Container.truncate newSize backup) s
          = .ok (if shorter then .error (.invalidSeek newSize c.length) else .ok ()) s' ∧
        s.Sheds s' m raw eofPos content (content.length ≠ c.length) := by
  refine ⟨?session, ?refused, ?truncate⟩
  case session => exact fun mode hmode happ calls hroom => h.session hfaults hmode happ hroom
  case refused => exact fun hstreaming mode hmode => h.openIn_refused hstreaming hmode
  case truncate =>
    intro newSize backup hroom hroom' shorter content
    exact h.truncate hfaults hroom hroom' backup Iff.rfl rfl

/-- Three bytes in chunks of two, and something behind them. It is gone after the content grew and
got back to its size, and there after the closed container was given the size that it has. -/
theorem stale_stamp_never_survives_regrown :
    ∃ (s : Session) (m : Metadata) (raw : Bytes) (eofPos : Nat),
      s.Filed m raw [1, 2, 3] eofPos ∧ raw.drop eofPos = [9, 0, 1] ∧
      (∃ s₁ s', Container.openIn .writeExisting s = .ok () s₁ ∧
        (do discard (Call.runAll [.truncate 5 false, .truncate 3 true]); Container.close) s₁
          = .ok () s' ∧
        ∀ kind, ∃ t, Container.checkStamp kind s' = .error (.stampFailed .absent) t) ∧
      ∃ s' raw', Op.attempt (Container.truncate 3 false) s = .ok (.ok ()) s' ∧
        s'.disk.read? s.path = some raw' ∧ raw'.drop eofPos = [9, 0, 1] := by
  have hready : Ready (pristine "vault" (Processor.ofConfig ⟨[7]⟩ { chunkMax := 2 }) {}
      (Random.seeded 0)) .append 0 2 [] := .new (vacant_pristine (by decide) rfl rfl rfl)
  obtain ⟨m, raw, ct, e, hkeeps, -, hmaster, hfirst, hchunk⟩ :=
    hready.leaves_file rfl rfl [.write [1, 2, 3]] (by decide)
  obtain ⟨whole, hwhole⟩ :
      ∃ whole, whole = raw.take (m.dataOffset + ct) ++ [9, 0, 1] := ⟨_, rfl⟩
  have hlen : (raw.take (m.dataOffset + ct)).length = m.dataOffset + ct := by
    rw [List.length_take]
    exact Nat.min_eq_left hkeeps.present
  have hlong : m.dataOffset + ct ≤ whole.length := by
    rw [hwhole, List.length_append, hlen]
    exact Nat.le_add_right _ _
  have htake : whole.take (m.dataOffset + ct) = raw.take (m.dataOffset + ct) := by
    rw [hwhole, List.take_left' hlen]
  have hdrop : whole.drop (m.dataOffset + ct) = [9, 0, 1] := by rw [hwhole, List.drop_left' hlen]
  let s : Session :=
    { pristine "vault" (Processor.ofConfig ⟨[7]⟩ { chunkMax := 2 }) {} (Random.seeded 0) with
      disk := { names := [("vault", 0)], files := [whole] } }
  have hwaits : s.Waits m 0 ct e [1, 2, 3] :=
    { closed := rfl, found := rfl, there := Nat.zero_lt_one
      keeps := hkeeps.of_take_eq hlong htake
      master := hmaster.symm, kind := hkeeps.sealed.symm }
  have hfiled : s.Filed m whole [1, 2, 3] (m.dataOffset + ct) := .sealed hwaits
  have hroomy {n : Nat} (hn : Layout.Roomy 0 2 n) : Layout.Roomy m.firstMax m.chunkMax n := by
    rwa [hfirst, hchunk]
  obtain ⟨hsessions, -, htruncates⟩ := stale_stamp_never_survives hfiled rfl
  obtain ⟨s₁, s', hopen, hrun, hreports, hsheds⟩ := hsessions .writeExisting (by decide)
    (by simp [hkeeps.sealed]) [.truncate 5 false, .truncate 3 true]
    fun f hf => hroomy ((show ∀ f ∈ (Flat.opened .writeExisting [1, 2, 3]).reached
      [.truncate 5 false, .truncate 3 true], Layout.Roomy 0 2 f.content.length by decide) f hf)
  obtain ⟨u, hgives, hkept⟩ := htruncates 3 false (hroomy (by decide)) (hroomy (by decide))
  obtain ⟨-, _, _, -, hcut, -⟩ := hsheds
  refine ⟨s, m, whole, _, hfiled, hdrop, ⟨s₁, s', hopen, hrun, (hcut ⟨5, ?_, by decide⟩).2.2.2⟩,
    ?_⟩
  · exact (hreports 5).mpr ⟨_, List.mem_cons_of_mem _ List.mem_cons_self, rfl⟩
  · have hnot : ¬(m.streaming = true ∧ 3 < ([1, 2, 3] : Bytes).length) := by simp
    rw [if_neg hnot] at hgives
    obtain ⟨hpath, raw', _, hfiled', -, hstays⟩ := hkept
    refine ⟨u, raw', hgives, hpath ▸ hfiled'.read?, (hstays ?_).2.trans hdrop⟩
    rw [if_neg hnot]
    decide

end Vault
