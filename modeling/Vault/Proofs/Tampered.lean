import Vault.Proofs.Found
import Vault.Proofs.Reopen
import Vault.Proofs.Untrusted

/-!
# `Vault/Proofs/Tampered.lean` — a tampered chunk damages only itself

Somebody replaces sealed chunks of a raw file by others of the same length, which do not open. The
first chunk is not among them, so the container can still be opened. **Whatever is asked of it then,
reads tell the content that was there before, and they fail exactly when they come to a chunk that
was replaced.** A read that failed leaves nothing behind that would make another one fail, and it
leaves the position where it was.

The file is compared with the one it was made from, chunk by chunk (`Metadata.Tampered`), and
becomes a source whose chunks open or are gone. What a container tells that browses such a source is
known already; what is left is to say which reads come to a chunk that is gone (`Layout.Touches`).
-/

set_option autoImplicit false

namespace Vault

/-- A read of so many bytes comes to this chunk of the content. -/
def Layout.Touches (l : Layout) (size pos n seqnum : Nat) : Prop :=
  ∃ p, pos ≤ p ∧ p < pos + n ∧ p < size ∧ l.seqnumOf? p = some seqnum

/-- The source has a content to offer, but for some chunks, which are not authentic. -/
structure Source.Lacks (v : Source) (content : Bytes) (gone : Nat → Prop) : Prop where
  sound : v.Sound
  serves : v.Serves content
  size : v.size = content.length
  opens : ∀ i ≤ v.last, ¬gone i → ∃ plain, v.chunk i = .ok plain
  rejects : ∀ i, gone i → v.chunk i = .error (.crypto (.authentication i))

namespace Metadata

/-- Chunks were replaced by others as long that do not open, and the metadata were not changed. -/
structure Tampered (m : Metadata) (raw raw' : Bytes) (ciphertextSize last : Nat)
    (hit : Nat → Prop) : Prop where
  length : raw'.length = raw.length
  metadata : raw'.take m.dataOffset = raw.take m.dataOffset
  spared : ∀ i ≤ last, ¬hit i →
    m.chunkAt raw' ciphertextSize last i = m.chunkAt raw ciphertextSize last i
  /-- What is replaced is there. -/
  stored : ∀ i, hit i → i ≤ last ∧ 0 < m.storedSize ciphertextSize last i
  rejected : ∀ i, hit i → ∀ plain,
    m.cipher.unpack (m.chunkAt raw' ciphertextSize last i) i ≠ .ok plain

variable {m : Metadata} {raw raw' c : Bytes} {ct last size file : Nat} {hit : Nat → Prop}
  {w : Place} {mode : Mode} {p : Processor}

/-- Anybody can write something into the place of a chunk that does not open there. -/
theorem Stores.tampered (h : m.Stores raw ct last c) {i : Nat} {packed : Bytes} (hi : i ≤ last)
    (hpos : 0 < m.storedSize ct last i) (hlen : packed.length = m.storedSize ct last i)
    (hrejected : ∀ plain, m.cipher.unpack packed i ≠ .ok plain) :
    m.Tampered raw (raw.overlay (m.layout.rawStartOf i) packed) ct last (· = i) := by
  have hend := h.rawStart_add_storedSize_le hi
  have hpresent := h.present
  have hstart := m.layout.dataOffset_le_rawStartOf i
  rw [dataOffset_layout] at hstart
  refine
    { length := ?length, metadata := Bytes.take_overlay hstart (by omega), spared := ?spared
      stored := ?stored, rejected := ?rejected }
  case length =>
    rw [Bytes.length_overlay]
    omega
  case spared =>
    intro j hj hne
    rcases Nat.lt_or_gt_of_ne hne with hlt | hgt
    · have hbefore := Layout.rawStartOf_add_le h.packs (h.reaches.mono hi) hlt
      rw [chunkAt, chunkAt, storedSize_of_lt (Nat.lt_of_lt_of_le hlt hi)]
      exact Bytes.slice_overlay_of_le hbefore (by omega)
    · have hbehind := Layout.rawStartOf_add_le h.packs (h.reaches.mono hj) hgt
      rw [storedSize_of_lt (Nat.lt_of_lt_of_le hgt hj)] at hlen
      exact Bytes.slice_overlay_of_ge (by omega)
  case stored =>
    rintro j rfl
    exact ⟨hi, hpos⟩
  case rejected =>
    rintro j rfl
    rw [chunkAt, ← hlen, Bytes.slice_overlay_self]
    exact hrejected

namespace Tampered

variable {i : Nat}

/-- A chunk that was not replaced opens to its part of the content. -/
theorem chunk_spared (h : m.Tampered raw raw' ct last hit) (hs : m.Stores raw ct last c)
    (hraw : raw' = w.disk.contents file) (hkind : p.config.streaming = m.streaming)
    (hi : i ≤ last) (hspared : ¬hit i) :
    (m.source w file mode p size ct last).chunk i = .ok (m.layout.part c i) :=
  hs.opens_source hraw hkind hi (h.spared i hi hspared)

/-- A chunk that was replaced is not authentic. -/
theorem chunk_hit (h : m.Tampered raw raw' ct last hit) (hs : m.Stores raw ct last c)
    (hraw : raw' = w.disk.contents file) (hkind : p.config.streaming = m.streaming)
    (hhit : hit i) :
    (m.source w file mode p size ct last).chunk i = .error (.crypto (.authentication i)) := by
  obtain ⟨hi, hpos⟩ := h.stored i hhit
  have hlength : ChunkCipher.overhead ≤ (m.chunkAt raw' ct last i).length := by
    have hend := hs.rawStart_add_storedSize_le hi
    have hpresent := hs.present
    have hlen := h.length
    rw [chunkAt, Bytes.length_slice]
    rcases hs.storedSize_eq hi with ⟨hnone, -⟩ | hfull <;> omega
  rw [hs.chunk_source hraw hkind hi hpos, ChunkCipher.unpack_eq_error hlength (h.rejected i hhit)]
  rfl

/-- The sizes are found as they were, since the metadata are those of the content. -/
theorem survey_eq_source (h : m.Tampered raw raw' ct last hit) (hs : m.Keeps raw ct last c)
    (hlast : m.layout.seqnumOf? c.length = some last) (hlength : raw'.length < offsetLimit)
    (hfile : w.disk.find? w.path = some file) (hraw : raw' = w.disk.contents file)
    (hmaster : p.master = m.master) (hkind : p.config.streaming = m.streaming) :
    w.survey mode p = .ok (m.source w file mode p c.length ct last) := by
  have hpresent : m.dataOffset + ct ≤ raw'.length := by
    rw [h.length]
    exact hs.present
  have hle := hs.length_le
  have hsame {start len : Nat} (hend : start + len ≤ m.dataOffset) :
      raw'.slice start len = raw.slice start len := by
    rw [← Bytes.slice_take hend, h.metadata, Bytes.slice_take hend]
  have hdata : m.dataOffset = Header.size + m.descriptor.length := rfl
  refine survey_eq hfile hraw ?_ ?_ hmaster hkind hs.sealed (by omega) hlast hs.rawStart_last_le
    hpresent (by omega)
  · rw [hsame (by omega), hs.header_eq]
  · rw [hsame (by omega), hs.descriptor]

/-- **What is found is the content, but for the chunks that were replaced.** -/
theorem survey (h : m.Tampered raw raw' ct last hit) (hs : m.Keeps raw ct last c)
    (hlast : m.layout.seqnumOf? c.length = some last) (hlength : raw.length < offsetLimit)
    (hfile : w.disk.read? w.path = some raw') (hmaster : p.master = m.master)
    (hkind : p.config.streaming = m.streaming) (hmode : mode.isWrite = false) :
    w.Addressable ∧ ∃ v, w.survey mode p = .ok v ∧ v.layout = m.layout ∧ v.Lacks c hit := by
  obtain ⟨file, hfound, hraw⟩ : ∃ file, w.disk.find? w.path = some file ∧
      w.disk.contents file = raw' := Option.map_eq_some_iff.mp hfile
  have hlength' : raw'.length < offsetLimit := by
    rw [h.length]
    exact hlength
  have haddressable : w.Addressable := by
    intro found hfound'
    obtain rfl : file = found := Option.some.inj (hfound.symm.trans hfound')
    exact hraw ▸ hlength'
  obtain ⟨v, hv⟩ : ∃ v, v = m.source w file mode p c.length ct last := ⟨_, rfl⟩
  have hsource : w.survey mode p = .ok v :=
    hv ▸ h.survey_eq_source hs hlast hlength' hfound hraw.symm hmaster hkind
  have hspared {i : Nat} (hi : i ≤ last) (hnot : ¬hit i) : v.chunk i = .ok (m.layout.part c i) :=
    hv ▸ h.chunk_spared hs.toStores hraw.symm hkind hi hnot
  have hhit {i : Nat} (hi : hit i) : v.chunk i = .error (.crypto (.authentication i)) :=
    hv ▸ h.chunk_hit hs.toStores hraw.symm hkind hi
  have hsound : v.Sound := Place.sound_of_survey hmode hsource haddressable
  refine ⟨haddressable, v, hsource, by rw [hv]; rfl, ?_⟩
  subst hv
  refine
    { sound := hsound
      serves := ⟨hs.start, hs.within, fun i hi content hc => ?_⟩
      size := rfl
      opens := fun i hi hnot => ⟨_, hspared hi hnot⟩
      rejects := fun i => hhit }
  -- What opens was not replaced.
  by_cases hi' : hit i
  · exact absurd ((hhit hi').symm.trans hc) (by simp)
  · exact (Except.ok.inj ((hspared hi hi').symm.trans hc)).symm

end Tampered

end Metadata

/-! ## Roaming

Nothing is assumed of what was asked before a read, or of how it ended: a failed read, a seek behind
the end and a change of the cache settings all lead to a state that browses the same source. Closing
is left out, since a closed container tells nothing. -/

namespace Session

/-- The states that an opened container comes to, whatever is asked of it and whatever of that
fails, until it is closed. -/
inductive Roams (s : Session) : Session → Prop
  | here : Roams s s
  | asked {t : Session} (request : Request) (stays : request ≠ .close) (allowed : request.Allowed)
      (before : Roams s t) : Roams s (request.run.after t)

/-- Of a content some chunks are gone: reads of so many bytes tell what is left of it, and fail
where they come to a chunk that is gone. -/
structure Spares (s : Session) (l : Layout) (content : Bytes) (gone : Nat → Prop) (n : Nat) :
    Prop where
  told : ∀ data t, Container.read n s = .ok data t →
    data = content.slice s.pos n ∧ t.pos = s.pos + data.length
  answers : (∀ i, l.Touches content.length s.pos n i → ¬gone i) →
    ∃ data t, Container.read n s = .ok data t
  fails : (∃ i, l.Touches content.length s.pos n i ∧ gone i) →
    ∃ i t, l.Touches content.length s.pos n i ∧ gone i ∧
      Container.read n s = .error (.crypto (.authentication i)) t
  stays : ∀ e t, Container.read n s = .error e t → t.pos = s.pos

variable {s t : Session} {v : Source}

/-- **A container goes on browsing, whatever is asked of it.** -/
theorem Roams.browses (h : s.Roams t) (hs : s.Browses v) (hv : v.Sound) : t.Browses v := by
  induction h with
  | here => exact hs
  | asked request stays allowed before ih =>
    exact ((request.run_stays ih hv allowed stays).ends.mono (fun _ _ h' => h'.1)
      fun _ _ => id).after

end Session

open Session Container

variable {s : Session} {m : Metadata} {raw raw' c : Bytes} {ct last : Nat} {hit : Nat → Prop}
  {mode : Mode}

/-- **What a container tells that browses a raw file some of whose chunks are gone.** -/
theorem Container.spares_browses {v : Source} {gone : Nat → Prop} (h : s.Browses v)
    (hc : v.Lacks c gone) (hcalm : v.calm = true) (n : Nat) : s.Spares v.layout c gone n := by
  have hends := (read_browses h hc.sound hc.serves n).ends
  have hsize := hc.size
  have hfull : c.take v.size = c := List.take_of_length_le (Nat.le_of_eq hsize.symm)
  -- A read fails only for a chunk that it comes to.
  have hfails {e : Error} {t : Session} (hread : read n s = .error e t) :
      ∃ i, v.layout.Touches c.length s.pos n i ∧ gone i ∧ e = .crypto (.authentication i) := by
    obtain hfaulty | ⟨q, i, ⟨hle, hlt, hin⟩, hnumber, herror⟩ := (hends.of_error hread).excuse
    · exact absurd (hcalm.symm.trans hfaulty) (by simp)
    by_cases hi : gone i
    · refine ⟨i, ⟨q, hle, hlt, hsize ▸ hin, hnumber⟩, hi, ?_⟩
      exact Except.error.inj (herror.symm.trans (hc.rejects i hi))
    · have hlast := Layout.seqnumOf?_mono hnumber hc.sound.last (Nat.le_of_lt hin)
      obtain ⟨content, hok⟩ := hc.opens i hlast hi
      exact absurd (herror.symm.trans hok) (by simp)
  refine ⟨fun data t hread => ?told, fun hnone => ?answers, ?fails, fun e t hread => ?stays⟩
  case told =>
    have hdelivers := hends.of_ok hread
    exact ⟨hfull ▸ hdelivers.gives, hdelivers.seekCursor⟩
  case answers =>
    cases hread : read n s with
    | ok data t => exact ⟨data, t, rfl⟩
    | error e t =>
      obtain ⟨i, htouches, hi, -⟩ := hfails hread
      exact absurd hi (hnone i htouches)
  case fails =>
    rintro ⟨i, ⟨q, hle, hlt, hin, hnumber⟩, hi⟩
    cases hread : read n s with
    | ok data t =>
      -- All chunks that it came to did open.
      have hdelivers := hends.of_ok hread
      have hlength := congrArg List.length (hfull ▸ hdelivers.gives)
      rw [Bytes.length_slice] at hlength
      have hcursor := hdelivers.seekCursor
      obtain ⟨j, content, hnumber', hok⟩ := hdelivers.opened q hle (by
        change s.seekCursor ≤ q at hle
        change q < s.seekCursor + n at hlt
        omega)
      obtain rfl : i = j := Option.some.inj (hnumber.symm.trans hnumber')
      exact absurd ((hc.rejects i hi).symm.trans hok) (by simp)
    | error e t =>
      obtain ⟨j, htouches, hj, rfl⟩ := hfails hread
      exact ⟨j, t, htouches, hj, rfl⟩
  case stays => exact (hends.of_error hread).seekCursor

/-- **A tampered chunk damages only itself.** A raw file of which chunks were replaced, but not the
first, can be opened; and then, whatever is asked and fails before, every read tells the content
that was there, or fails because it comes to a chunk that was replaced. -/
theorem Metadata.Tampered.damages_itself {e : Nat} (h : m.Tampered raw raw' ct last hit)
    (hkeeps : m.Keeps raw ct e c) (hlast : m.layout.seqnumOf? c.length = some last)
    (hlength : raw.length < offsetLimit) (hfirst : ¬hit 0) (hs : s.Confronts m raw')
    (hmode : mode.isWrite = false) :
    ∃ t, openIn mode s = .ok () t ∧ ∀ u, t.Roams u → ∀ n, u.Spares m.layout c hit n := by
  obtain ⟨-, v, hfind, hlayout, hv⟩ := h.survey (w := ⟨s.disk, s.path, true⟩)
    (hkeeps.reach hlast) hlast hlength hs.file hs.master hs.kind hmode
  have hcalm : v.calm = true := congrArg Place.calm (Place.toPlace_of_survey hfind)
  obtain ⟨-, t, hopen, ht, -⟩ := hs.opens hkeeps.sealed hmode (h.length ▸ hlength) hfind
    (hv.opens 0 (Nat.zero_le _) hfirst)
  exact ⟨t, hopen, fun u hu n => hlayout ▸ spares_browses (hu.browses ht hv.sound) hv hcalm n⟩

/-- Three bytes in chunks of two: the second chunk is given another tag. -/
theorem Session.damages_itself_retagged :
    ∃ (s : Session) (l : Layout),
      (∃ t, openIn .read s = .ok () t ∧
        ∀ u, t.Roams u → ∀ n, u.Spares l [1, 2, 3] (· = 1) n) ∧
      l.Touches 3 0 3 1 ∧ ¬l.Touches 3 0 2 1 := by
  have hready : Ready (pristine "vault" (Processor.ofConfig ⟨[7]⟩ { chunkMax := 2 }) {}
      (Random.seeded 0)) .append 0 2 [] := .new (vacant_pristine (by decide) rfl rfl rfl)
  obtain ⟨m, raw, ct, e, hkeeps, hlength, hmaster, hfirst, hchunk⟩ :=
    hready.leaves_file rfl rfl [.write [1, 2, 3]] (by decide)
  have hnumber (p : Nat) : m.layout.seqnumOf? p = (Layout.ofSizes 0 2 0 0).seqnumOf? p := by
    rw [← hfirst, ← hchunk]
    rfl
  have hlast : m.layout.seqnumOf? 3 = some 1 := by
    rw [hnumber]
    decide
  have hk : m.Keeps raw ct 1 [1, 2, 3] := hkeeps.reach hlast
  have hpart : (m.layout.part [1, 2, 3] 1).length = 1 := by
    have hstart : m.layout.startOf 1 = 2 := by
      show (Layout.ofSizes m.firstMax m.chunkMax _ _).startOf 1 = 2
      rw [hfirst, hchunk]
      rfl
    rw [hk.length_part_last, hstart]
    rfl
  have hstored : m.storedSize ct 1 1 = 29 := by
    rcases hk.storedSize_eq (Nat.le_refl 1) with ⟨-, hempty⟩ | hfull
    · rw [hempty] at hpart
      exact absurd hpart (by simp)
    · rw [hfull, hpart]
      rfl
  obtain ⟨packed, hpacked⟩ : ∃ packed, packed = raw.slice (m.layout.rawStartOf 1) 29 := ⟨_, rfl⟩
  have hopens := hk.opens 1 (Nat.le_refl 1) (by omega)
  rw [hstored, ← hpacked] at hopens
  have hsize : packed.length = 29 := by
    have hend := hk.rawStart_add_storedSize_le (Nat.le_refl 1)
    have hpresent := hk.present
    rw [hpacked, Bytes.length_slice]
    omega
  -- The tag of the second chunk is changed in the file that was written.
  obtain ⟨other, hother, hrejected⟩ := ChunkCipher.exists_rejected hopens
  have htampered := hk.tampered (Nat.le_refl 1) (by omega) (by rw [hother, hsize, hstored])
    hrejected
  obtain ⟨raw', hraw'⟩ : ∃ raw', raw' = raw.overlay (m.layout.rawStartOf 1) other := ⟨_, rfl⟩
  rw [← hraw'] at htampered
  let s : Session :=
    { pristine "vault" (Processor.ofConfig ⟨[7]⟩ { chunkMax := 2 }) {} (Random.seeded 0) with
      disk := { names := [("vault", 0)], files := [raw'] } }
  have hs : s.Confronts m raw' := confronts_pristine hmaster.symm hk.sealed.symm
  refine ⟨s, m.layout, htampered.damages_itself hkeeps hlast hlength (by decide) hs rfl, ?_, ?_⟩
  · exact ⟨2, by decide, by decide, by decide, by rw [hnumber]; decide⟩
  · rintro ⟨q, -, hlt, -, hq⟩
    rw [hnumber] at hq
    obtain rfl | rfl : q = 0 ∨ q = 1 := by omega
    · exact absurd hq (by decide)
    · exact absurd hq (by decide)

end Vault
