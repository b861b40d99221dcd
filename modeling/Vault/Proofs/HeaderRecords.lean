import Vault.Container.Opening
import Vault.Proofs.Chunks
import Vault.Proofs.Metadata

/-!
# `Vault/Proofs/HeaderRecords.lean` — headers that are read back

A header is described four times over: by what is built, by what is parsed from the start of a
byte string, by what is read at an offset of one, and by the two places in it that an open container
overwrites. **All four are one layout** (`Header.descriptions_agree`): the byte strings that parse
are those that begin with what is built from a header of the current version, reading finds the same
headers and the same faults, and overwriting the places changes the two sizes and nothing else.

A fault has a place, which is that of the field where it was found. Parsing tells the fault, and
reading tells the place as well; `Header.Refused` has both, so that the two can be compared.
-/

set_option autoImplicit false

namespace Vault

namespace Header

variable {data rest : Bytes} {h : Header}

/-! ## What parses

A header has a fixed size and its fields have fixed places. So what parses is told by four facts
about bytes: there are enough, the magic and the version are right, and the other fields are the
numbers that stand there. -/

/-- The magic of one kind of container. -/
def magicOf (streaming : Bool) : Bytes := if streaming then streamMagic else sealedMagic

theorem ofMagic_eq_ok_iff {magic : Bytes} {streaming : Bool} :
    ofMagic magic = .ok streaming ↔ magic = magicOf streaming := by
  constructor
  · intro hmagic
    unfold ofMagic at hmagic
    split at hmagic
    · next hsealed =>
      obtain rfl := Except.ok.inj hmagic
      exact hsealed
    · split at hmagic
      · next hstream =>
        obtain rfl := Except.ok.inj hmagic
        exact hstream
      · exact absurd hmagic (by simp)
  · rintro rfl
    cases streaming <;> rfl

theorem ofMagic_eq_error_iff {magic : Bytes} {cause : RecordError} :
    ofMagic magic = .error cause ↔
      (∀ streaming, magic ≠ magicOf streaming) ∧ cause = .magic magic := by
  constructor
  · intro hmagic
    refine ⟨fun streaming hsame => ?_, ?_⟩
    · rw [ofMagic_eq_ok_iff.mpr hsame] at hmagic
      exact absurd hmagic (by simp)
    · unfold ofMagic at hmagic
      split at hmagic
      · exact absurd hmagic (by simp)
      · split at hmagic
        · exact absurd hmagic (by simp)
        · exact (Except.error.inj hmagic).symm
  · rintro ⟨hne, rfl⟩
    exact (if_neg (hne false)).trans (if_neg (hne true))

/-- A header of the current version is built as it stands in a file. -/
theorem build_eq_written (hversion : h.version = currentVersion) :
    h.build = written h.streaming h.descriptorSize.toNat h.plaintextSize.toNat
      h.ciphertextSize.toNat := by
  simp [build, written, head, hversion]

theorem parse_build (hversion : h.version = currentVersion) : parse h.build = .ok h := by
  rw [build_eq_written hversion, parse_written h.descriptorSize.toNat_lt h.plaintextSize.toNat_lt
    h.ciphertextSize.toNat_lt, UInt16.ofNat_toNat, UInt64.ofNat_toNat, UInt64.ofNat_toNat,
    ← hversion]

/-- What follows a header is not looked at. -/
theorem parse_append (hlen : size ≤ data.length) (rest : Bytes) :
    parse (data ++ rest) = parse data := by
  have hsize : size = 22 := rfl
  have hplain : plaintextAt = 6 := rfl
  have hcipher : ciphertextAt = 14 := rfl
  have hversion : (data ++ rest).getD 3 0 = data.getD 3 0 := by
    rw [List.getD_eq_getElem?_getD, List.getElem?_append_left (by omega),
      List.getD_eq_getElem?_getD]
  unfold parse
  rw [if_neg (by rw [List.length_append]; omega), if_neg (by omega),
    List.take_append_of_le_length (by omega), hversion, Bytes.slice_append_of_le (by omega),
    Bytes.slice_append_of_le (by omega), Bytes.slice_append_of_le (by omega)]

/-- The fields of what parses, where they stand. -/
theorem fields_of_parse (hparse : parse data = .ok h) : size ≤ data.length ∧
    data.take 3 = magicOf h.streaming ∧ data.getD 3 0 = currentVersion ∧
    h = { streaming := h.streaming, version := currentVersion
          descriptorSize := UInt16.ofNat (Bytes.toNatLE (Bytes.slice data 4 2))
          plaintextSize := UInt64.ofNat (Bytes.toNatLE (Bytes.slice data plaintextAt 8))
          ciphertextSize := UInt64.ofNat (Bytes.toNatLE (Bytes.slice data ciphertextAt 8)) } := by
  unfold parse at hparse
  split at hparse
  · exact absurd hparse (by simp)
  · next hlen =>
    split at hparse
    · exact absurd hparse (by simp)
    · next streaming hmagic =>
      dsimp only at hparse
      split at hparse
      · exact absurd hparse (by simp)
      · next hversion =>
        have hversion : data.getD 3 0 = currentVersion := Decidable.not_not.mp hversion
        obtain rfl := Except.ok.inj hparse
        exact ⟨Nat.le_of_not_lt hlen, ofMagic_eq_ok_iff.mp hmagic, hversion, by rw [hversion]⟩

/-- What parses begins with what is built. -/
theorem build_of_parse (hparse : parse data = .ok h) :
    h.version = currentVersion ∧ h.build = data.take size := by
  obtain ⟨hlen, hmagic, hversion, hfields⟩ := fields_of_parse hparse
  have hsize : size = 22 := rfl
  have hword {n : Nat} (hn : n < 65536) : (UInt16.ofNat n).toNat = n := by
    rw [UInt16.toNat_ofNat']
    exact Nat.mod_eq_of_lt hn
  have hlong {n : Nat} (hn : n < offsetLimit) : (UInt64.ofNat n).toNat = n := by
    rw [UInt64.toNat_ofNat']
    exact Nat.mod_eq_of_lt hn
  refine ⟨by rw [hfields], ?_⟩
  -- The fields lie side by side and fill the record.
  calc h.build
      = data.slice 0 3 ++ data.slice 3 1 ++ data.slice 4 2 ++ data.slice 6 8
          ++ data.slice 14 8 := by
        rw [Bytes.slice_one data 3 (by omega), hversion,
          ← Bytes.ofNatLE_toNatLE_slice data 4 2 (by omega),
          ← Bytes.ofNatLE_toNatLE_slice data 6 8 (by omega),
          ← Bytes.ofNatLE_toNatLE_slice data 14 8 (by omega),
          show data.slice 0 3 = magicOf h.streaming from hmagic, hfields, build,
          hword (Bytes.toNatLE_slice_lt data 4 2),
          hlong (Bytes.toNatLE_slice_lt data plaintextAt 8),
          hlong (Bytes.toNatLE_slice_lt data ciphertextAt 8)]
        simp [magicOf, plaintextAt, ciphertextAt]
    _ = data.take size := by
        rw [Bytes.slice_append_slice data 0 3 1, Bytes.slice_append_slice data 0 4 2,
          Bytes.slice_append_slice data 0 6 8, Bytes.slice_append_slice data 0 14 8]
        rfl

/-- **What parses is what is built from a header of the current version, and what follows it.** -/
theorem parse_eq_ok_iff :
    parse data = .ok h ↔ h.version = currentVersion ∧ ∃ rest, data = h.build ++ rest := by
  constructor
  · intro hparse
    obtain ⟨hversion, hbuild⟩ := build_of_parse hparse
    exact ⟨hversion, data.drop size, by rw [hbuild, List.take_append_drop]⟩
  · rintro ⟨hversion, rest, rfl⟩
    rw [parse_append (Nat.le_of_eq h.length_build.symm), parse_build hversion]

/-! ## What is refused

Only two fields can be wrong. The magic is looked at first, so a version is the fault only where
the magic is right. -/

/-- What is wrong with bytes that are enough for a header, and at which place of it. The version is
looked at only if the magic is right. -/
inductive Refused (data : Bytes) : Nat → RecordError → Prop where
  | magic (hmagic : ∀ streaming, data.take 3 ≠ magicOf streaming) :
    Refused data 0 (.magic (data.take 3))
  | version (streaming : Bool) (hmagic : data.take 3 = magicOf streaming)
    (hversion : data.getD 3 0 ≠ currentVersion) :
    Refused data 3 (.headerVersion (data.getD 3 0))

/-- **What is long enough and does not parse is refused for its magic or its version.** -/
theorem parse_eq_error_iff (hlen : size ≤ data.length) {cause : RecordError} :
    parse data = .error cause ↔ ∃ place, Refused data place cause := by
  unfold parse
  rw [if_neg (Nat.not_lt.mpr hlen)]
  cases hmagic : ofMagic (data.take 3) with
  | error e =>
    obtain ⟨hne, rfl⟩ := ofMagic_eq_error_iff.mp hmagic
    constructor
    · rintro ⟨⟩
      exact ⟨0, .magic hne⟩
    · rintro ⟨_, hrefused⟩
      cases hrefused with
      | magic _ => rfl
      | version streaming hsame _ => exact absurd hsame (hne streaming)
  | ok streaming =>
    have hsame := ofMagic_eq_ok_iff.mp hmagic
    dsimp only
    split
    · next hversion =>
      constructor
      · rintro ⟨⟩
        exact ⟨3, .version streaming hsame hversion⟩
      · rintro ⟨_, hrefused⟩
        cases hrefused with
        | magic hne => exact absurd hsame (hne streaming)
        | version _ _ _ => rfl
    · next hversion =>
      constructor
      · rintro ⟨⟩
      · rintro ⟨_, hrefused⟩
        cases hrefused with
        | magic hne => exact absurd hsame (hne streaming)
        | version _ _ hne => exact absurd hne hversion

/-! ## Reading at an offset

Reading takes the fields off the bytes one by one and counts up the position. It is compared with
parsing what is left of the bytes from the offset on. -/

variable {offset place : Nat} {cause : RecordError}

theorem take_eq {position n : Nat} (h : position + n ≤ data.length) :
    take data position n = .ok (data.slice position n, position + n) := if_pos h

/-- A header that parses is read, and nothing behind it. -/
theorem read_of_parse (hparse : parse (data.drop offset) = .ok h) :
    read data offset = .ok (h, offset + size) := by
  obtain ⟨hlen, hmagic, hversion, hfields⟩ := fields_of_parse hparse
  have hsize : size = 22 := rfl
  rw [List.length_drop, hsize] at hlen
  have hofMagic : ofMagic (data.slice offset 3) = .ok h.streaming := ofMagic_eq_ok_iff.mpr hmagic
  have hone : data.slice (offset + 3) 1 = [currentVersion] := by
    rw [Bytes.slice_one data _ (by omega), ← Bytes.getD_drop, hversion]
  simp only [Bytes.slice_drop, plaintextAt, ciphertextAt] at hfields
  unfold read
  rw [take_eq (by omega)]
  simp only [bind, Except.bind, hofMagic, mapError_ok]
  rw [take_eq (by omega)]
  simp only [hone, List.headD_cons, ne_eq, not_true_eq_false, if_false]
  rw [take_eq (by omega)]
  dsimp only
  rw [take_eq (by omega)]
  dsimp only
  rw [take_eq (by omega)]
  exact congrArg (fun h => Except.ok (h, offset + 22)) hfields.symm

/-- What is refused is refused at an offset too, and nothing behind the fault is looked at. -/
theorem read_of_refused (hlen : offset + size ≤ data.length)
    (hrefused : Refused (data.drop offset) place cause) :
    read data offset = .error (.field (offset + place) cause) := by
  have hsize : size = 22 := rfl
  unfold read
  rw [take_eq (by omega)]
  cases hrefused with
  | magic hne =>
    have hofMagic := ofMagic_eq_error_iff.mpr ⟨hne, rfl⟩
    simp only [bind, Except.bind, show data.slice offset 3 = (data.drop offset).take 3 from rfl,
      hofMagic]
    rfl
  | version streaming hmagic hne =>
    have hofMagic : ofMagic (data.slice offset 3) = .ok streaming := ofMagic_eq_ok_iff.mpr hmagic
    have hone := Bytes.slice_one data (offset + 3) (by omega)
    rw [Bytes.getD_drop] at hne ⊢
    simp only [bind, Except.bind, hofMagic, mapError_ok]
    rw [take_eq (by omega)]
    simp only [hone, List.headD_cons, if_pos hne]
    rfl

/-- Where there are bytes enough, a header is read that parses or a fault that refuses it. -/
theorem read_cases (hlen : offset + size ≤ data.length) :
    (∃ h, parse (data.drop offset) = .ok h ∧ read data offset = .ok (h, offset + size)) ∨
    ∃ place cause, Refused (data.drop offset) place cause ∧
      read data offset = .error (.field (offset + place) cause) := by
  have hdrop : size ≤ (data.drop offset).length := by
    rw [List.length_drop]
    omega
  cases hparse : parse (data.drop offset) with
  | ok h => exact .inl ⟨h, rfl, read_of_parse hparse⟩
  | error cause =>
    obtain ⟨place, hrefused⟩ := (parse_eq_error_iff hdrop).mp hparse
    exact .inr ⟨place, cause, hrefused, read_of_refused hlen hrefused⟩

/-- **Reading finds the headers that parse,** and ends behind them. -/
theorem read_eq_ok_iff (hlen : offset + size ≤ data.length) {position : Nat} :
    read data offset = .ok (h, position) ↔
      parse (data.drop offset) = .ok h ∧ position = offset + size := by
  constructor
  · intro hread
    rcases read_cases hlen with ⟨found, hparse, hfound⟩ | ⟨place, cause, -, hfault⟩
    · rw [hfound] at hread
      cases hread
      exact ⟨hparse, rfl⟩
    · rw [hfault] at hread
      cases hread
  · rintro ⟨hparse, rfl⟩
    exact read_of_parse hparse

/-- **Reading finds the faults for which headers are refused,** where they are. -/
theorem read_eq_error_iff (hlen : offset + size ≤ data.length) {e : ReadError} :
    read data offset = .error e ↔
      ∃ place cause, Refused (data.drop offset) place cause ∧
        e = .field (offset + place) cause := by
  constructor
  · intro hread
    rcases read_cases hlen with ⟨found, -, hfound⟩ | ⟨place, cause, hrefused, hfault⟩
    · rw [hfound] at hread
      cases hread
    · rw [hfault] at hread
      cases hread
      exact ⟨place, cause, hrefused, rfl⟩
  · rintro ⟨place, cause, hrefused, rfl⟩
    exact read_of_refused hlen hrefused

/-! ## Overwriting the sizes

The two sizes are overwritten where they stand, without parsing what is there. As the new bytes
have the length of the old ones, nothing behind them moves. -/

/-- The two sizes are where an open container puts them. -/
theorem overlay_written (streaming : Bool) (n x y x' y' : Nat) (rest : Bytes) :
    ((written streaming n x y ++ rest).overlay plaintextAt (Bytes.ofNatLE 8 x')).overlay
      ciphertextAt (Bytes.ofNatLE 8 y') = written streaming n x' y' ++ rest := by
  have hplain : plaintextAt = (head streaming n).length := by simp [plaintextAt]
  have hcipher : ciphertextAt = (head streaming n ++ Bytes.ofNatLE 8 x').length := by
    simp [ciphertextAt]
  rw [written, written, List.append_assoc, List.append_assoc, hplain,
    Bytes.overlay_middle (by simp), ← List.append_assoc (head streaming n), hcipher,
    Bytes.overlay_middle (by simp)]
  simp only [List.append_assoc]

/-- **Overwriting the two places changes the two sizes, and nothing else.** -/
theorem parse_overlay (hparse : parse data = .ok h) (x y : UInt64) :
    parse ((data.overlay plaintextAt (Bytes.ofNatLE 8 x.toNat)).overlay ciphertextAt
      (Bytes.ofNatLE 8 y.toNat)) = .ok { h with plaintextSize := x, ciphertextSize := y } := by
  obtain ⟨hversion, rest, rfl⟩ := parse_eq_ok_iff.mp hparse
  refine parse_eq_ok_iff.mpr ⟨hversion, rest, ?_⟩
  rw [build_eq_written hversion, overlay_written]
  let h' : Header := { h with plaintextSize := x, ciphertextSize := y }
  exact congrArg (· ++ rest) (build_eq_written (h := h') hversion).symm

end Header

namespace Container

open Session

variable {s : Session} {p : Handle} {full : Prop}

/-- An open container that writes its sizes lays them over these places. -/
theorem writeSize_overlays (hp : s.handle = some p) (hw : p.writable = true)
    (hfile : p.file < s.disk.files.length) (hdirty : s.sizeDirty = true) :
    writeSize.Does full s
      (fun _ s' => s'.disk.contents p.file
        = ((s.disk.contents p.file).overlay Header.plaintextAt (Bytes.ofNatLE 8 s.size)).overlay
            Header.ciphertextAt (Bytes.ofNatLE 8 s.ciphertextSize))
      fun _ => True := by
  have hne (n : Nat) : Bytes.ofNatLE 8 n ≠ [] := by simp [Bytes.ofNatLE]
  unfold writeSize
  refine Op.Does.get_bind (Op.Does.when (fun _ => ?_) fun hclean => absurd hdirty hclean)
  refine Op.Does.bind ((writeAtHandle_does hp hw Header.plaintextAt (hne s.size)).mono
    (fun _ _ => id) fun _ _ => trivial) ?_
  rintro - - ⟨y, rfl⟩
  have hy := handle_beside (s := s.withContents p.file ((s.disk.contents p.file).overlay
    Header.plaintextAt (Bytes.ofNatLE 8 s.size))) hp y
  refine Op.Does.bind ((writeAtHandle_does hy hw Header.ciphertextAt (hne s.ciphertextSize)).mono
    (fun _ _ => id) fun _ _ => trivial) ?_
  rintro - - ⟨z, rfl⟩
  refine Op.Does.modify rfl ?_
  simp only [withContents, beside, Disk.contents_setContents hfile]
  exact Disk.contents_setContents (by simpa [Disk.setContents] using hfile) _

/-- **The header of an open container that wrote its sizes has these sizes, and is otherwise what it
was.** -/
theorem parse_writeSize (hp : s.handle = some p) (hw : p.writable = true)
    (hdirty : s.sizeDirty = true) (hfaults : s.faults = []) {h : Header}
    (hparse : Header.parse (s.disk.contents p.file) = .ok h) :
    ∃ s', writeSize s = .ok () s' ∧ Header.parse (s'.disk.contents p.file) = .ok
      { h with plaintextSize := .ofNat s.size, ciphertextSize := .ofNat s.ciphertextSize } := by
  have hfile : p.file < s.disk.files.length := by
    refine Nat.lt_of_not_le fun hnone => ?_
    -- a file that is not there would have no header
    have hempty : s.disk.contents p.file = [] := by
      simp [Disk.contents, List.getD_eq_getElem?_getD, List.getElem?_eq_none hnone]
    rw [hempty] at hparse
    exact absurd hparse (by simp [Header.parse, Header.size])
  have hword (n : Nat) : Bytes.ofNatLE 8 (UInt64.ofNat n).toNat = Bytes.ofNatLE 8 n := by
    rw [UInt64.toNat_ofNat']
    exact Bytes.ofNatLE_mod 8 n
  have hdoes : writeSize.Does False s _ _ := writeSize_overlays hp hw hfile hdirty
  obtain ⟨⟨⟩, s', hrun, -, hcontents⟩ := hdoes.answers hfaults id
  have hover := Header.parse_overlay hparse (.ofNat s.size) (.ofNat s.ciphertextSize)
  rw [hword, hword] at hover
  exact ⟨s', hrun, by rw [hcontents, hover]⟩

end Container

namespace Header

/-- **The four descriptions of a header agree.** What is built has 22 bytes, and parses if it has
the current version, whatever follows it. What parses begins with what is built from it. At every
offset with enough bytes behind it, reading finds the header that parses there and ends behind it,
or else finds the same fault, one of the magic before one of the version. And overwriting the eight
bytes at 6 and those at 14, as an open container does that writes its sizes, changes these sizes
and nothing else. -/
theorem descriptions_agree :
    (∀ h : Header, h.build.length = 22 ∧
      (h.version = 1 → ∀ rest, parse (h.build ++ rest) = .ok h)) ∧
    (∀ (data : Bytes) (h : Header), parse data = .ok h →
      h.version = 1 ∧ h.build = data.take 22) ∧
    (∀ (data : Bytes) (offset : Nat), offset + 22 ≤ data.length →
      (∀ h position, read data offset = .ok (h, position) ↔
        parse (data.drop offset) = .ok h ∧ position = offset + 22) ∧
      (∀ cause, parse (data.drop offset) = .error cause ↔
        ∃ place, Refused (data.drop offset) place cause) ∧
      (∀ e, read data offset = .error e ↔
        ∃ place cause, Refused (data.drop offset) place cause ∧
          e = .field (offset + place) cause)) ∧
    (∀ (data : Bytes) (h : Header) (x y : UInt64), parse data = .ok h →
      parse ((data.overlay 6 (Bytes.ofNatLE 8 x.toNat)).overlay 14 (Bytes.ofNatLE 8 y.toNat))
        = .ok { h with plaintextSize := x, ciphertextSize := y }) ∧
    (∀ (s : Session) (p : Handle) (h : Header), s.handle = some p → p.writable = true →
      s.sizeDirty = true → s.faults = [] → parse (s.disk.contents p.file) = .ok h →
      ∃ s', Container.writeSize s = .ok () s' ∧ parse (s'.disk.contents p.file) = .ok
        { h with plaintextSize := .ofNat s.size, ciphertextSize := .ofNat s.ciphertextSize }) := by
  refine ⟨fun h => ⟨h.length_build, fun hversion rest => ?built⟩, fun _ _ => build_of_parse,
    fun data offset hlen => ⟨fun _ _ => read_eq_ok_iff hlen, fun _ => ?refused,
      fun _ => read_eq_error_iff hlen⟩, fun _ _ x y hparse => parse_overlay hparse x y,
    fun _ _ _ hp hw hdirty hfaults => Container.parse_writeSize hp hw hdirty hfaults⟩
  case built => exact parse_eq_ok_iff.mpr ⟨hversion, rest, rfl⟩
  case refused =>
    refine parse_eq_error_iff ?_
    rw [List.length_drop, show size = 22 from rfl]
    omega

/-- The header of a streaming container, behind three other bytes and in front of two: it is read at
its offset, with its version changed it is refused there, and an open container that has it in its
file overwrites its sizes. -/
theorem descriptions_agree_streaming :
    let h := Header.new true 40 0
    let data := [7, 7, 7] ++ (h.build ++ [9, 9])
    let foreign := [7, 7, 7] ++ (h.build.set 3 2 ++ [9, 9])
    let s : Session :=
      { path := "vault", processor := Processor.ofConfig ⟨[7]⟩ {}, config := {}
        pool := Pool.new 8, handle := some ⟨0, 0, true⟩, size := 1234, ciphertextSize := 5678
        sizeDirty := true, disk := { files := [h.build ++ [9, 9]] }, random := Random.seeded 0 }
    read data 3 = .ok (h, 25) ∧ read foreign 3 = .error (.field 6 (.headerVersion 2)) ∧
    parse (((h.build ++ [9, 9]).overlay 6 (Bytes.ofNatLE 8 1234)).overlay 14
      (Bytes.ofNatLE 8 5678)) = .ok { h with plaintextSize := 1234, ciphertextSize := 5678 } ∧
    ∃ s', Container.writeSize s = .ok () s' ∧ parse (s'.disk.contents 0)
      = .ok { h with plaintextSize := 1234, ciphertextSize := 5678 } := by
  intro h data foreign s
  obtain ⟨hbuilt, -, hreads, hpatched, hcontainer⟩ := descriptions_agree
  have hparse : parse (h.build ++ [9, 9]) = .ok h := (hbuilt h).2 rfl [9, 9]
  have hversion : Refused (foreign.drop 3) 3 (.headerVersion 2) := .version true rfl (by decide)
  exact ⟨((hreads data 3 (by decide)).1 h 25).mpr ⟨hparse, rfl⟩,
    ((hreads foreign 3 (by decide)).2.2 _).mpr ⟨3, _, hversion, rfl⟩,
    hpatched _ h 1234 5678 hparse, hcontainer s ⟨0, 0, true⟩ h rfl rfl rfl rfl hparse⟩

end Header

end Vault
