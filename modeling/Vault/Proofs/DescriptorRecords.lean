import Vault.Proofs.Metadata

/-!
# `Vault/Proofs/DescriptorRecords.lean` — descriptors that are read back whole

A descriptor ends with a salt whose length stands in the byte in front of it, and nothing may be
missing or follow. **What is accepted is exact** (`Descriptor.codec_exact`): a byte string is a
descriptor exactly if it has the current version and as many bytes as its length byte says, and
then it is what is built from the descriptor that was found. So no descriptor begins another.
-/

set_option autoImplicit false

namespace Vault

namespace Descriptor

variable {data rest : Bytes} {d : Descriptor}

/-! ## What is found

Parsing looks at the bytes in the order of the fields and may stop at each. `parse_eq` says what
decides once the fixed part is there: the version, and how many bytes are announced against how
many there are. -/

/-- The fields that stand in the bytes. -/
def found (data : Bytes) : Descriptor where
  version := data.getD 0 0
  kdf := data.getD 1 0
  suite := data.getD 2 0
  rounds := UInt32.ofNat (Bytes.toNatLE (data.slice 3 4))
  firstMax := UInt32.ofNat (Bytes.toNatLE (data.slice 7 4))
  chunkMax := UInt32.ofNat (Bytes.toNatLE (data.slice 11 4))
  saltLength := data.getD 15 0
  salt := data.slice fixedSize (data.getD 15 0).toNat

/-- The bytes that the length byte calls for. -/
def announced (data : Bytes) : Nat := fixedSize + (data.getD 15 0).toNat

theorem encodedSize_found (h : announced data ≤ data.length) :
    (found data).encodedSize = announced data := by
  simp only [announced, encodedSize, found, Bytes.length_slice] at h ⊢
  omega

/-- Once the version is right, the number of bytes decides. -/
theorem parse_eq (hfixed : fixedSize ≤ data.length) (hversion : data.getD 0 0 = currentVersion) :
    parse data =
      if data.length < announced data then .error .cutShort
      else if announced data < data.length then
        .error (.truncated .descriptor (announced data) data.length)
      else .ok (found data) := by
  unfold parse
  rw [if_neg (Nat.not_lt.mpr hfixed), if_neg (by rw [hversion]; exact fun h => h rfl)]
  -- The bytes are counted twice: against the length byte, and against the salt that was found.
  show (if data.length < announced data then _
    else if (found data).encodedSize ≠ data.length then
      Except.error (RecordError.truncated .descriptor (found data).encodedSize data.length)
    else Except.ok (found data)) = _
  by_cases hshort : data.length < announced data
  · rw [if_pos hshort, if_pos hshort]
  · rw [if_neg hshort, if_neg hshort, encodedSize_found (Nat.le_of_not_lt hshort)]
    by_cases hlong : announced data < data.length
    · rw [if_pos (by omega), if_pos hlong]
    · rw [if_neg (by omega), if_neg hlong]

/-- The fields lie side by side, and the salt behind them. -/
theorem build_found (hfixed : fixedSize ≤ data.length) :
    (found data).build = data.take (announced data) := by
  have hsize : fixedSize = 16 := rfl
  have hword (n : Nat) : (UInt32.ofNat (Bytes.toNatLE (data.slice n 4))).toNat
      = Bytes.toNatLE (data.slice n 4) := by
    rw [UInt32.toNat_ofNat']
    exact Nat.mod_eq_of_lt (Bytes.toNatLE_slice_lt data n 4)
  calc (found data).build
      = data.slice 0 1 ++ data.slice 1 1 ++ data.slice 2 1 ++ data.slice 3 4 ++ data.slice 7 4
          ++ data.slice 11 4 ++ data.slice 15 1 ++ data.slice 16 (data.getD 15 0).toNat := by
        rw [Bytes.slice_one data 0 (by omega), Bytes.slice_one data 1 (by omega),
          Bytes.slice_one data 2 (by omega), Bytes.slice_one data 15 (by omega),
          ← Bytes.ofNatLE_toNatLE_slice data 3 4 (by omega),
          ← Bytes.ofNatLE_toNatLE_slice data 7 4 (by omega),
          ← Bytes.ofNatLE_toNatLE_slice data 11 4 (by omega)]
        simp only [build, found, hword]
        simp [fixedSize]
    _ = data.slice 0 (16 + (data.getD 15 0).toNat) := by
        rw [Bytes.slice_append_slice data 0 1 1, Bytes.slice_append_slice data 0 2 1,
          Bytes.slice_append_slice data 0 3 4, Bytes.slice_append_slice data 0 7 4,
          Bytes.slice_append_slice data 0 11 4, Bytes.slice_append_slice data 0 15 1,
          Bytes.slice_append_slice data 0 16]

/-! ## What is accepted

Both directions of the same fact. A descriptor that was found is built back to the bytes, and
bytes that are built are whole if the two fields that say something of the record are right. -/

/-- The bytes of a descriptor: none is missing and none follows. -/
structure Whole (data : Bytes) : Prop where
  version : data.getD 0 0 = 1
  fixed : 16 ≤ data.length
  size : data.length = 16 + (data.getD 15 0).toNat

theorem Whole.parse_eq_found (h : Whole data) : parse data = .ok (found data) := by
  have hsize : data.length = announced data := h.size
  rw [parse_eq h.fixed h.version, if_neg (by omega), if_neg (by omega)]

theorem Whole.build_found (h : Whole data) : (found data).build = data := by
  rw [Descriptor.build_found h.fixed]
  exact List.take_of_length_le (Nat.le_of_eq h.size)

theorem whole_of_parse (hparse : parse data = .ok d) : Whole data := by
  have hfixed : fixedSize ≤ data.length := by
    refine Nat.le_of_not_lt fun hshort => ?_
    rw [parse, if_pos hshort] at hparse
    cases hparse
  have hversion : data.getD 0 0 = currentVersion := by
    refine Decidable.byContradiction fun hother => ?_
    rw [parse, if_neg (Nat.not_lt.mpr hfixed), if_pos hother] at hparse
    cases hparse
  refine ⟨hversion, hfixed, show data.length = announced data from ?_⟩
  rw [parse_eq hfixed hversion] at hparse
  split at hparse
  · cases hparse
  · split at hparse
    · cases hparse
    · omega

/-- What is built from a descriptor is whole if its version and the length of its salt are right. -/
theorem whole_build_iff :
    Whole d.build ↔ d.version = currentVersion ∧ d.saltLength.toNat = d.salt.length := by
  have hversion : d.build.getD 0 0 = d.version := rfl
  have hlength : d.build.getD 15 0 = d.saltLength := by simp [build, Bytes.ofNatLE]
  have hsize : d.build.length = 16 + d.salt.length := d.length_build
  constructor
  · intro h
    refine ⟨hversion ▸ h.version, ?_⟩
    have hwhole := h.size
    rw [hlength] at hwhole
    omega
  · rintro ⟨hcurrent, hsalt⟩
    exact ⟨hversion.trans hcurrent, by omega, by rw [hlength]; omega⟩

/-- **A descriptor is found in the bytes that are whole and that are built from it.** -/
theorem parse_eq_ok_iff : parse data = .ok d ↔ Whole data ∧ d.build = data := by
  constructor
  · intro hparse
    have hwhole := whole_of_parse hparse
    rw [hwhole.parse_eq_found] at hparse
    obtain rfl := Except.ok.inj hparse
    exact ⟨hwhole, hwhole.build_found⟩
  · rintro ⟨hwhole, rfl⟩
    obtain ⟨hversion, hsalt⟩ := whole_build_iff.mp hwhole
    exact parse_build hversion hsalt

/-! ## What is built -/

theorem new_eq_ok_iff {kdf suite : UInt8} {rounds firstMax chunkMax : UInt32} {salt : Bytes} :
    new kdf suite rounds firstMax chunkMax salt = .ok d ↔ salt.length < 256 ∧
      d = { version := currentVersion, kdf, suite, rounds, firstMax, chunkMax,
            saltLength := UInt8.ofNat salt.length, salt } := by
  unfold new
  constructor
  · intro hnew
    split at hnew
    · next hsmall => exact ⟨hsmall, (Except.ok.inj hnew).symm⟩
    · cases hnew
  · rintro ⟨hsmall, rfl⟩
    exact if_pos hsmall

/-- A new descriptor is read back. -/
theorem parse_build_of_new {kdf suite : UInt8} {rounds firstMax chunkMax : UInt32} {salt : Bytes}
    (h : new kdf suite rounds firstMax chunkMax salt = .ok d) : parse d.build = .ok d := by
  obtain ⟨hsmall, rfl⟩ := new_eq_ok_iff.mp h
  refine parse_build rfl ?_
  show (UInt8.ofNat salt.length).toNat = salt.length
  rw [UInt8.toNat_ofNat']
  exact Nat.mod_eq_of_lt hsmall

/-! ## Too few and too many bytes

What can be wrong with the number of bytes, by comparison with a descriptor that they begin with
or that begins with them. The length byte stands in the fixed part, so it is the same for all of
these. -/

/-- Bytes with the fixed part of a descriptor are judged by how many there are. -/
theorem Whole.parse_of_take {other : Bytes} (h : Whole data) (hfixed : fixedSize ≤ other.length)
    (hfront : other.take fixedSize = data.take fixedSize) :
    parse other =
      if other.length < data.length then .error .cutShort
      else if data.length < other.length then
        .error (.truncated .descriptor data.length other.length)
      else .ok (found other) := by
  have hkept (b : Bytes) {i : Nat} (hi : i < fixedSize) :
      (b.take fixedSize).getD i 0 = b.getD i 0 := by
    simp [List.getD_eq_getElem?_getD, hi]
  have hsame {i : Nat} (hi : i < fixedSize) : other.getD i 0 = data.getD i 0 := by
    rw [← hkept other hi, hfront, hkept data hi]
  have hannounced : announced other = data.length := by
    rw [announced, hsame (by decide)]
    exact h.size.symm
  rw [parse_eq hfixed ((hsame (by decide)).trans h.version), hannounced]

/-- Where bytes are missing, the fixed part is missed first. -/
theorem Whole.parse_take (h : Whole data) {n : Nat} (hn : n < data.length) :
    parse (data.take n) =
      .error (if n < fixedSize then .truncated .descriptor fixedSize n else .cutShort) := by
  have hlen : (data.take n).length = n := by
    rw [List.length_take]
    exact Nat.min_eq_left (Nat.le_of_lt hn)
  by_cases hshort : n < fixedSize
  · rw [if_pos hshort, parse, hlen, if_pos hshort]
  · have hfixed := Nat.le_of_not_lt hshort
    have hfront : (data.take n).take fixedSize = data.take fixedSize := by
      rw [List.take_take, Nat.min_eq_left hfixed]
    rw [if_neg hshort, h.parse_of_take (by omega) hfront, if_pos (by omega)]

/-- What follows a descriptor is not overlooked. -/
theorem Whole.parse_append (h : Whole data) (hrest : rest ≠ []) :
    parse (data ++ rest) =
      .error (.truncated .descriptor data.length (data.length + rest.length)) := by
  have hpos := List.length_pos_iff.mpr hrest
  have hfixed : fixedSize ≤ data.length := h.fixed
  have hlen : (data ++ rest).length = data.length + rest.length := List.length_append
  have hfront : (data ++ rest).take fixedSize = data.take fixedSize :=
    List.take_append_of_le_length hfixed
  rw [h.parse_of_take (by omega) hfront, if_neg (by omega), if_pos (by omega), hlen]

/-- **Descriptors are encoded and decoded exactly.** A new descriptor is made if and only if the
salt's length fits its byte; it takes as many bytes as it says, and is read back. A byte string is
a descriptor if and only if it is whole, and the descriptor is the one from which it is built. So
no part of it that stops early is a descriptor, and nothing longer that begins with it. -/
theorem codec_exact :
    (∀ (kdf suite : UInt8) (rounds firstMax chunkMax : UInt32) (salt : Bytes),
      ((∃ d, new kdf suite rounds firstMax chunkMax salt = .ok d) ↔ salt.length ≤ 255) ∧
      (255 < salt.length → new kdf suite rounds firstMax chunkMax salt
        = .error (.tooLarge .salt salt.length)) ∧
      ∀ d, new kdf suite rounds firstMax chunkMax salt = .ok d →
        (d.version = 1 ∧ d.kdf = kdf ∧ d.suite = suite ∧ d.rounds = rounds ∧
          d.firstMax = firstMax ∧ d.chunkMax = chunkMax ∧ d.salt = salt) ∧
        d.build.length = d.encodedSize ∧ d.encodedSize = 16 + salt.length ∧
        parse d.build = .ok d) ∧
    (∀ data : Bytes, (∃ d, parse data = .ok d) ↔
      data.getD 0 0 = 1 ∧ 16 ≤ data.length ∧ data.length = 16 + (data.getD 15 0).toNat) ∧
    (∀ (data : Bytes) (d : Descriptor), parse data = .ok d →
      d.build = data ∧
      (∀ n, n < data.length → parse (data.take n) =
        .error (if n < 16 then .truncated .descriptor 16 n else .cutShort)) ∧
      ∀ rest, rest ≠ [] → parse (data ++ rest) =
        .error (.truncated .descriptor data.length (data.length + rest.length))) := by
  refine ⟨fun kdf suite rounds firstMax chunkMax salt => ⟨⟨?fits, ?made⟩, ?large, ?back⟩,
    fun data => ⟨?whole, ?accepted⟩, fun data d hparse => ?exact⟩
  case fits =>
    rintro ⟨d, hnew⟩
    exact Nat.le_of_lt_succ (new_eq_ok_iff.mp hnew).1
  case made => exact fun hsmall => ⟨_, new_eq_ok_iff.mpr ⟨Nat.lt_succ_of_le hsmall, rfl⟩⟩
  case large => exact fun hlarge => if_neg (Nat.not_lt.mpr hlarge)
  case back =>
    intro d hnew
    have hparse := parse_build_of_new hnew
    obtain ⟨-, rfl⟩ := new_eq_ok_iff.mp hnew
    exact ⟨⟨rfl, rfl, rfl, rfl, rfl, rfl, rfl⟩, length_build _, rfl, hparse⟩
  case whole =>
    rintro ⟨d, hparse⟩
    have hwhole := whole_of_parse hparse
    exact ⟨hwhole.version, hwhole.fixed, hwhole.size⟩
  case accepted =>
    rintro ⟨hversion, hfixed, hsize⟩
    exact ⟨_, Whole.parse_eq_found ⟨hversion, hfixed, hsize⟩⟩
  case exact =>
    obtain ⟨hwhole, hbuild⟩ := parse_eq_ok_iff.mp hparse
    exact ⟨hbuild, fun _ => hwhole.parse_take, fun _ => hwhole.parse_append⟩

/-- The descriptor with five bytes of salt: it has 21 bytes, is read back, and neither its first 20
bytes nor it with a byte behind it is a descriptor. A salt of 256 bytes is too long. -/
theorem codec_exact_salted :
    ∃ d, new 2 1 10000 64 32 [9, 8, 7, 6, 5] = .ok d ∧ d.build.length = 21 ∧
      parse d.build = .ok d ∧ parse (d.build.take 20) = .error .cutShort ∧
      parse (d.build.take 3) = .error (.truncated .descriptor 16 3) ∧
      parse (d.build ++ [0]) = .error (.truncated .descriptor 21 22) ∧
      new 2 1 10000 64 32 (List.replicate 256 9) = .error (.tooLarge .salt 256) := by
  obtain ⟨hnew, -, hexact⟩ := codec_exact
  obtain ⟨⟨-, hmade⟩, -, hback⟩ := hnew 2 1 10000 64 32 [9, 8, 7, 6, 5]
  obtain ⟨d, hd⟩ := hmade (by decide)
  obtain ⟨-, hlen, hsize, hparse⟩ := hback d hd
  have hlength : d.build.length = 21 := hlen.trans hsize
  obtain ⟨-, hshort, hlong⟩ := hexact d.build d hparse
  have hlarge := (hnew 2 1 10000 64 32 (List.replicate 256 9)).2.1
    (by rw [List.length_replicate]; omega)
  have hone := hlong [0] (by simp)
  rw [hlength] at hone
  rw [List.length_replicate] at hlarge
  exact ⟨d, hd, hlength, hparse, hshort 20 (by omega), hshort 3 (by omega), hone, hlarge⟩

end Descriptor

end Vault
