import Vault.Error
import Vault.Hash.Stamping
import Vault.Proofs.Bytes
import Vault.Record.Stamp

/-!
# `Vault/Proofs/StampRecords.lean` — stamps that are read back

A stamp is read from whatever stands behind the chunk data, so reading it has to be exact: **the
records that are read are those that were built from a valid stamp** (`parse_eq_ok_iff`), and what
stands behind a container holds a stamp only if it begins with the length of such a record and the
record itself (`ofTail_eq_ok_iff`). Setting a field keeps a stamp valid and leaves the other field
alone.
-/

set_option autoImplicit false

namespace Vault

/-! ## Answers taken apart

A record is read by one check after the other. Each lemma here takes one of them from the front
of an answer that came. -/

section
variable {ε α β : Type} {x y : Except ε β} {e : ε} {b : β}

theorem except_ok_of_bind {x : Except ε α} {f : α → Except ε β} (h : (x >>= f) = .ok b) :
    ∃ a, x = .ok a ∧ f a = .ok b := by
  cases x with
  | ok a => exact ⟨a, rfl, h⟩
  | error e => exact absurd h (by simp [bind, Except.bind])

/-- An answer that got past a check in front of it. -/
theorem except_ok_of_unless {c : Prop} [Decidable c] {f : α → Except ε β}
    (h : (if c then MonadExcept.throw e >>= f else y) = .ok b) : ¬c ∧ y = .ok b := by
  by_cases hc : c
  · rw [if_pos hc] at h
    obtain ⟨_, ⟨⟩, -⟩ := except_ok_of_bind h
  · exact ⟨hc, by rwa [if_neg hc] at h⟩

/-- An answer is what it was before an error would have been renamed. -/
theorem except_ok_of_mapError {ε' : Type} {f : ε → ε'} (h : x.mapError f = .ok b) : x = .ok b := by
  cases x with
  | ok a => exact congrArg _ (Except.ok.inj h)
  | error e => exact absurd h nofun

end

namespace Stamp

variable {s s' : Stamp} {kind other : StampKind} {value record tail : Bytes}

/-! ## Flags

The two flags are bits of one byte, and everything about them is found by trying all 256. -/

/-- What holds of every byte can be found out by looking at all of them. -/
theorem forall_flags {P : UInt8 → Prop} (h : ∀ i : Fin 256, P (.ofFin i)) (flags : UInt8) :
    P flags := h flags.toFin

/-- The flag of a field. -/
def flag : StampKind → UInt8
  | .digest => digestFlag
  | .mac => macFlag

theorem known_or (kind : StampKind) (flags : UInt8)
    (h : flags &&& ~~~(digestFlag ||| macFlag) = 0) :
    (flags ||| flag kind) &&& ~~~(digestFlag ||| macFlag) = 0 := by
  revert flags
  cases kind <;> exact forall_flags (by decide +kernel)

theorem or_flag_ne_zero (kind : StampKind) (flags : UInt8) :
    (flags ||| flag kind) &&& flag kind ≠ 0 := by
  revert flags
  cases kind <;> exact forall_flags (by decide +kernel)

/-- Setting a flag leaves the other one alone. -/
theorem or_flag_of_ne (h : other ≠ kind) (flags : UInt8) :
    (flags ||| flag kind) &&& flag other = flags &&& flag other := by
  revert flags
  cases kind <;> cases other <;>
    first | exact absurd rfl h | exact forall_flags (by decide +kernel)

theorem or_flag_of_set (kind : StampKind) (flags : UInt8) (h : flags &&& flag kind ≠ 0) :
    flags ||| flag kind = flags := by
  revert flags
  cases kind <;> exact forall_flags (by decide +kernel)

/-! ## Fields

A field is there if its flag is set, whatever the bytes for it are. Setting a value always sets
the flag, so the two kinds differ in their place only. -/

/-- A field, if the stamp has it. -/
def field (s : Stamp) : StampKind → Option Bytes
  | .digest => s.digest
  | .mac => s.mac

/-- The stamp with another value in a field. -/
def put (s : Stamp) (kind : StampKind) (value : Bytes) : Stamp :=
  match kind with
  | .digest =>
    { s with flags := s.flags ||| digestFlag
             digestLength := UInt8.ofNat value.length, digestBytes := value }
  | .mac =>
    { s with flags := s.flags ||| macFlag
             macLength := UInt8.ofNat value.length, macBytes := value }

/-- A value that is not too long can be set. -/
theorem set_eq (hvalue : value.length < 256) (s : Stamp) (kind : StampKind) :
    (match kind with
      | .digest => s.setDigest value
      | .mac => s.setMac value) = .ok (s.put kind value) := by
  cases kind <;> simp only [setDigest, setMac, fieldLength, if_pos hvalue] <;> rfl

theorem field_put_self (s : Stamp) (kind : StampKind) (value : Bytes) :
    (s.put kind value).field kind = some value := by
  cases kind
  · exact if_pos (or_flag_ne_zero .digest s.flags)
  · exact if_pos (or_flag_ne_zero .mac s.flags)

/-- **Setting a field leaves the other one alone.** -/
theorem field_put_of_ne (h : other ≠ kind) (s : Stamp) (value : Bytes) :
    (s.put kind value).field other = s.field other := by
  -- the other flag is not touched, and neither are the other bytes
  have hflag := or_flag_of_ne h s.flags
  cases kind <;> cases other
  · exact absurd rfl h
  · simp only [field, put, mac, show macFlag = flag .mac from rfl,
      show digestFlag = flag .digest from rfl, hflag]
  · simp only [field, put, digest, show macFlag = flag .mac from rfl,
      show digestFlag = flag .digest from rfl, hflag]
  · exact absurd rfl h

/-! ## Valid stamps

The check that a reader makes, less that of the end of the record. Every stamp that comes from a
reader passes it, and every setting keeps it. -/

/-- The lengths are those of the fields, no unknown flag is set, and no field is there and empty. -/
structure Valid (s : Stamp) : Prop where
  digestLength : s.digestLength.toNat = s.digestBytes.length
  macLength : s.macLength.toNat = s.macBytes.length
  flags : s.flags &&& ~~~(digestFlag ||| macFlag) = 0
  filled : ∀ kind, s.field kind ≠ some []

theorem valid_default : Valid {} where
  digestLength := rfl
  macLength := rfl
  flags := by decide
  filled kind := by cases kind <;> decide

theorem Valid.put (h : s.Valid) (hvalue : value.length < 256) (hne : value ≠ [])
    (kind : StampKind) : (s.put kind value).Valid := by
  have hlength : (UInt8.ofNat value.length).toNat = value.length := by
    rw [UInt8.toNat_ofNat']
    exact Nat.mod_eq_of_lt hvalue
  have hfilled (other : StampKind) : (s.put kind value).field other ≠ some [] := by
    by_cases hother : other = kind
    · rw [hother, field_put_self]
      simpa using hne
    · rw [field_put_of_ne hother]
      exact h.filled other
  cases kind with
  -- the length of the field that was set is right, and the other one was right before
  | digest => exact ⟨hlength, h.macLength, known_or .digest _ h.flags, hfilled⟩
  | mac => exact ⟨h.digestLength, hlength, known_or .mac _ h.flags, hfilled⟩

/-- Setting a field to what it is changes nothing. -/
theorem Valid.put_self (h : s.Valid) (hfield : s.field kind = some value) :
    s.put kind value = s := by
  have hword {w : UInt8} {n : Nat} (hw : w.toNat = n) : UInt8.ofNat n = w := by
    rw [← hw, UInt8.ofNat_toNat]
  cases kind with
  | digest =>
    simp only [field, digest, Option.ite_none_right_eq_some, Option.some.injEq] at hfield
    obtain ⟨hflag, rfl⟩ := hfield
    simp only [Stamp.put, hword h.digestLength, show s.flags ||| digestFlag = s.flags from
      or_flag_of_set .digest s.flags hflag]
  | mac =>
    simp only [field, mac, Option.ite_none_right_eq_some, Option.some.injEq] at hfield
    obtain ⟨hflag, rfl⟩ := hfield
    simp only [Stamp.put, hword h.macLength, show s.flags ||| macFlag = s.flags from
      or_flag_of_set .mac s.flags hflag]

/-! ## Records

Building and reading go through the fields in the same order. A reader insists on the end of the
record, so a record that is read determines the stamp, and the stamp the record. -/

theorem takeField_append {n : UInt8} {data rest : Bytes} (h : n.toNat = data.length) :
    takeField (n :: data ++ rest) = .ok (n, data, rest) := by
  simp [takeField, h]

theorem eq_of_takeField {data bytes rest : Bytes} {n : UInt8}
    (h : takeField data = .ok (n, bytes, rest)) :
    data = n :: bytes ++ rest ∧ n.toNat = bytes.length := by
  cases data with
  | nil => exact absurd h (by simp [takeField])
  | cons m data =>
    -- a length that reaches behind the data is refused before any byte is taken
    by_cases hshort : data.length < m.toNat
    · rw [takeField, if_pos hshort] at h
      exact absurd h (by simp)
    · rw [takeField, if_neg hshort] at h
      obtain ⟨rfl, rfl, rfl⟩ : m = n ∧ data.take m.toNat = bytes ∧ data.drop m.toNat = rest := by
        simpa using h
      rw [List.cons_append, List.take_append_drop, List.length_take]
      exact ⟨rfl, by omega⟩

theorem isEmptyField_eq_false_iff {field : Option Bytes} :
    isEmptyField field = false ↔ field ≠ some [] := by
  cases field with
  | none => simp [isEmptyField]
  | some bytes => cases bytes <;> simp [isEmptyField]

/-- A valid stamp is read back. -/
theorem Valid.parse_build (h : s.Valid) : parse s.build = .ok s := by
  have hdigest : takeField (s.digestLength :: s.digestBytes ++ s.macLength :: s.macBytes)
      = .ok (s.digestLength, s.digestBytes, s.macLength :: s.macBytes) :=
    takeField_append h.digestLength
  have hmac : takeField (s.macLength :: s.macBytes ++ []) = .ok (s.macLength, s.macBytes, []) :=
    takeField_append h.macLength
  rw [List.append_nil] at hmac
  have hfilled : (isEmptyField s.digest || isEmptyField s.mac) = false := by
    rw [Bool.or_eq_false_iff, isEmptyField_eq_false_iff, isEmptyField_eq_false_iff]
    exact ⟨h.filled .digest, h.filled .mac⟩
  simp only [build, List.cons_append, parse, bind, Except.bind] at hdigest ⊢
  simp only [hdigest, hmac, ne_eq, not_true_eq_false, if_false, h.flags]
  rw [if_neg (by rw [Bool.not_eq_true]; exact hfilled)]
  rfl

/-- **The records that are read are those of valid stamps.** -/
theorem parse_eq_ok_iff : parse record = .ok s ↔ s.Valid ∧ s.build = record := by
  refine ⟨fun h => ?_, fun ⟨hvalid, hbuild⟩ => hbuild ▸ hvalid.parse_build⟩
  cases record with
  | nil => exact absurd h (by simp [parse])
  | cons flags data =>
    -- one check after the other is taken off, and what passed each is put together at the end
    obtain ⟨⟨n, digest, rest⟩, hdigest, h₁⟩ := except_ok_of_bind h
    obtain ⟨⟨m, mac, last⟩, hmac, h₂⟩ := except_ok_of_bind h₁
    obtain ⟨hlast, h₃⟩ := except_ok_of_unless h₂
    obtain ⟨hflags, h₄⟩ := except_ok_of_unless h₃
    obtain ⟨hfilled, h₅⟩ := except_ok_of_unless h₄
    cases h₅
    obtain ⟨rfl, hn⟩ := eq_of_takeField hdigest
    obtain ⟨rfl, hm⟩ := eq_of_takeField hmac
    obtain rfl : last = [] := by simpa using hlast
    rw [Bool.not_eq_true, Bool.or_eq_false_iff, isEmptyField_eq_false_iff,
      isEmptyField_eq_false_iff] at hfilled
    refine ⟨⟨hn, hm, by simpa using hflags, fun kind => ?_⟩, by simp [build]⟩
    cases kind
    · exact hfilled.1
    · exact hfilled.2

theorem Valid.length_build (h : s.Valid) : 0 < s.build.length ∧ s.build.length < 65536 := by
  have hdigest := s.digestLength.toNat_lt
  have hmac := s.macLength.toNat_lt
  have hlength : s.build.length = 3 + s.digestBytes.length + s.macBytes.length := by
    simp [build]
    omega
  rw [h.digestLength] at hdigest
  rw [h.macLength] at hmac
  omega

/-! ## Behind the chunk data

In front of the record stand two bytes with its length, which are checked against what there is.
Whatever follows the record is not looked at. -/

/-- A stamp with its length in front. -/
def framed (s : Stamp) : Bytes := Bytes.ofNatLE lengthSize s.build.length ++ s.build

theorem Valid.buildFramed_eq (h : s.Valid) : s.buildFramed = .ok s.framed :=
  if_pos h.length_build.2

/-- The stamp in what stands behind the chunk data, or what is wrong with it. -/
def ofTail (tail : Bytes) : Except Error Stamp :=
  if tail.length < lengthSize then .error (.stampFailed .absent)
  else
    let length := Bytes.toNatLE (tail.take lengthSize)
    if length = 0 ∨ tail.length - lengthSize < length then
      .error (.stampFailed (.length length tail.length))
    else (parse (tail.slice lengthSize length)).mapError fun e => .stampFailed (.record e)

/-- The length of a record stands in front, in two bytes, and behind it the record of this stamp.
More bytes may follow. -/
def StandsIn (s : Stamp) (tail : Bytes) : Prop :=
  ∃ record rest, tail = Bytes.ofNatLE 2 record.length ++ record ++ rest ∧
    0 < record.length ∧ record.length < 65536 ∧ parse record = .ok s

/-- **A stamp is found where it stands.** -/
theorem ofTail_eq_ok_iff : ofTail tail = .ok s ↔ s.StandsIn tail := by
  constructor
  · intro h
    unfold ofTail at h
    simp only at h
    split at h
    · exact absurd h (by simp)
    · -- what is left passed the checks of both lengths
      next hlong =>
      split at h
      · exact absurd h (by simp)
      · next hlength =>
        simp only [lengthSize, not_or, Nat.not_lt] at h hlong hlength
        have hparse := except_ok_of_mapError h
        have hlen : (tail.slice 2 (Bytes.toNatLE (tail.take 2))).length
            = Bytes.toNatLE (tail.take 2) := by
          rw [Bytes.length_slice]
          omega
        have htake : (tail.take 2).length = 2 := by
          rw [List.length_take]
          omega
        have hbound := Bytes.toNatLE_lt (tail.take 2)
        rw [htake] at hbound
        have hword := Bytes.ofNatLE_toNatLE (tail.take 2)
        rw [htake] at hword
        refine ⟨_, tail.drop (2 + Bytes.toNatLE (tail.take 2)), ?_, by omega,
          by rw [hlen]; exact hbound, hparse⟩
        rw [hlen, hword, List.append_assoc, Bytes.slice, ← List.drop_drop, List.take_append_drop,
          List.take_append_drop]
  · rintro ⟨record, rest, rfl, hpos, hsmall, hparse⟩
    -- the length that is read is that of the record, for it is smaller than two bytes can hold
    have htake : (Bytes.ofNatLE 2 record.length ++ record ++ rest).take 2
        = Bytes.ofNatLE 2 record.length := by
      rw [List.append_assoc, List.take_left' (by simp)]
    have hslice : (Bytes.ofNatLE 2 record.length ++ record ++ rest).slice 2 record.length
        = record := by
      rw [List.append_assoc, Bytes.slice, List.drop_left' (by simp), List.take_left]
    have hword : Bytes.toNatLE (Bytes.ofNatLE 2 record.length) = record.length := by
      rw [Bytes.toNatLE_ofNatLE]
      exact Nat.mod_eq_of_lt hsmall
    have hlen : (Bytes.ofNatLE 2 record.length ++ record ++ rest).length
        = 2 + record.length + rest.length := by simp; omega
    unfold ofTail
    simp only [lengthSize, htake, hword, hslice, hlen]
    rw [if_neg (by omega), if_neg (by omega), hparse]
    rfl

theorem Valid.standsIn_framed (h : s.Valid) : s.StandsIn s.framed :=
  ⟨s.build, [], by rw [List.append_nil]; rfl, h.length_build.1, h.length_build.2, h.parse_build⟩

/-- What is found is valid. -/
theorem valid_of_ofTail (h : ofTail tail = .ok s) : s.Valid := by
  obtain ⟨record, -, -, -, -, hparse⟩ := ofTail_eq_ok_iff.mp h
  exact (parse_eq_ok_iff.mp hparse).1

end Stamp

end Vault
