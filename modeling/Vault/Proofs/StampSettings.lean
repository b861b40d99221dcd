import Vault.Proofs.StampRecords

/-!
# `Vault/Proofs/StampSettings.lean` — stamps whose fields are set one after the other

A field of a stamp is three entries of its record: the length, the bytes and the flag. A call that
sets a field changes all three or none (`Stamp.assign_eq`), so **whatever the calls, the stamp that
they leave is read back from its record, and each field has the value of the last call that could
set it** (`Stamp.settings_read_back`). One step says what a call does to a stamp, and the induction
is on the calls. The other way round, the records that are read are described entry by entry.
-/

set_option autoImplicit false

namespace Vault

namespace Stamp

variable {s : Stamp} {kind : StampKind} {value record : Bytes}

/-! ## One call -/

/-- The stamp with another value in one of its fields. -/
def set (s : Stamp) (kind : StampKind) (value : Bytes) : Except RecordError Stamp :=
  match kind with
  | .digest => s.setDigest value
  | .mac => s.setMac value

/-- The field as errors name it. -/
def recordField : StampKind → RecordField
  | .digest => .digest
  | .mac => .mac

/-- Setting a field in place, entry by entry. The length comes first, and nothing comes after a
length that does not fit its byte. -/
def assign (kind : StampKind) (value : Bytes) : EStateM RecordError Stamp Unit := do
  let length ← MonadExcept.ofExcept (fieldLength (recordField kind) value)
  match kind with
  | .digest =>
    modify fun s => { s with digestLength := length }
    modify fun s => { s with digestBytes := value }
    modify fun s => { s with flags := s.flags ||| digestFlag }
  | .mac =>
    modify fun s => { s with macLength := length }
    modify fun s => { s with macBytes := value }
    modify fun s => { s with flags := s.flags ||| macFlag }

theorem set_of_large (h : 256 ≤ value.length) (s : Stamp) (kind : StampKind) :
    s.set kind value = .error (.tooLarge (recordField kind) value.length) := by
  cases kind <;> simp only [set, setDigest, setMac, fieldLength, if_neg (Nat.not_lt.mpr h)] <;> rfl

/-- **A call sets all of a field or leaves all of the stamp.** -/
theorem assign_eq (kind : StampKind) (value : Bytes) (s : Stamp) :
    assign kind value s =
      match s.set kind value with
      | .ok s' => .ok () s'
      | .error e => .error e s := by
  by_cases h : value.length < 256
  · rw [show s.set kind value = .ok (s.put kind value) from set_eq h s kind]
    -- the entries are set one by one, and together they are `put`
    cases kind <;> simp only [assign, recordField, fieldLength, if_pos h] <;> rfl
  · rw [set_of_large (Nat.le_of_not_lt h)]
    -- the length is the first entry, so nothing was set when it fails
    cases kind <;> simp only [assign, recordField, fieldLength, if_neg h] <;> rfl

theorem assign_of_small (h : value.length ≤ 255) (s : Stamp) (kind : StampKind) :
    assign kind value s = .ok () (s.put kind value) := by
  rw [assign_eq, show s.set kind value = _ from set_eq (Nat.lt_succ_of_le h) s kind]

theorem assign_of_large (h : 255 < value.length) (s : Stamp) (kind : StampKind) :
    assign kind value s = .error (.tooLarge (recordField kind) value.length) s := by
  rw [assign_eq, set_of_large h]

/-! ## One call after the other

What a call puts is read off the call, not off the stamp. So the last value is the last of a list
that the calls alone determine. -/

/-- A value for one of the fields. -/
structure Setting where
  kind : StampKind
  value : Bytes

/-- What a call puts into a field, if anything. -/
def Setting.puts (kind : StampKind) (c : Setting) : Option Bytes :=
  if c.kind = kind ∧ c.value.length ≤ 255 then some c.value else none

/-- The stamp that a call leaves, whether it could set its field or not. -/
def after (s : Stamp) (c : Setting) : Stamp :=
  match assign c.kind c.value s with
  | .ok _ s' => s'
  | .error _ s' => s'

/-- The stamp that the calls leave. -/
def afterAll (s : Stamp) (calls : List Setting) : Stamp := calls.foldl after s

theorem after_eq (s : Stamp) (c : Setting) :
    s.after c = if c.value.length ≤ 255 then s.put c.kind c.value else s := by
  unfold after
  by_cases h : c.value.length ≤ 255
  · rw [assign_of_small h, if_pos h]
  · rw [assign_of_large (Nat.lt_of_not_le h), if_neg h]

theorem Valid.after (h : s.Valid) {c : Setting} (hne : c.value ≠ []) : (s.after c).Valid := by
  rw [after_eq]
  split
  · next hfits => exact h.put (Nat.lt_succ_of_le hfits) hne c.kind
  · exact h

/-- **Calls with values that are not empty leave a valid stamp.** -/
theorem Valid.afterAll {calls : List Setting} (h : s.Valid) (hne : ∀ c ∈ calls, c.value ≠ []) :
    (s.afterAll calls).Valid := by
  induction calls generalizing s with
  | nil => exact h
  | cons c calls ih =>
    exact ih (h.after (hne c List.mem_cons_self)) fun d hd => hne d (List.mem_cons_of_mem c hd)

/-- A call is seen in its own field, and in no other. -/
theorem field_after (s : Stamp) (c : Setting) (kind : StampKind) :
    (s.after c).field kind = (c.puts kind).or (s.field kind) := by
  rw [after_eq, Setting.puts]
  -- a value that is too long is put nowhere
  by_cases hfits : c.value.length ≤ 255
  · rw [if_pos hfits]
    by_cases hkind : c.kind = kind
    · rw [if_pos ⟨hkind, hfits⟩, ← hkind, field_put_self]
      rfl
    · rw [if_neg fun h => hkind h.1, field_put_of_ne (Ne.symm hkind)]
      rfl
  · rw [if_neg hfits, if_neg fun h => hfits h.2]
    rfl

/-- **A field has the value of the last call that could set it.** -/
theorem field_afterAll (s : Stamp) (calls : List Setting) (kind : StampKind) :
    (s.afterAll calls).field kind
      = (calls.filterMap (Setting.puts kind)).getLast?.or (s.field kind) := by
  induction calls generalizing s with
  | nil => rfl
  | cons c calls ih =>
    have hrest := ih (s.after c)
    rw [field_after] at hrest
    -- the hypothesis is about the stamp that this call leaves
    rw [show s.afterAll (c :: calls) = (s.after c).afterAll calls from rfl, hrest]
    cases hputs : c.puts kind with
    | none => rw [List.filterMap_cons_none hputs, Option.none_or]
    | some value =>
      -- What this call puts there is hidden by the next call that can set the field.
      rw [List.filterMap_cons_some hputs, List.getLast?_cons]
      cases (calls.filterMap (Setting.puts kind)).getLast? <;> rfl

/-- On a new stamp, a field that no call could set is not there. -/
theorem field_afterAll_new (calls : List Setting) (kind : StampKind) :
    (afterAll {} calls).field kind = (calls.filterMap (Setting.puts kind)).getLast? := by
  have hnone : field {} kind = none := by cases kind <;> rfl
  rw [field_afterAll, hnone, Option.or_none]

/-! ## Records entry by entry

The check of a reader is spelled out without the names of fields and flags: which byte sequences
are records can be seen from the bytes. -/

/-- Flags, length and digest, length and code, and nothing behind them; no flag beyond the first
two, and no flagged field empty. -/
def IsRecord (record : Bytes) : Prop :=
  ∃ (flags n : UInt8) (digest : Bytes) (m : UInt8) (mac : Bytes),
    record = [flags, n] ++ digest ++ [m] ++ mac ∧
    n.toNat = digest.length ∧ m.toNat = mac.length ∧ flags.toNat < 4 ∧
    (flags &&& 1 ≠ 0 → digest ≠ []) ∧ (flags &&& 2 ≠ 0 → mac ≠ [])

theorem unknown_eq_zero_iff (flags : UInt8) :
    flags &&& ~~~(digestFlag ||| macFlag) = 0 ↔ flags.toNat < 4 := by
  revert flags
  exact forall_flags (by decide +kernel)

theorem ite_ne_some_nil_iff {c : Prop} [Decidable c] {bytes : Bytes} :
    (if c then some bytes else none) ≠ some [] ↔ (c → bytes ≠ []) := by
  by_cases h : c <;> simp [h]

/-- A stamp is valid if its lengths are right, it has no other flag and no flagged field is empty.
-/
theorem valid_iff :
    s.Valid ↔ s.digestLength.toNat = s.digestBytes.length ∧
      s.macLength.toNat = s.macBytes.length ∧ s.flags.toNat < 4 ∧
      (s.flags &&& 1 ≠ 0 → s.digestBytes ≠ []) ∧ (s.flags &&& 2 ≠ 0 → s.macBytes ≠ []) := by
  constructor
  · intro h
    exact ⟨h.digestLength, h.macLength, (unknown_eq_zero_iff s.flags).mp h.flags,
      ite_ne_some_nil_iff.mp (h.filled .digest), ite_ne_some_nil_iff.mp (h.filled .mac)⟩
  · rintro ⟨hdigest, hmac, hflags, hfirst, hsecond⟩
    refine ⟨hdigest, hmac, (unknown_eq_zero_iff s.flags).mpr hflags, fun kind => ?_⟩
    cases kind with
    | digest => exact ite_ne_some_nil_iff.mpr hfirst
    | mac => exact ite_ne_some_nil_iff.mpr hsecond

/-- **The records that are read are these.** -/
theorem parses_iff : (∃ s, parse record = .ok s) ↔ IsRecord record := by
  constructor
  · rintro ⟨s, hparse⟩
    -- a record that is read is the record of the stamp that it is read to
    obtain ⟨hvalid, rfl⟩ := parse_eq_ok_iff.mp hparse
    exact ⟨s.flags, s.digestLength, s.digestBytes, s.macLength, s.macBytes, by simp [build],
      valid_iff.mp hvalid⟩
  · rintro ⟨flags, n, digest, m, mac, rfl, hrecord⟩
    -- the entries of the record are those of a stamp
    let s : Stamp :=
      { flags, digestLength := n, digestBytes := digest, macLength := m, macBytes := mac }
    exact ⟨s, parse_eq_ok_iff.mpr ⟨valid_iff.mpr hrecord, by simp [build, s]⟩⟩

/-- **Stamps are encoded and decoded exactly.** A call that sets a field succeeds if and only if
the value's length fits its byte, and otherwise leaves the stamp as it is. Whatever the calls on a
new stamp, each field then has the value of the last call for it that succeeded; and if no value
was empty, the record of the stamp is read back, and can be framed by its length in two bytes. The
records that are read are those with the entries of a stamp, and what is read from one is what it
is built from. -/
theorem settings_read_back :
    (∀ (s : Stamp) (kind : StampKind) (value : Bytes),
      (value.length ≤ 255 → ∃ s', s.set kind value = .ok s' ∧ assign kind value s = .ok () s') ∧
      (255 < value.length →
        s.set kind value = .error (.tooLarge (recordField kind) value.length) ∧
        assign kind value s = .error (.tooLarge (recordField kind) value.length) s)) ∧
    (∀ calls : List Setting,
      (afterAll {} calls).digest = (calls.filterMap (Setting.puts .digest)).getLast? ∧
      (afterAll {} calls).mac = (calls.filterMap (Setting.puts .mac)).getLast? ∧
      ((∀ c ∈ calls, c.value ≠ []) →
        parse (afterAll {} calls).build = .ok (afterAll {} calls) ∧
        (afterAll {} calls).build.length < 65536 ∧
        (afterAll {} calls).buildFramed = .ok (Bytes.ofNatLE 2 (afterAll {} calls).build.length
          ++ (afterAll {} calls).build))) ∧
    (∀ (record : Bytes) (s : Stamp), parse record = .ok s → s.build = record) ∧
    (∀ record : Bytes, (∃ s, parse record = .ok s) ↔ IsRecord record) := by
  refine ⟨fun s kind value => ⟨fun hsmall => ?small, fun hlarge => ?large⟩,
    fun calls => ⟨field_afterAll_new calls .digest, field_afterAll_new calls .mac,
      fun hne => ?back⟩,
    fun _ _ hparse => (parse_eq_ok_iff.mp hparse).2, fun _ => parses_iff⟩
  case small =>
    exact ⟨s.put kind value, set_eq (Nat.lt_succ_of_le hsmall) s kind,
      assign_of_small hsmall s kind⟩
  case large => exact ⟨set_of_large hlarge s kind, assign_of_large hlarge s kind⟩
  case back =>
    have hvalid : (afterAll {} calls).Valid := valid_default.afterAll hne
    exact ⟨hvalid.parse_build, hvalid.length_build.2, hvalid.buildFramed_eq⟩

/-- Four calls, of which one comes with 256 bytes and fails: the digest is the last one that was
set and the code stays beside it, the stamp is read back, and its seven bytes are framed. Three
bytes that flag an empty digest are no record. -/
theorem settings_read_back_four :
    let long := List.replicate 256 (1 : UInt8)
    let s := afterAll {} [⟨.mac, [9, 9]⟩, ⟨.digest, [1]⟩, ⟨.digest, [2, 3]⟩, ⟨.digest, long⟩]
    assign .digest long s = .error (.tooLarge .digest 256) s ∧
    s.digest = some [2, 3] ∧ s.mac = some [9, 9] ∧
    s.buildFramed = .ok [7, 0, 3, 2, 2, 3, 2, 9, 9] ∧ parse s.build = .ok s ∧
    ¬∃ s, parse [1, 0, 0] = .ok s := by
  intro long s
  obtain ⟨hcall, hcalls, -, hrecord⟩ := settings_read_back
  obtain ⟨hdigest, hmac, hback⟩ :=
    hcalls [⟨.mac, [9, 9]⟩, ⟨.digest, [1]⟩, ⟨.digest, [2, 3]⟩, ⟨.digest, long⟩]
  have hlong : long.length = 256 := List.length_replicate
  have hne : long ≠ [] := List.ne_nil_of_length_pos (by omega)
  obtain ⟨hparse, -, hframed⟩ := hback (by simp [hne])
  have hfails := ((hcall s .digest long).2 (by omega)).2
  -- the call with 256 bytes fails and leaves the stamp as the three in front made it
  rw [hlong] at hfails
  refine ⟨hfails, hdigest.trans ?_, hmac.trans ?_, hframed.trans ?_, hparse, ?_⟩
  · simp [Setting.puts, hlong]
  · simp [Setting.puts, hlong]
  · exact congrArg Except.ok (by decide +kernel)
  · rw [hrecord]
    rintro ⟨flags, n, digest, m, mac, hsame, hn, -, -, hfilled, -⟩
    obtain ⟨rfl, rfl, -⟩ : 1 = flags ∧ 0 = n ∧ [0] = digest ++ m :: mac := by simpa using hsame
    exact hfilled (by decide) (List.length_eq_zero_iff.mp hn.symm)

end Stamp

end Vault
