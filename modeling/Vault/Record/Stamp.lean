import Vault.Record.Error

/-!
# `Vault/Record/Stamp.lean` — the stamp behind a container

    flags | length of the digest | digest | length of the code | code

with a length of two bytes in front when it is put behind a container. A stamp carries a digest,
an authentication code, both or neither; **a field counts only if its flag says so**, and the two
fields are set independently of each other.
-/

set_option autoImplicit false

namespace Vault

/-- A stamp record, field by field as it is written. -/
structure Stamp where
  flags : UInt8 := 0
  digestLength : UInt8 := 0
  digestBytes : Bytes := []
  macLength : UInt8 := 0
  macBytes : Bytes := []
deriving DecidableEq

namespace Stamp

/-- The bytes of the length in front of a stamp. -/
def lengthSize : Nat := 2

/-- The flag of the digest. -/
def digestFlag : UInt8 := 1

/-- The flag of the authentication code. -/
def macFlag : UInt8 := 2

/-- The digest, if the stamp has one. -/
def digest (s : Stamp) : Option Bytes :=
  if s.flags &&& digestFlag ≠ 0 then some s.digestBytes else none

/-- The authentication code, if the stamp has one. -/
def mac (s : Stamp) : Option Bytes :=
  if s.flags &&& macFlag ≠ 0 then some s.macBytes else none

/-! ## Setting a field -/

/-- The length of a field, as far as a byte can hold it. -/
def fieldLength (field : RecordField) (data : Bytes) : Except RecordError UInt8 :=
  if data.length < 256 then .ok (UInt8.ofNat data.length)
  else .error (.tooLarge field data.length)

/-- The stamp with another digest. -/
def setDigest (s : Stamp) (digest : Bytes) : Except RecordError Stamp := do
  let digestLength ← fieldLength .digest digest
  return { s with flags := s.flags ||| digestFlag, digestLength, digestBytes := digest }

/-- The stamp with another authentication code. -/
def setMac (s : Stamp) (mac : Bytes) : Except RecordError Stamp := do
  let macLength ← fieldLength .mac mac
  return { s with flags := s.flags ||| macFlag, macLength, macBytes := mac }

/-! ## Writing -/

/-- The bytes of a stamp. -/
def build (s : Stamp) : Bytes :=
  s.flags :: s.digestLength :: s.digestBytes ++ s.macLength :: s.macBytes

/-- The bytes of a stamp with their number in front. -/
def buildFramed (s : Stamp) : Except RecordError Bytes :=
  let record := s.build
  if record.length < 65536 then .ok (Bytes.ofNatLE lengthSize record.length ++ record)
  else .error (.tooLarge .stamp record.length)

/-! ## Reading -/

/-- A byte of length and that many bytes, and what is left behind them. -/
def takeField : Bytes → Except RecordError (UInt8 × Bytes × Bytes)
  | [] => .error .cutShort
  | n :: rest =>
    if rest.length < n.toNat then .error .cutShort
    else .ok (n, rest.take n.toNat, rest.drop n.toNat)

/-- Is the field there and empty? -/
def isEmptyField (field : Option Bytes) : Bool :=
  match field with
  | some [] => true
  | _ => false

/-- The stamp that a byte string is. -/
def parse : Bytes → Except RecordError Stamp
  | [] => .error .cutShort
  | flags :: rest => do
    let (digestLength, digestBytes, rest) ← takeField rest
    let (macLength, macBytes, rest) ← takeField rest
    let stamp : Stamp := { flags, digestLength, digestBytes, macLength, macBytes }
    if rest ≠ [] then throw (.stamp (.trailing rest.length))
    if flags &&& ~~~(digestFlag ||| macFlag) ≠ 0 then throw (.stamp (.unknownFlags flags))
    if isEmptyField stamp.digest || isEmptyField stamp.mac then throw (.stamp .emptyField)
    return stamp

end Stamp

end Vault
