import Vault.Record.Error

/-!
# `Vault/Record/Descriptor.lean` — the descriptor of a container

    0        version
    1        key derivation function
    2        cipher suite
    3..7     rounds of stretching
    7..11    capacity of chunk 0 (0: as the others)
    11..15   capacity of the other chunks (0: no bound)
    15       length of the salt
    16..     salt

Numbers are written least significant byte first. Whoever has the master key and the descriptor
can read the container; **the descriptor is the only thing two users of a container have to agree
on.** A byte string is a descriptor only as a whole: nothing may be missing and nothing may follow.
-/

set_option autoImplicit false

namespace Vault

/-- Key derivation, algorithms and chunk sizes of one container, as they are written down. The
salt's length is a field of its own, as it is in the record. -/
structure Descriptor where
  version : UInt8
  kdf : UInt8
  suite : UInt8
  rounds : UInt32
  firstMax : UInt32
  chunkMax : UInt32
  saltLength : UInt8
  salt : Bytes
deriving DecidableEq

namespace Descriptor

/-- The version written and accepted. -/
def currentVersion : UInt8 := 1

/-- The bytes in front of the salt. -/
def fixedSize : Nat := 16

/-- A descriptor of the current version; the salt's length has to fit its byte. -/
def new (kdf suite : UInt8) (rounds firstMax chunkMax : UInt32) (salt : Bytes) :
    Except RecordError Descriptor :=
  if salt.length < 256 then
    .ok
      { version := currentVersion, kdf, suite, rounds, firstMax, chunkMax
        saltLength := UInt8.ofNat salt.length, salt }
  else .error (.tooLarge .salt salt.length)

/-- The bytes that the record takes. -/
def encodedSize (d : Descriptor) : Nat := fixedSize + d.salt.length

/-- The bytes of a descriptor. -/
def build (d : Descriptor) : Bytes :=
  d.version :: d.kdf :: d.suite :: Bytes.ofNatLE 4 d.rounds.toNat ++
    Bytes.ofNatLE 4 d.firstMax.toNat ++ Bytes.ofNatLE 4 d.chunkMax.toNat ++
    d.saltLength :: d.salt

@[simp] theorem length_build (d : Descriptor) : d.build.length = d.encodedSize := by
  simp only [build, List.cons_append, List.length_cons, List.length_append, Bytes.length_ofNatLE,
    encodedSize, fixedSize]
  omega

/-- The descriptor that a byte string is. -/
def parse (data : Bytes) : Except RecordError Descriptor :=
  if data.length < fixedSize then .error (.truncated .descriptor fixedSize data.length)
  else if data.getD 0 0 ≠ currentVersion then .error (.descriptorVersion (data.getD 0 0))
  else
    let saltLength := data.getD 15 0
    let found : Descriptor :=
      { version := data.getD 0 0
        kdf := data.getD 1 0
        suite := data.getD 2 0
        rounds := UInt32.ofNat (Bytes.toNatLE (Bytes.slice data 3 4))
        firstMax := UInt32.ofNat (Bytes.toNatLE (Bytes.slice data 7 4))
        chunkMax := UInt32.ofNat (Bytes.toNatLE (Bytes.slice data 11 4))
        saltLength
        salt := Bytes.slice data fixedSize saltLength.toNat }
    if data.length < fixedSize + saltLength.toNat then .error .cutShort
    else if found.encodedSize ≠ data.length then
      .error (.truncated .descriptor found.encodedSize data.length)
    else .ok found

end Descriptor

end Vault
