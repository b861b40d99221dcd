import Vault.Record.Error

/-!
# `Vault/Record/Header.lean` — the fixed header of a container

    0..3    magic: "SBC" (sealed chunks) or "SBS" (streamed chunks)
    3       version
    4..6    size of the descriptor
    6..14   size of the content
    14..22  size of the chunk data

All numbers are written least significant byte first. **The two sizes stand at fixed places so
that they can be overwritten while the rest stays as it was made.**

There are two readers. `parse` takes a byte string that starts with a header; `read` works at an
offset of a longer one and says where the fault is or where the header ends.
-/

set_option autoImplicit false

namespace Vault

/-- What a container says about itself in its first bytes. -/
structure Header where
  streaming : Bool
  version : UInt8
  descriptorSize : UInt16
  plaintextSize : UInt64
  ciphertextSize : UInt64
deriving DecidableEq

namespace Header

/-- The bytes of a header. -/
def size : Nat := 22

/-- Where the size of the content stands. -/
def plaintextAt : Nat := 6

/-- Where the size of the chunk data stands. -/
def ciphertextAt : Nat := 14

/-- The version written and accepted. -/
def currentVersion : UInt8 := 1

/-- The magic of a container with sealed chunks: "SBC". -/
def sealedMagic : Bytes := [0x53, 0x42, 0x43]

/-- The magic of a container with streamed chunks: "SBS". -/
def streamMagic : Bytes := [0x53, 0x42, 0x53]

/-- The header of a new container. -/
def new (streaming : Bool) (descriptorSize : UInt16) (plaintextSize : UInt64) : Header :=
  { streaming, version := currentVersion, descriptorSize, plaintextSize, ciphertextSize := 0 }

/-- Does the magic name streamed chunks? -/
def ofMagic (magic : Bytes) : Except RecordError Bool :=
  if magic = sealedMagic then .ok false
  else if magic = streamMagic then .ok true
  else .error (.magic magic)

/-! ## Writing -/

/-- The bytes of a header. -/
def build (h : Header) : Bytes :=
  (if h.streaming then streamMagic else sealedMagic) ++ h.version ::
    Bytes.ofNatLE 2 h.descriptorSize.toNat ++ Bytes.ofNatLE 8 h.plaintextSize.toNat ++
    Bytes.ofNatLE 8 h.ciphertextSize.toNat

@[simp] theorem length_build (h : Header) : h.build.length = size := by
  cases hs : h.streaming <;> simp [build, hs, sealedMagic, streamMagic, size]

/-! ## Reading the start of a byte string -/

/-- The header that `data` starts with. -/
def parse (data : Bytes) : Except RecordError Header :=
  if data.length < size then .error (.truncated .header size data.length)
  else
    match ofMagic (data.take 3) with
    | .error e => .error e
    | .ok streaming =>
      let version := data.getD 3 0
      if version ≠ currentVersion then .error (.headerVersion version)
      else .ok
        { streaming, version
          descriptorSize := UInt16.ofNat (Bytes.toNatLE (Bytes.slice data 4 2))
          plaintextSize := UInt64.ofNat (Bytes.toNatLE (Bytes.slice data plaintextAt 8))
          ciphertextSize := UInt64.ofNat (Bytes.toNatLE (Bytes.slice data ciphertextAt 8)) }

/-! ## Reading at an offset -/

/-- Why there is no header at an offset. -/
inductive ReadError where
  /-- The field at this position is wrong. -/
  | field (position : Nat) (cause : RecordError)
  /-- The data ends inside the header. -/
  | ended
deriving DecidableEq

/-- The next `n` bytes at a position, and the position behind them. -/
def take (data : Bytes) (position n : Nat) : Except ReadError (Bytes × Nat) :=
  if position + n ≤ data.length then .ok (Bytes.slice data position n, position + n)
  else .error .ended

/-- The header at an offset, and the position behind it. Each field is judged as soon as it is
read, so a wrong magic is reported even when nothing follows it. -/
def read (data : Bytes) (offset : Nat) : Except ReadError (Header × Nat) := do
  let (magic, position) ← take data offset 3
  let streaming ← (ofMagic magic).mapError (.field offset)
  let (version, position) ← take data position 1
  let version := version.headD 0
  if version ≠ currentVersion then throw (.field (offset + 3) (.headerVersion version))
  let (descriptorSize, position) ← take data position 2
  let (plaintextSize, position) ← take data position 8
  let (ciphertextSize, position) ← take data position 8
  return (
    { streaming, version
      descriptorSize := UInt16.ofNat (Bytes.toNatLE descriptorSize)
      plaintextSize := UInt64.ofNat (Bytes.toNatLE plaintextSize)
      ciphertextSize := UInt64.ofNat (Bytes.toNatLE ciphertextSize) }, position)

end Header

end Vault
