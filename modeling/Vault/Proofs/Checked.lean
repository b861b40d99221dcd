import Vault.Processor
import Vault.Proofs.Layout

/-!
# `Vault/Proofs/Checked.lean` — numbers and places that may not be there

The library computes with natural numbers and cuts pieces out of lists, and neither can go wrong. A
program computes with numbers of 64 bits, and looks at places that have to be there. This module has
the same computations with every step checked: **a sum or a product that is too large, a difference
below zero, a division by zero and a piece that is not all there have no result.** Where a
computation decides by itself what to do with a number that is too large, it does so here too.

Everything that a container computes while it is read is here, and for each computation there is a
statement that says when it has a result, which is then the result of the unchecked one. Most of
them have one whatever stands in the file.
-/

set_option autoImplicit false

namespace Vault

/-! ## Steps

An operation with no result is none of the two things a computation can come to by itself, an
answer and an error. So a result within a result stands for both: the outer one says whether
every step was possible, and the inner one what came of it. -/

namespace Checked

/-- The sum of two numbers, if it has 64 bits. -/
def add (a b : Nat) : Option Nat := if a + b < offsetLimit then some (a + b) else none

/-- The difference of two numbers, if it is not below zero. -/
def sub (a b : Nat) : Option Nat := if b ≤ a then some (a - b) else none

/-- The product of two numbers, if it has 64 bits. -/
def mul (a b : Nat) : Option Nat := if a * b < offsetLimit then some (a * b) else none

/-- The quotient of two numbers, unless it is by zero. -/
def div (a b : Nat) : Option Nat := if b = 0 then none else some (a / b)

/-- What is left by a division, unless it is by zero. -/
def mod (a b : Nat) : Option Nat := if b = 0 then none else some (a % b)

/-- The `len` bytes from `start` on, if they are all there. -/
def slice (data : Bytes) (start len : Nat) : Option Bytes :=
  if start + len ≤ data.length then some (data.slice start len) else none

/-- The bytes in front of a place and those behind it, if the place is there. -/
def split (data : Bytes) (at_ : Nat) : Option (Bytes × Bytes) :=
  if at_ ≤ data.length then some (data.take at_, data.drop at_) else none

variable {a b : Nat}

theorem add_eq (h : a + b < offsetLimit) : add a b = some (a + b) := if_pos h

theorem sub_eq (h : b ≤ a) : sub a b = some (a - b) := if_pos h

theorem mul_eq (h : a * b < offsetLimit) : mul a b = some (a * b) := if_pos h

theorem div_eq (h : b ≠ 0) : div a b = some (a / b) := if_neg h

theorem mod_eq (h : b ≠ 0) : mod a b = some (a % b) := if_neg h

theorem slice_eq {data : Bytes} (h : a + b ≤ data.length) :
    slice data a b = some (data.slice a b) :=
  if_pos h

theorem split_eq {data : Bytes} (h : a ≤ data.length) :
    split data a = some (data.take a, data.drop a) := if_pos h

end Checked

/-! ## Layouts

The first chunk may have no bound, the later ones may have none, and each case divides by
something else. That the divisor is not zero is what the branches have made sure of. -/

namespace Layout

/-- The number of the chunk that holds a position, if there is a number for it. -/
def seqnumChecked (l : Layout) (pos : Nat) : Option (Option Nat) :=
  if l.firstPlain = 0 ∨ pos < l.firstPlain then some (some 0)
  else if l.plain = 0 then some (some 1)
  else do
    let rest ← Checked.sub pos l.firstPlain
    let chunks ← Checked.div rest l.plain
    return if chunks + 1 < seqnumLimit then some (chunks + 1) else none

/-- The position at which a chunk begins. -/
def startChecked (l : Layout) (seqnum : Nat) : Option Nat :=
  if seqnum = 0 then some 0
  else do
    let before ← Checked.sub seqnum 1
    let later ← Checked.mul before l.plain
    Checked.add l.firstPlain later

/-- The raw offset at which a chunk begins. -/
def rawStartChecked (l : Layout) (seqnum : Nat) : Option Nat :=
  if seqnum = 0 then some l.dataOffset
  else do
    let first ← Checked.add l.dataOffset l.firstPacked
    let before ← Checked.sub seqnum 1
    let later ← Checked.mul before l.packed
    Checked.add first later

/-- The place of a position: the number of its chunk and the offset inside that. -/
def locateChecked (l : Layout) (pos : Nat) : Option (Option (Nat × Nat)) := do
  match ← l.seqnumChecked pos with
  | none => return none
  | some seqnum =>
    let start ← l.startChecked seqnum
    let offset ← Checked.sub pos start
    return some (seqnum, offset)

/-- The bytes that the full chunks in front of a chunk take, if that is a 64-bit number. -/
def packedBeforeChecked (l : Layout) (seqnum : Nat) : Option (Option Nat) :=
  if seqnum = 0 then some (some 0)
  else do
    let before ← Checked.sub seqnum 1
    let later := before * l.packed
    return if later < offsetLimit ∧ later + l.firstPacked < offsetLimit
      then some (later + l.firstPacked) else none

/-- The size of the content of a container whose chunks are streamed. -/
def streamedSizeChecked (l : Layout) (ciphertextSize lead : Nat) : Option Nat :=
  if ciphertextSize = 0 then some 0
  else if l.firstPlain = 0 ∨ ciphertextSize ≤ l.firstPacked then some (ciphertextSize - lead)
  else do
    let rest ← Checked.sub ciphertextSize l.firstPacked
    if l.plain = 0 then Checked.add l.firstPlain (rest - lead)
    else
      let chunks ← Checked.div rest l.packed
      let left ← Checked.mod rest l.packed
      let full ← Checked.mul chunks l.plain
      let front ← Checked.add l.firstPlain full
      Checked.add front (left - lead)

variable {l : Layout} {pos i : Nat}

/-- Capacities are 32-bit numbers. -/
structure Small (l : Layout) : Prop where
  first : l.firstPlain < seqnumLimit
  plain : l.plain < seqnumLimit

theorem small_ofSizes (first chunk : UInt32) (overhead dataOffset : Nat) :
    (ofSizes first chunk overhead dataOffset).Small where
  first := by
    simp only [ofSizes]
    split
    · exact chunk.toNat_lt
    · exact first.toNat_lt
  plain := chunk.toNat_lt

/-- The chunk of a position can be computed whatever the layout is. -/
theorem seqnumChecked_eq (l : Layout) (pos : Nat) :
    l.seqnumChecked pos = some (l.seqnumOf? pos) := by
  unfold seqnumChecked seqnumOf?
  split
  · rfl
  · next hfirst =>
    split
    · rfl
    · next hplain =>
      rw [Checked.sub_eq (by omega), Option.bind_eq_bind, Option.bind_some, Checked.div_eq hplain]
      rfl

/-- **Every chunk that has a number begins at a 64-bit position.** -/
theorem Small.startOf_lt (h : l.Small) (hi : i < seqnumLimit) :
    (i - 1) * l.plain < offsetLimit ∧ l.startOf i < offsetLimit := by
  have hfirst := h.first
  have hplain := h.plain
  -- The last number is one below the limit, so that a capacity more still fits.
  have hmul : (i - 1) * l.plain ≤ 0xfffffffe * 0xffffffff := by
    refine Nat.mul_le_mul ?_ ?_
    · simp only [seqnumLimit] at hi
      omega
    · simp only [seqnumLimit] at hplain
      omega
  simp only [seqnumLimit] at hfirst
  unfold startOf
  simp only [offsetLimit]
  constructor
  · omega
  · split <;> omega

theorem startChecked_eq (h : l.Small) (hi : i < seqnumLimit) :
    l.startChecked i = some (l.startOf i) := by
  have hlt := h.startOf_lt hi
  unfold startChecked
  unfold startOf at hlt ⊢
  split
  · rfl
  · next hpos =>
    rw [if_neg hpos] at hlt
    rw [Checked.sub_eq (by omega), Option.bind_eq_bind, Option.bind_some, Checked.mul_eq hlt.1,
      Option.bind_some, Checked.add_eq hlt.2]

theorem rawStartChecked_eq (h : l.rawStartOf i < offsetLimit) :
    l.rawStartChecked i = some (l.rawStartOf i) := by
  unfold rawStartChecked
  unfold rawStartOf at h ⊢
  split
  · rfl
  · next hpos =>
    rw [if_neg hpos] at h
    -- the last sum is the one that the hypothesis is about; the numbers before it are smaller
    rw [Checked.add_eq (by omega), Option.bind_eq_bind, Option.bind_some, Checked.sub_eq (by omega),
      Option.bind_some, Checked.mul_eq (by omega), Option.bind_some, Checked.add_eq h]

/-- The place of a position can be computed in every layout with small capacities. -/
theorem locateChecked_eq (h : l.Small) (pos : Nat) :
    l.locateChecked pos = some (l.locate? pos) := by
  unfold locateChecked locate?
  rw [seqnumChecked_eq, Option.bind_eq_bind, Option.bind_some]
  cases hi : l.seqnumOf? pos with
  | none => rfl
  | some i =>
    obtain ⟨-, hstart, -, hnumber⟩ := seqnumOf?_eq_some_iff.mp hi
    simp only [Option.map_some]
    rw [startChecked_eq h hnumber, Option.bind_eq_bind, Option.bind_some, Checked.sub_eq hstart]
    rfl

theorem packedBeforeChecked_eq (l : Layout) (i : Nat) :
    l.packedBeforeChecked i = some (l.packedBefore? i) := by
  unfold packedBeforeChecked packedBefore?
  split
  · rfl
  · next hpos =>
    rw [Checked.sub_eq (by omega), Option.bind_eq_bind, Option.bind_some]
    rfl

/-- **The size of a streamed content is never larger than its chunk data,** and neither is any
number on the way to it. -/
theorem streamedSizeChecked_eq {overhead ct : Nat} (hp : l.Packs overhead) (hct : ct < offsetLimit)
    (lead : Nat) :
    l.streamedSizeChecked ct lead = some (l.streamedSize ct lead) := by
  unfold streamedSizeChecked streamedSize
  split
  · rfl
  · split
    · rfl
    · next hfirst =>
      obtain ⟨hbounded, hbehind⟩ := not_or.mp hfirst
      have hfirstPacked := hp.firstPacked_eq hbounded
      rw [Checked.sub_eq (by omega), Option.bind_eq_bind, Option.bind_some]
      split
      · exact Checked.add_eq (by omega)
      · next hplain =>
        have hpacked := hp.packed_eq hplain
        have hne : l.packed ≠ 0 := by omega
        have hdiv := Nat.div_add_mod (ct - l.firstPacked) l.packed
        rw [Nat.mul_comm] at hdiv
        have hfull : (ct - l.firstPacked) / l.packed * l.plain
            ≤ (ct - l.firstPacked) / l.packed * l.packed :=
          Nat.mul_le_mul_left _ (by omega)
        -- each number on the way is at most the size of the chunk data
        rw [Checked.div_eq hne, Option.bind_some, Checked.mod_eq hne, Option.bind_some,
          Checked.mul_eq (by omega), Option.bind_some,
          Checked.add_eq (by omega), Option.bind_some, Checked.add_eq (by omega)]

end Layout

/-! ## Chunks and records

What is cut out of a packed chunk or a record was counted before. A record of variable length is
cut only where its fixed part is there, and its length is asked for once more at the end. -/

namespace ChunkCipher

/-- The chunk in a sealed form that was made for this number. -/
def unpackChecked (c : ChunkCipher) (packed : Bytes) (seqnum : Nat) :
    Option (Except CryptoError Bytes) :=
  if packed.length < overhead then some (.error (.ciphertextSize overhead packed.length))
  else do
    let (nonce, data) ← Checked.split packed Gcm.nonceSize
    return match Gcm.decrypt? c.key nonce (associated seqnum) data with
      | some plain => .ok plain
      | none => .error (.authentication seqnum)

theorem unpackChecked_eq (c : ChunkCipher) (packed : Bytes) (seqnum : Nat) :
    c.unpackChecked packed seqnum = some (c.unpack packed seqnum) := by
  unfold unpackChecked unpack
  split
  · rfl
  · next hlen =>
    have hover : overhead = Gcm.nonceSize + Gcm.tagSize := rfl
    rw [Checked.split_eq (by omega)]
    rfl

end ChunkCipher

namespace StreamEncryptor

/-- The plaintext of a whole streamed chunk, nonce included. -/
def openChecked (key packed : Bytes) : Option (Except CryptoError Bytes) :=
  if packed.length < Salsa20.nonceSize then
    some (.error (.ciphertextSize Salsa20.nonceSize packed.length))
  else do
    let (nonce, data) ← Checked.split packed Salsa20.nonceSize
    return do
      let e ← start key nonce 0
      return (e.apply data).1

theorem openChecked_eq (key packed : Bytes) :
    openChecked key packed = some (openChunk key packed) := by
  unfold openChecked openChunk
  split
  · rfl
  · next hlen =>
    rw [Checked.split_eq (by omega)]
    rfl

end StreamEncryptor

namespace Header

/-- The header that `data` starts with. -/
def parseChecked (data : Bytes) : Option (Except RecordError Header) :=
  if data.length < size then some (.error (.truncated .header size data.length))
  else do
    let magic ← Checked.slice data 0 3
    match ofMagic magic with
    | .error e => return .error e
    | .ok streaming =>
      let version ← data[3]?
      if version ≠ currentVersion then return .error (.headerVersion version)
      else
        let descriptorSize ← Checked.slice data 4 2
        let plaintextSize ← Checked.slice data plaintextAt 8
        let ciphertextSize ← Checked.slice data ciphertextAt 8
        return .ok
          { streaming, version
            descriptorSize := UInt16.ofNat (Bytes.toNatLE descriptorSize)
            plaintextSize := UInt64.ofNat (Bytes.toNatLE plaintextSize)
            ciphertextSize := UInt64.ofNat (Bytes.toNatLE ciphertextSize) }

theorem parseChecked_eq (data : Bytes) : parseChecked data = some (parse data) := by
  unfold parseChecked parse
  split
  · rfl
  · next hlen =>
    have hsize : size = 22 := rfl
    have hplain : plaintextAt = 6 := rfl
    have hcipher : ciphertextAt = 14 := rfl
    have hversion : data[3]? = some (data.getD 3 0) := by
      rw [List.getD_eq_getElem?_getD, List.getElem?_eq_getElem (by omega)]
      rfl
    rw [Checked.slice_eq (by omega), Option.bind_eq_bind, Option.bind_some]
    have hmagic : data.slice 0 3 = data.take 3 := rfl
    rw [hmagic]
    cases ofMagic (data.take 3) with
    | error e => rfl
    | ok streaming =>
      simp only [hversion, Option.bind_eq_bind, Option.bind_some]
      split
      · rfl
      · rw [Checked.slice_eq (by omega), Option.bind_some, Checked.slice_eq (by omega),
          Option.bind_some, Checked.slice_eq (by omega)]
        rfl

end Header

namespace Descriptor

/-- The bytes that the record takes. -/
def encodedSizeChecked (d : Descriptor) : Option Nat := Checked.add fixedSize d.salt.length

/-- The descriptor that a byte string is. Its fields are read one after the other, and where the
data ends too early the reader says so itself. -/
def parseChecked (data : Bytes) : Option (Except RecordError Descriptor) :=
  if data.length < fixedSize then some (.error (.truncated .descriptor fixedSize data.length))
  else do
    let version ← data[0]?
    if version ≠ currentVersion then return .error (.descriptorVersion version)
    else
      let kdf ← data[1]?
      let suite ← data[2]?
      let rounds ← Checked.slice data 3 4
      let firstMax ← Checked.slice data 7 4
      let chunkMax ← Checked.slice data 11 4
      let saltLength ← data[15]?
      if data.length < fixedSize + saltLength.toNat then return .error .cutShort
      else
        let salt ← Checked.slice data fixedSize saltLength.toNat
        let found : Descriptor :=
          { version, kdf, suite
            rounds := UInt32.ofNat (Bytes.toNatLE rounds)
            firstMax := UInt32.ofNat (Bytes.toNatLE firstMax)
            chunkMax := UInt32.ofNat (Bytes.toNatLE chunkMax)
            saltLength, salt }
        let size ← found.encodedSizeChecked
        if size ≠ data.length then return .error (.truncated .descriptor size data.length)
        else return .ok found

theorem parseChecked_eq (data : Bytes) : parseChecked data = some (parse data) := by
  unfold parseChecked parse
  split
  · rfl
  · next hlen =>
    have hfixed : fixedSize = 16 := rfl
    have hbyte {i : Nat} (hi : i < 16) : data[i]? = some (data.getD i 0) := by
      rw [List.getD_eq_getElem?_getD, List.getElem?_eq_getElem (by omega)]
      rfl
    simp only [hbyte (i := 0) (by omega), hbyte (i := 1) (by omega), hbyte (i := 2) (by omega),
      hbyte (i := 15) (by omega), Option.bind_eq_bind, Option.bind_some]
    split
    · rfl
    · rw [Checked.slice_eq (by omega), Option.bind_some, Checked.slice_eq (by omega),
        Option.bind_some, Checked.slice_eq (by omega), Option.bind_some]
      split
      · rfl
      · next hsalt =>
        have hsmall : (data.getD 15 0).toNat < 256 := (data.getD 15 0).toNat_lt
        have hlimit : offsetLimit = 0x10000000000000000 := rfl
        have hle : fixedSize + (data.slice fixedSize (data.getD 15 0).toNat).length
            < offsetLimit := by
          rw [Bytes.length_slice]
          omega
        rw [Checked.slice_eq (by omega), Option.bind_some, encodedSizeChecked, Checked.add_eq hle,
          Option.bind_some]
        unfold encodedSize
        split <;> rfl

end Descriptor

namespace Processor

variable {p : Processor}

/-- The bytes that a full chunk takes in the file; a chunk without bound takes what is there. -/
def maxPackedChecked (p : Processor) (seqnum there : Nat) : Option Nat :=
  if p.maxPlainSize seqnum = 0 then some there else Checked.add (p.maxPlainSize seqnum) p.overhead

/-- The layout of the open container, whose chunk data begins at `dataOffset`. -/
def layoutChecked (p : Processor) (dataOffset : Nat) : Option Layout := do
  let firstPacked ← p.maxPackedChecked 0 0
  let packed ← p.maxPackedChecked 1 0
  return {
    dataOffset, firstPlain := p.maxPlainSize 0, plain := p.maxPlainSize 1, firstPacked, packed }

/-- The sizes in a header of the right kind of container. -/
def unpackHeaderChecked (p : Processor) (data : Bytes) : Option (Except Error HeaderInfo) := do
  match ← Header.parseChecked data with
  | .error e => return .error (.malformed (.header e))
  | .ok header =>
    return if header.streaming = p.config.streaming then .ok
      { plaintextSize := header.plaintextSize.toNat
        descriptorSize := header.descriptorSize.toNat
        ciphertextSize := header.ciphertextSize.toNat }
      else .error .streamMode

/-- The processor with the keys and capacities that a descriptor leads to. Nothing is computed but
the fields of the record. -/
def unpackDescriptorChecked (p : Processor) (data : Bytes) : Option (Except Error Processor) := do
  discard (Descriptor.parseChecked data)
  return p.unpackDescriptor data

/-- The chunk in a packed form. -/
def unpackChunkChecked (p : Processor) (packed : Bytes) (seqnum : Nat) :
    Option (Except Error Bytes) :=
  if p.config.streaming then
    match p.streamKey with
    | .error e => some (.error e)
    | .ok key => (StreamEncryptor.openChecked key packed).map (·.mapError .crypto)
  else
    match p.workingKeys with
    | .error e => some (.error e)
    | .ok keys => (keys.chunk.unpackChecked packed seqnum).map (·.mapError .crypto)

/-- Capacities are 32-bit numbers. -/
theorem maxPlainSize_lt (p : Processor) (i : Nat) : p.maxPlainSize i < seqnumLimit := by
  unfold maxPlainSize
  split
  · exact p.firstMax.toNat_lt
  · exact p.chunkMax.toNat_lt

theorem maxPackedChecked_eq (p : Processor) (i there : Nat) :
    p.maxPackedChecked i there = some (p.maxPackedSize i there) := by
  have hplain := p.maxPlainSize_lt i
  have hover : p.overhead ≤ 28 := by
    unfold overhead
    split <;> decide
  have hlimit : seqnumLimit + 28 < offsetLimit := by decide
  unfold maxPackedChecked maxPackedSize
  split
  · rfl
  · exact Checked.add_eq (by omega)

theorem layoutChecked_eq (p : Processor) (dataOffset : Nat) :
    p.layoutChecked dataOffset = some (p.layout dataOffset) := by
  rw [layoutChecked, maxPackedChecked_eq, Option.bind_eq_bind, Option.bind_some,
    maxPackedChecked_eq]
  rfl

theorem small_layout (p : Processor) (dataOffset : Nat) : (p.layout dataOffset).Small :=
  ⟨p.maxPlainSize_lt 0, p.maxPlainSize_lt 1⟩

theorem unpackHeaderChecked_eq (p : Processor) (data : Bytes) :
    p.unpackHeaderChecked data = some (p.unpackHeader data) := by
  rw [unpackHeaderChecked, unpackHeader, Header.parseChecked_eq, Option.bind_eq_bind,
    Option.bind_some]
  cases Header.parse data <;> rfl

theorem unpackDescriptorChecked_eq (p : Processor) (data : Bytes) :
    p.unpackDescriptorChecked data = some (p.unpackDescriptor data) := by
  rw [unpackDescriptorChecked, Descriptor.parseChecked_eq]
  rfl

theorem unpackChunkChecked_eq (p : Processor) (packed : Bytes) (seqnum : Nat) :
    p.unpackChunkChecked packed seqnum = some (p.unpackChunk packed seqnum) := by
  unfold unpackChunkChecked unpackChunk
  split
  · cases p.streamKey with
    | error e => rfl
    | ok key => simp only [StreamEncryptor.openChecked_eq, Option.map_some]
  · cases p.workingKeys with
    | error e => rfl
    | ok keys => simp only [ChunkCipher.unpackChecked_eq, Option.map_some]

end Processor

end Vault
