import Vault.Processor
import Vault.Proofs.Layout

/-!
# `Vault/Proofs/Metadata.lean` — what a descriptor says to everybody with the master key

The descriptor is all that a container tells about its algorithms, capacities and salt. `Metadata`
is a descriptor together with what follows from it, and carries the proof that it does: **every
processor that holds the master key reads the same keys and capacities from it, whatever it is
configured for itself** — as long as it is configured for the same kind of chunks. The metadata
that a processor writes for a new container is of this form (`packMetadata_eq`).
-/

set_option autoImplicit false

namespace Vault

/-! ## Records that are read back

A field reads back if its number fits the field, and the fields stand where the widths in front
of them put them. -/

namespace Bytes

theorem toNatLE_ofNatLE_of_lt {width n : Nat} (h : n < limit width) :
    toNatLE (ofNatLE width n) = n := by
  rw [toNatLE_ofNatLE, Nat.mod_eq_of_lt h]

end Bytes

/-- An error that did not come is not renamed. -/
@[simp] theorem mapError_ok {α ε ε' : Type} (f : ε → ε') (a : α) :
    (Except.ok a).mapError f = .ok a := rfl

namespace Descriptor

/-- A descriptor of the current version whose salt has the length that it says reads back. -/
theorem parse_build {d : Descriptor} (hversion : d.version = currentVersion)
    (hsalt : d.saltLength.toNat = d.salt.length) : parse d.build = .ok d := by
  have hlen : d.build.length = fixedSize + d.salt.length := d.length_build
  have hrounds : Bytes.slice d.build 3 4 = Bytes.ofNatLE 4 d.rounds.toNat := by
    simp [build, Bytes.slice, Bytes.ofNatLE]
  have hfirst : Bytes.slice d.build 7 4 = Bytes.ofNatLE 4 d.firstMax.toNat := by
    simp [build, Bytes.slice, Bytes.ofNatLE]
  have hchunk : Bytes.slice d.build 11 4 = Bytes.ofNatLE 4 d.chunkMax.toNat := by
    simp [build, Bytes.slice, Bytes.ofNatLE]
  -- the last fixed field says how long the salt is; here it is right
  have hsaltLength : d.build.getD 15 0 = d.saltLength := by
    simp [build, Bytes.ofNatLE]
  have hbytes : Bytes.slice d.build fixedSize d.saltLength.toNat = d.salt := by
    simp [build, Bytes.slice, Bytes.ofNatLE, fixedSize, hsalt]
  have hword (w : UInt32) : UInt32.ofNat (Bytes.toNatLE (Bytes.ofNatLE 4 w.toNat)) = w := by
    rw [Bytes.toNatLE_ofNatLE_of_lt w.toNat_lt, UInt32.ofNat_toNat]
  have hhead : d.build.getD 0 0 = d.version ∧ d.build.getD 1 0 = d.kdf ∧
      d.build.getD 2 0 = d.suite := by simp [build]
  unfold parse
  simp only [hrounds, hfirst, hchunk, hsaltLength, hbytes, hword, hhead, hversion]
  -- version, lengths and sizes pass in the order in which they are checked
  rw [if_neg (by omega), if_neg (by simp), if_neg (by omega)]
  rw [if_neg (by simp [encodedSize, hlen]), ← hversion]

end Descriptor

namespace Header

/-- The start of a header, which nothing changes once the container is made. -/
def head (streaming : Bool) (descriptorSize : Nat) : Bytes :=
  (if streaming then streamMagic else sealedMagic)
    ++ currentVersion :: Bytes.ofNatLE 2 descriptorSize

@[simp] theorem length_head (streaming : Bool) (n : Nat) : (head streaming n).length = 6 := by
  cases streaming <;> simp [head, streamMagic, sealedMagic]

/-- A header as it stands in a file: the start, and the two sizes as they are now. -/
def written (streaming : Bool) (descriptorSize plaintextSize ciphertextSize : Nat) : Bytes :=
  head streaming descriptorSize ++ (Bytes.ofNatLE 8 plaintextSize ++ Bytes.ofNatLE 8 ciphertextSize)

@[simp] theorem length_written (streaming : Bool) (n x y : Nat) :
    (written streaming n x y).length = size := by
  simp [written, size]

/-- A header as it stands in a file reads back, as long as its numbers fit their fields. -/
theorem parse_written {streaming : Bool} {n x y : Nat} (hn : n < 65536) (hx : x < offsetLimit)
    (hy : y < offsetLimit) :
    parse (written streaming n x y) = .ok
      { streaming, version := currentVersion, descriptorSize := UInt16.ofNat n
        plaintextSize := UInt64.ofNat x, ciphertextSize := UInt64.ofNat y } := by
  have hmagic : ofMagic ((written streaming n x y).take 3) = .ok streaming := by
    cases streaming <;> rfl
  have hversion : (written streaming n x y).getD 3 0 = currentVersion := by
    cases streaming <;> rfl
  have hdescriptor : Bytes.slice (written streaming n x y) 4 2 = Bytes.ofNatLE 2 n := by
    cases streaming <;> simp [written, head, streamMagic, sealedMagic, Bytes.slice, Bytes.ofNatLE]
  have hplain : Bytes.slice (written streaming n x y) plaintextAt 8 = Bytes.ofNatLE 8 x := by
    simp [written, plaintextAt, Bytes.slice]
  have hcipher : Bytes.slice (written streaming n x y) ciphertextAt 8 = Bytes.ofNatLE 8 y := by
    have hnil : (head streaming n).drop 14 = [] := List.drop_eq_nil_of_le (by simp)
    simp [written, ciphertextAt, Bytes.slice, List.drop_append, hnil, List.take_of_length_le]
  unfold parse
  rw [if_neg (by simp)]
  simp only [hmagic, hversion, hdescriptor, hplain, hcipher]
  rw [if_neg (by simp), Bytes.toNatLE_ofNatLE_of_lt hn, Bytes.toNatLE_ofNatLE_of_lt hx,
    Bytes.toNatLE_ofNatLE_of_lt hy]

/-- The header of a new container tells of a content, but of no chunk data. -/
theorem build_new (streaming : Bool) (n : Nat) (hn : n < 65536) (initialSize : UInt64) :
    (Header.new streaming (UInt16.ofNat n) initialSize).build
      = written streaming n initialSize.toNat 0 := by
  have htoNat : (UInt16.ofNat n).toNat = n := by
    rw [UInt16.toNat_ofNat']
    exact Nat.mod_eq_of_lt hn
  cases streaming <;> simp [Header.new, build, written, head, htoNat]

end Header

/-! ## Metadata

`opens` is the one fact that opening needs: the capacities and the keys are read off, and no byte
of the descriptor has to be looked at again. -/

/-- A descriptor with what follows from it for whoever holds the master key. -/
structure Metadata where
  master : MasterKey
  /-- Are chunks streamed rather than sealed? -/
  streaming : Bool
  descriptor : Bytes
  suite : Suite
  kdf : Kdf
  firstMax : UInt32
  chunkMax : UInt32
  keys : WorkingKeys
  /-- The header can say how long the descriptor is. -/
  small : descriptor.length < 65536
  /-- Every processor with the master key and for this kind of chunks reads the same from it. -/
  opens : ∀ p : Processor, p.master = master → p.config.streaming = streaming →
    p.unpackDescriptor descriptor =
      .ok { p with suite, kdf, firstMax, chunkMax, keys := some keys, stream := none }

namespace Metadata

/-- The start of the header. -/
def head (m : Metadata) : Bytes := Header.head m.streaming m.descriptor.length

@[simp] theorem length_head (m : Metadata) : m.head.length = 6 :=
  Header.length_head m.streaming m.descriptor.length

/-- The header with the given sizes. -/
def header (m : Metadata) (plaintextSize ciphertextSize : Nat) : Bytes :=
  Header.written m.streaming m.descriptor.length plaintextSize ciphertextSize

/-- Where chunk data begins. -/
def dataOffset (m : Metadata) : Nat := Header.size + m.descriptor.length

/-- The bytes that packing adds to a chunk. -/
def overhead (m : Metadata) : Nat :=
  if m.streaming then Salsa20.nonceSize else ChunkCipher.overhead

/-- The layout of the container. -/
def layout (m : Metadata) : Layout := Layout.ofSizes m.firstMax m.chunkMax m.overhead m.dataOffset

/-- A processor that has read the descriptor. -/
def install (m : Metadata) (p : Processor) : Processor :=
  { p with suite := m.suite, kdf := m.kdf, firstMax := m.firstMax, chunkMax := m.chunkMax,
           keys := some m.keys, stream := none }

@[simp] theorem keys_install (m : Metadata) (p : Processor) :
    (m.install p).keys = some m.keys := rfl

@[simp] theorem firstMax_install (m : Metadata) (p : Processor) :
    (m.install p).firstMax = m.firstMax := rfl

@[simp] theorem chunkMax_install (m : Metadata) (p : Processor) :
    (m.install p).chunkMax = m.chunkMax := rfl

@[simp] theorem dataOffset_layout (m : Metadata) : m.layout.dataOffset = m.dataOffset := rfl

theorem packs_layout (m : Metadata) : m.layout.Packs m.overhead :=
  Layout.packs_ofSizes m.firstMax m.chunkMax m.overhead m.dataOffset

/-- A processor with the capacities of the container lays it out like that. -/
theorem layout_eq {m : Metadata} {p : Processor} (hfirst : p.firstMax = m.firstMax)
    (hchunk : p.chunkMax = m.chunkMax) (hstreaming : p.config.streaming = m.streaming) :
    p.layout m.dataOffset = m.layout := by
  have hoverhead : p.overhead = m.overhead := by simp [Processor.overhead, overhead, hstreaming]
  simp only [Processor.layout, layout, Layout.ofSizes, Layout.packedSize, Processor.maxPackedSize,
    Processor.maxPlainSize, hoverhead, hfirst, hchunk]
  by_cases h0 : m.firstMax = 0 <;> simp [h0]

theorem capacity_layout {m : Metadata} {p : Processor} (hfirst : p.firstMax = m.firstMax)
    (hchunk : p.chunkMax = m.chunkMax) (i : Nat) : m.layout.capacity i = p.maxPlainSize i := by
  simp only [Layout.capacity, layout, Layout.ofSizes, Processor.maxPlainSize, hfirst, hchunk]
  by_cases h0 : m.firstMax = 0 <;> by_cases hi : i = 0 <;> simp [h0, hi]

/-- Whoever expects this kind of chunks reads the sizes from the header. -/
theorem unpackHeader_header {m : Metadata} {p : Processor} {x y : Nat}
    (hstreaming : p.config.streaming = m.streaming) (hx : x < offsetLimit) (hy : y < offsetLimit) :
    p.unpackHeader (m.header x y) = .ok
      { plaintextSize := x, descriptorSize := m.descriptor.length, ciphertextSize := y } := by
  have hword {n : Nat} (h : n < offsetLimit) : (UInt64.ofNat n).toNat = n := by
    rw [UInt64.toNat_ofNat']
    exact Nat.mod_eq_of_lt h
  have hsmall : (UInt16.ofNat m.descriptor.length).toNat = m.descriptor.length := by
    rw [UInt16.toNat_ofNat']
    exact Nat.mod_eq_of_lt m.small
  unfold Processor.unpackHeader header
  rw [Header.parse_written m.small hx hy]
  simp only [hstreaming, if_true, hword hx, hword hy, hsmall]

/-- Whoever expects the other kind of chunks refuses the header. -/
theorem unpackHeader_refused {m : Metadata} {p : Processor} {x y : Nat}
    (hstreaming : p.config.streaming ≠ m.streaming) (hx : x < offsetLimit) (hy : y < offsetLimit) :
    p.unpackHeader (m.header x y) = .error .streamMode := by
  unfold Processor.unpackHeader header
  rw [Header.parse_written m.small hx hy]
  exact if_neg (Ne.symm hstreaming)

end Metadata

/-! ## Metadata of a new container

The salt is drawn, the descriptor is built around it, and what everybody will read from it is
what the processor itself derived. A configuration that passes its check leaves nothing to fail. -/

namespace WorkingKeys

/-- A configuration that can be used has working keys. -/
theorem derive_of_validate {config : ProcessorConfig} (h : config.validate = .ok ())
    (master : MasterKey) (salt : Bytes) :
    ∃ keys, derive master config.kdf config.suite salt config.rounds.toNat = .ok keys := by
  unfold ProcessorConfig.validate at h
  split at h
  · exact absurd h (by simp)
  · split at h
    · exact absurd h (by simp)
    · rename_i hrounds
      unfold derive
      -- only stretching a password can be asked for no rounds at all
      cases hk : config.kdf with
      | hkdf => exact ⟨_, rfl⟩
      | pbkdf2Hkdf =>
        have hne : config.rounds.toNat ≠ 0 := by
          intro h0
          exact hrounds ⟨hk, UInt32.toNat_inj.mp h0⟩
        simp only [KeyDeriver.ofMaster, if_neg hne]
        exact ⟨_, rfl⟩

end WorkingKeys

namespace Processor

/-- **The metadata that a processor writes for a new container** can be read by everybody with the
master key, and the processor itself holds the keys that they will derive. -/
theorem packMetadata_sized {p : Processor} (h : p.config.validate = .ok ()) (initialSize : UInt64)
    (random : Random) :
    ∃ (m : Metadata) (random' : Random),
      p.packMetadata initialSize random
        = .ok (m.header initialSize.toNat 0 ++ m.descriptor, m.install p.reset) random' ∧
      m.master = p.master ∧ m.streaming = p.config.streaming ∧
      m.firstMax = p.config.firstMax ∧ m.chunkMax = p.config.chunkMax := by
  obtain ⟨salt, hsalt⟩ : ∃ salt, salt = (random.draw KeyDeriver.saltSize).1 := ⟨_, rfl⟩
  have hsize : salt.length = 16 := by rw [hsalt, Random.length_draw]; rfl
  obtain ⟨keys, hkeys⟩ := WorkingKeys.derive_of_validate h p.master salt
  -- the descriptor that will be written, with a salt that nobody knows yet
  let d : Descriptor :=
    { version := Descriptor.currentVersion, kdf := p.config.kdf.id, suite := p.config.suite.id
      rounds := p.config.rounds, firstMax := p.config.firstMax, chunkMax := p.config.chunkMax
      saltLength := UInt8.ofNat salt.length, salt }
  have hd : p.newDescriptor salt = .ok d := by
    unfold newDescriptor Descriptor.new
    rw [if_pos (by omega)]
    rfl
  have hlen : d.build.length = 32 := by
    rw [Descriptor.length_build, Descriptor.encodedSize, Descriptor.fixedSize]
    show 16 + salt.length = 32
    omega
  have hparse : Descriptor.parse d.build = .ok d := by
    refine Descriptor.parse_build rfl ?_
    show (UInt8.ofNat salt.length).toNat = salt.length
    rw [hsize]
    rfl
  -- the check that keeps a suite without a stream out of a streaming container is that of opening
  have hstreams : ¬(p.config.streaming && !p.config.suite.streams) = true := by
    intro hbad
    unfold ProcessorConfig.validate at h
    rw [if_pos hbad] at h
    exact absurd h (by simp)
  let m : Metadata :=
    { master := p.master, streaming := p.config.streaming, descriptor := d.build
      suite := p.config.suite, kdf := p.config.kdf
      firstMax := p.config.firstMax, chunkMax := p.config.chunkMax, keys
      small := by omega
      opens := by
        -- the reader derives from its own master key, so the keys agree because the masters do
        intro q hmaster hq
        unfold unpackDescriptor
        simp only [hparse, mapError_ok, bind, Except.bind, d, Kdf.ofId_id, Suite.ofId_id, hq,
          if_neg hstreams, hmaster, hkeys, pure, Except.pure] }
  refine ⟨m, (random.draw KeyDeriver.saltSize).2, ?_, rfl, rfl, rfl, rfl⟩
  have hheader : (Header.new p.config.streaming (UInt16.ofNat d.encodedSize) initialSize).build
      = m.header initialSize.toNat 0 := by
    rw [← Descriptor.length_build]
    exact Header.build_new p.config.streaming d.build.length (by omega) initialSize
  have hdraw : Draw.bytes KeyDeriver.saltSize random
      = .ok salt (random.draw KeyDeriver.saltSize).2 := by rw [hsalt]; rfl
  unfold packMetadata
  simp only [bind, EStateM.bind, hdraw, hd, Draw.ofExcept, pure, EStateM.pure, hkeys,
    mapError_ok, hheader]
  rfl

/-- A container starts empty. -/
theorem packMetadata_eq {p : Processor} (h : p.config.validate = .ok ()) (random : Random) :
    ∃ (m : Metadata) (random' : Random),
      p.packMetadata 0 random = .ok (m.header 0 0 ++ m.descriptor, m.install p.reset) random' ∧
      m.master = p.master ∧ m.streaming = p.config.streaming ∧
      m.firstMax = p.config.firstMax ∧ m.chunkMax = p.config.chunkMax :=
  packMetadata_sized h 0 random

end Processor

end Vault
