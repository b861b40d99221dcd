import Vault.Error
import Vault.Key.Derivation
import Vault.Text.Json

/-!
# `Vault/Config.lean` — configurations

Two of them. A `ContainerConfig` says how an open container behaves and is forgotten with it; a
`ProcessorConfig` says how new containers are made and goes into their descriptors. Both have a
default for every field, both can be read from JSON, and both can be unusable (`validate`):
**reading and validating are separate**, so a configuration may be read, corrected and used.

In JSON a field may be missing, fields nobody knows are ignored, and a field given twice is an
error.
-/

set_option autoImplicit false

namespace Vault

/-- The version of the library. -/
def version : String := "0.2.0"

/-- How an open container behaves. -/
structure ContainerConfig where
  /-- The number of chunks in memory. -/
  maxCachedChunks : Nat := 8
  /-- The bytes written at a time when a file grows, and read at a time when it is hashed. -/
  maxProcessingSize : Nat := 0x100000
  /-- May chunks be kept, in the modes where that pays? -/
  cacheEnabled : Bool := true
deriving DecidableEq

/-- How new containers are made. -/
structure ProcessorConfig where
  suite : Suite := default
  kdf : Kdf := default
  /-- The rounds of stretching. -/
  rounds : UInt32 := UInt32.ofNat KeyDeriver.defaultRounds
  /-- The capacity of chunk 0; 0 when it is that of the others. -/
  firstMax : UInt32 := 0
  /-- The capacity of the other chunks; 0 when they are not bounded. -/
  chunkMax : UInt32 := 16384
  /-- Are chunks streamed rather than sealed? -/
  streaming : Bool := false
deriving DecidableEq

/-- One more than the largest size that a container configuration can hold. -/
def sizeLimit : Nat := 0x10000000000000000

/-- The size of the largest buffer that can be asked for. A configuration can hold larger ones. -/
def allocationLimit : Nat := 0x7fffffffffffffff

open Text (Json)

namespace ContainerConfig

/-- Refuses a configuration that cannot be used. -/
def validate (c : ContainerConfig) : Except Error Unit :=
  if c.maxCachedChunks = 0 then .error (.misconfigured .noChunks)
  else if c.maxProcessingSize = 0 then .error (.misconfigured .noBlock)
  else .ok ()

/-- The configuration that a JSON text writes. -/
def ofJson? (text : String) : Option ContainerConfig := do
  let members ← (← Json.ofText? text).members
  let standard : ContainerConfig := {}
  return {
    maxCachedChunks :=
      ← Json.field members "max_cached_chunks" (Json.naturalBelow? sizeLimit)
        standard.maxCachedChunks
    maxProcessingSize :=
      ← Json.field members "max_processing_size" (Json.naturalBelow? sizeLimit)
        standard.maxProcessingSize
    cacheEnabled := ← Json.field members "cache_enabled" Json.bool? standard.cacheEnabled }

end ContainerConfig

namespace ProcessorConfig

/-- Refuses a combination that cannot be used. -/
def validate (c : ProcessorConfig) : Except Error Unit :=
  if c.streaming && !c.suite.streams then .error (.unsupported (.noStream c.suite))
  else if c.kdf = .pbkdf2Hkdf ∧ c.rounds = 0 then .error (.misconfigured .noRounds)
  else .ok ()

/-- A natural number of 32 bits. -/
def word? (value : Json) : Option UInt32 := (value.naturalBelow? 0x100000000).map UInt32.ofNat

/-- The configuration that a JSON text writes. -/
def ofJson? (text : String) : Option ProcessorConfig := do
  let members ← (← Json.ofText? text).members
  let standard : ProcessorConfig := {}
  return {
    suite :=
      ← Json.field members "cipher_suite" (fun v => v.alternative?.bind Suite.ofKey?) standard.suite
    kdf := ← Json.field members "kdf_type" (fun v => v.alternative?.bind Kdf.ofKey?) standard.kdf
    rounds := ← Json.field members "kdf_rounds" word? standard.rounds
    firstMax := ← Json.field members "first_chunk_max_size" word? standard.firstMax
    chunkMax := ← Json.field members "chunk_max_size" word? standard.chunkMax
    streaming := ← Json.field members "streaming" Json.bool? standard.streaming }

end ProcessorConfig

end Vault
