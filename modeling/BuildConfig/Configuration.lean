/-
Configurations, and the checksums they are known by.

A configuration is a bundle that is final.  It is referred to by its checksum, the
BLAKE3 hash of the bundle's bytes, so equal bundles have equal checksums no matter how
and where they were made.
-/
import BuildConfig.Bundle.Stream
import BuildConfig.Digest.Blake3

namespace BuildConfig

/-- The thirty-two bytes of a hash. -/
structure Checksum where
  bytes : List UInt8
  deriving DecidableEq

namespace Checksum

/-- A byte as two digits. -/
def hexOfByte (byte : UInt8) : List Char :=
  [Nat.digitChar (byte.toNat / 16), Nat.digitChar (byte.toNat % 16)]

/-- The checksum in lowercase hexadecimal digits. -/
def hex (checksum : Checksum) : String :=
  String.ofList (checksum.bytes.flatMap hexOfByte)

/-- Checksums are ordered by their bytes, which is the order of their digits. -/
instance : LT Checksum :=
  ⟨fun a b => a.hex < b.hex⟩

instance : DecidableLT Checksum := fun a b =>
  inferInstanceAs (Decidable (a.hex < b.hex))

/-- The checksum as it stands in descriptions. -/
def describe (checksum : Checksum) : String :=
  "Hash32(" ++ checksum.hex ++ ")"

end Checksum

/-- A bundle that is final. -/
structure Configuration where
  bundle : Bundle
  deriving DecidableEq

namespace Configuration

/-- The hash of the bundle's bytes. -/
def checksum (configuration : Configuration) : Checksum :=
  ⟨Digest.Blake3.hash configuration.bundle.stream⟩

/-- The configuration as it stands in descriptions, by the start of its checksum. -/
def describe (configuration : Configuration) : String :=
  "ConfigurationKey(" ++ String.ofList (configuration.checksum.hex.toList.take 12) ++ ")"

/-- The positions of the configurations in the order of their checksums. -/
def rank (configurations : List Configuration) : List Nat :=
  let numbered := configurations.zipIdx.map fun (c, i) => (c.checksum, i)
  (numbered.mergeSort fun a b => !decide (b.1 < a.1)).map (·.2)

end Configuration

end BuildConfig
