import Mathlib.Data.Nat.Notation

/-!
# CRC32C

The table-driven Castagnoli checksum of `checksum.rs`, one byte at a time.
-/

namespace EveDB

/-- Bytes of a file or a buffer. -/
abbrev Bytes := List UInt8

/-- One bit step of the reflected Castagnoli polynomial. -/
def crcBit (value : UInt32) : UInt32 := (value >>> 1) ^^^ (0x82f63b78 &&& (0 - (value &&& 1)))

/-- An entry of the lookup table. -/
def crcTable (i : UInt32) : UInt32 :=
  crcBit (crcBit (crcBit (crcBit (crcBit (crcBit (crcBit (crcBit i)))))))

/-- Feeds one byte to a running checksum. -/
def crcUpdate (crc : UInt32) (byte : UInt8) : UInt32 :=
  crcTable ((crc ^^^ byte.toUInt32) &&& 255) ^^^ (crc >>> 8)

/-- The checksum of a byte string. -/
def crc32c (bytes : Bytes) : UInt32 := ~~~(bytes.foldl crcUpdate (~~~0))

example : crc32c [49, 50, 51, 52, 53, 54, 55, 56, 57] = 0xe3069283 := by decide +kernel

end EveDB
