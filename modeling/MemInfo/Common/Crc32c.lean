import Mathlib.Logic.Function.Iterate
import MemInfo.Common.Types

/-! # The checksum of payloads

`crc32c` as the table-driven loop computes it.
-/

namespace MemInfo

/-- One round of the inner loop of `generate_crc32c_table`. -/
def crcRound (crc : UInt32) : UInt32 :=
  if crc &&& 1 ≠ 0 then (crc >>> 1) ^^^ 0x82F63B78 else crc >>> 1

def generateCrc32cTable : List UInt32 :=
  (List.range 256).map fun i => crcRound^[8] (UInt32.ofNat i)

/-- One round of the byte loop of `crc32c`. -/
def crcByte (crc : UInt32) (b : Byte) : UInt32 :=
  generateCrc32cTable.getD ((crc ^^^ b.toUInt32) &&& 0xFF).toNat 0 ^^^ (crc >>> 8)

def crc32c (data : List Byte) (initialCrc : UInt32 := 0) : UInt32 :=
  ~~~ data.foldl crcByte (~~~ initialCrc)

end MemInfo
