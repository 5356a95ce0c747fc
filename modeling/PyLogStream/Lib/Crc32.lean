import PyLogStream.Lib.Bytes

/-!
The CRC-32 checksum with the reflected polynomial, bit by bit.
-/

namespace Lib

def crcShift (crc : Nat) : Nat :=
  if crc % 2 = 1 then 0xEDB88320 ^^^ (crc / 2) else crc / 2

def crcByte (crc : Nat) (b : UInt8) : Nat :=
  crcShift (crcShift (crcShift (crcShift (crcShift (crcShift (crcShift (crcShift
    (crc ^^^ b.toNat))))))))

def crc32 (data : Bytes) : Nat := data.foldl crcByte 0xFFFFFFFF ^^^ 0xFFFFFFFF

/-- The check value of the algorithm, for the digits from one to nine. -/
example : crc32 [0x31, 0x32, 0x33, 0x34, 0x35, 0x36, 0x37, 0x38, 0x39] = 0xCBF43926 := by
  decide +kernel

theorem crcShift_lt {crc : Nat} (h : crc < 2 ^ 32) : crcShift crc < 2 ^ 32 := by
  have hhalf : crc / 2 < 2 ^ 32 := by omega
  rw [crcShift]
  split
  · exact Nat.xor_lt_two_pow (by decide) hhalf
  · exact hhalf

theorem crcByte_lt {crc : Nat} (h : crc < 2 ^ 32) (b : UInt8) : crcByte crc b < 2 ^ 32 := by
  have hbyte : b.toNat < 2 ^ 32 := b.toNat_lt.trans (by decide)
  have hfirst := crcShift_lt (crcShift_lt (crcShift_lt (crcShift_lt
    (Nat.xor_lt_two_pow h hbyte))))
  exact crcShift_lt (crcShift_lt (crcShift_lt (crcShift_lt hfirst)))

/-- The checksum fits into four bytes. -/
theorem crc32_lt (data : Bytes) : crc32 data < 2 ^ 32 := by
  have hfold : ∀ crc < 2 ^ 32, data.foldl crcByte crc < 2 ^ 32 := by
    induction data with
    | nil => exact fun crc h => h
    | cons b data ih => exact fun crc h => ih _ (crcByte_lt h b)
  exact Nat.xor_lt_two_pow (hfold _ (by decide)) (by decide)

end Lib
