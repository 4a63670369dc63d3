import MbBootTv.Lib.Bytes

/-!
# `crc.c`

The reflected CRC-32, one bit at a time, as `crc32_le` computes it. The only fact the parser
needs is that the checksum of `len` bytes depends on those bytes and no others.
-/

namespace MbBootTv

/-- `CRCPOLY_LE` -/
def crcpolyLe : UInt32 := 0xedb88320

/-- The body of the bit loop. -/
def crcBit (crc : UInt32) : UInt32 :=
  (crc >>> 1) ^^^ (if crc &&& 1 ≠ 0 then crcpolyLe else 0)

/-- `for (i = 0; i < n; i++)` over the bits of a byte. -/
def crcBits : Nat → UInt32 → UInt32
  | 0, crc => crc
  | n + 1, crc => crcBits n (crcBit crc)

/-- One pass of `crc32_le`'s outer loop. -/
def crcByte (crc : UInt32) (b : UInt8) : UInt32 := crcBits 8 (crc ^^^ b.toUInt32)

/-- `crc32_le` -/
def crc32Le (crc : UInt32) (p : Bytes) : Nat → UInt32
  | 0 => crc
  | len + 1 => crc32Le (crcByte crc (p 0)) (fun i => p (i + 1)) len

/-- `efi_crc32` -/
def efiCrc32 (buf : Bytes) (len : UInt32) : UInt32 :=
  crc32Le 0xFFFFFFFF buf len.toNat ^^^ 0xFFFFFFFF

/-- The checksum of `len` bytes reads those bytes only. -/
theorem crc32Le_congr {crc : UInt32} {p q : Bytes} {len : Nat} (h : ∀ i < len, p i = q i) :
    crc32Le crc p len = crc32Le crc q len := by
  induction len generalizing crc p q with
  | zero => rfl
  | succ len ih =>
    rw [crc32Le, crc32Le, h 0 (Nat.succ_pos len)]
    exact ih fun i hi => h (i + 1) (Nat.succ_lt_succ hi)

theorem efiCrc32_congr {p q : Bytes} {len : UInt32} (h : ∀ i < len.toNat, p i = q i) :
    efiCrc32 p len = efiCrc32 q len := by
  rw [efiCrc32, efiCrc32, crc32Le_congr h]

/-- The CRC-32 of a single zero byte. -/
example : efiCrc32 (fun _ => 0) 1 = 0xD202EF8D := by decide +kernel

end MbBootTv
