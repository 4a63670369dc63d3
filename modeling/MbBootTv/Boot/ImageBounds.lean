import MbBootTv.Boot.HandOff

/-!
# The reads of the kernel image (`loader_init.c`)

`boot_kernel` is told the length of the image and uses it for one thing, the length of the payload.
The other reads are of fixed offsets, and the setup area is as long as a byte of the image says.
`staysInImage_iff` says which images are read within their length.
-/

namespace MbBootTv

/-- A read of the image: `len` bytes from `offset` on. -/
structure ImageRead where
  offset : Nat
  len : Nat

/-- What is read, of the image at `k`. -/
def ImageRead.of (a : ImageRead) (mem : Bytes) (k : Nat) : Bytes := fun i => mem (k + a.offset + i)

/-- The length of the setup area, as it is read when the buffer of the kernel has been cleared. -/
def clearedSetup (mem : Bytes) (k : Nat) : Nat := setupSize (mem.fill kernelStart 0 kernelBuffer) k

/-- `k_len - ((kc[0x1F1] + 1) * 512)` -/
def payloadLength (mem : Bytes) (k kLen : Nat) : Int := (kLen : Int) - clearedSetup mem k

/-- What `boot_kernel` reads of an image that it does not refuse, in order: the signature, the
number of setup sectors, the payload, of which the length has become a `size_t`, and the first
0x2000 bytes. -/
def imageReads (mem : Bytes) (k kLen : Nat) : List ImageRead :=
  [⟨0x1FE, 1⟩, ⟨0x1FF, 1⟩, ⟨0x1F1, 1⟩,
    ⟨clearedSetup mem k, (payloadLength mem k kLen % 2 ^ 32).toNat⟩, ⟨0, 0x2000⟩]

/-- `boot_kernel` returns, or it reads within the image, and the payload has a length that fits its
buffer. -/
def StaysInImage (hw : BootParms) (mem : Bytes) (bp gdt k kLen r rLen o : Nat) : Prop :=
  bootKernel hw mem bp gdt k kLen r rLen o = .ok none ∨
    (∀ a ∈ imageReads mem k kLen, a.offset + a.len ≤ kLen) ∧
      0 ≤ payloadLength mem k kLen ∧ payloadLength mem k kLen ≤ kernelBuffer

section Reads

variable {hw : BootParms} {mem : Bytes} {bp gdt k kLen r rLen o : Nat}

/-- Behind the signature there is no way back. -/
theorem bootKernel_eq_none_iff :
    bootKernel hw mem bp gdt k kLen r rLen o = .ok none ↔
      mem (k + 0x1FE) ≠ 0x55 ∨ mem (k + 0x1FF) ≠ 0xAA := by
  unfold bootKernel
  by_cases hsig : mem (k + 0x1FE) ≠ 0x55 ∨ mem (k + 0x1FF) ≠ 0xAA
  · rw [if_pos hsig]
    exact iff_of_true rfl hsig
  · rw [if_neg hsig]
    refine iff_of_false (fun h => ?_) hsig
    dsimp only at h
    split_ifs at h
    · cases h
    · obtain ⟨mem', -, h⟩ := bind_eq_ok.mp h
      cases h

/-- **The reads of `boot_kernel`** are those of the list: it looks at nothing else of the image. -/
theorem bootKernel_eq_reads (hlen : kLen < 2 ^ 32) :
    ∃ first second sectors payload head : ImageRead,
      imageReads mem k kLen = [first, second, sectors, payload, head] ∧
      clearedSetup mem k =
        ((sectors.of (mem.fill kernelStart 0 kernelBuffer) k 0).toNat + 1) * 512 ∧
      bootKernel hw mem bp gdt k kLen r rLen o =
        if first.of mem k 0 ≠ 0x55 ∨ second.of mem k 0 ≠ 0xAA then .ok none
        else if payloadLength mem k kLen < 0 then .error .overrun
        else do
          let cleared := mem.fill kernelStart 0 kernelBuffer
          let unpacked := cleared.copy kernelStart (payload.of cleared k) payload.len
          let blank := unpacked.fill bp 0 bootParamMemsize
          let params := blank.copy bp (head.of blank k) head.len
          let mem ← sprintfCmdline hw params (bp + cmdlineOffset) o
          let mem := sysdepsCreateBootParams hw mem bp r rLen (bp + cmdlineOffset)
          return some (startKernel mem bp gdt) := by
  refine ⟨_, _, _, _, _, rfl, rfl, ?_⟩
  unfold bootKernel
  by_cases hsig : mem (k + 0x1FE) ≠ 0x55 ∨ mem (k + 0x1FF) ≠ 0xAA
  · rw [if_pos hsig]
    exact (if_pos hsig).symm
  · have hneg : payloadLength mem k kLen < 0 ↔ kLen < clearedSetup mem k := by
      unfold payloadLength
      omega
    rw [if_neg hsig]
    refine Eq.trans ?_ (if_neg hsig).symm
    by_cases hshort : kLen < clearedSetup mem k
    · rw [if_pos (hneg.mpr hshort)]
      exact if_pos hshort
    · -- Of a length that is not negative the `size_t` is the same.
      have hcount : (payloadLength mem k kLen % 2 ^ 32).toNat = kLen - clearedSetup mem k := by
        unfold payloadLength
        rw [Int.emod_eq_of_lt (by omega) (by omega)]
        omega
      rw [if_neg (mt hneg.mp hshort), hcount]
      exact if_neg hshort

theorem payload_inside_iff :
    (∀ a ∈ imageReads mem k kLen, a.offset + a.len ≤ kLen) ∧
        0 ≤ payloadLength mem k kLen ∧ payloadLength mem k kLen ≤ kernelBuffer ↔
      0x2000 ≤ kLen ∧ clearedSetup mem k ≤ kLen ∧ kLen - clearedSetup mem k ≤ kernelBuffer := by
  have hbuffer : kernelBuffer < 2 ^ 32 := by decide
  unfold imageReads payloadLength
  simp only [List.forall_mem_cons, List.not_mem_nil, false_imp_iff, implies_true, and_true]
  constructor
  · rintro ⟨⟨-, -, -, -, hhead⟩, hpos, hfits⟩
    exact ⟨by omega, by omega, by omega⟩
  · rintro ⟨hhead, hsetup, hfits⟩
    have hcount : (((kLen : Int) - clearedSetup mem k) % 2 ^ 32).toNat =
        kLen - clearedSetup mem k := by
      rw [Int.emod_eq_of_lt (by omega) (by omega)]
      omega
    rw [hcount]
    exact ⟨⟨by omega, by omega, by omega, by omega, by omega⟩, by omega, by omega⟩

/-- **An image is read within its length** exactly when it is refused, or its length is not less
than 0x2000 and than the setup area and exceeds the latter by no more than the kernel's buffer. -/
theorem staysInImage_iff : StaysInImage hw mem bp gdt k kLen r rLen o ↔
    (mem (k + 0x1FE) ≠ 0x55 ∨ mem (k + 0x1FF) ≠ 0xAA) ∨
      0x2000 ≤ kLen ∧ clearedSetup mem k ≤ kLen ∧ kLen - clearedSetup mem k ≤ kernelBuffer :=
  or_congr bootKernel_eq_none_iff payload_inside_iff

end Reads

/-- The image at 32 MiB has five sectors of setup. Of no more than 1024 bytes of it, the payload
would have a negative length, and the first 0x2000 bytes are not there. -/
theorem not_staysInImage_short :
    ¬ StaysInImage noParms loadedMem 0x3100000 0x3200000 0x2000000 1024 0 0 0x3000000 ∧
      payloadLength loadedMem 0x2000000 1024 = -1536 := by
  have hsetup : clearedSetup loadedMem 0x2000000 = 2560 := by decide
  refine ⟨fun h => ?_, ?_⟩
  · rcases staysInImage_iff.mp h with hsig | ⟨hlen, -⟩
    · exact absurd hsig (by decide)
    · exact absurd hlen (by decide)
  · rw [payloadLength, hsetup]
    decide

end MbBootTv
