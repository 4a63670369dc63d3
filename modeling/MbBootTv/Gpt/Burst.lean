import MbBootTv.Lib.CrcRegister
import MbBootTv.Gpt.Bounds

/-!
# Bursts of errors (`crc.c`, `efi.c`)

`crc32_le` is a reflected CRC register that is fed byte by byte, so it takes byte strings that
differ in a burst of at most 32 bits to different values (`crc32Le_ne`). With that `is_gpt_valid`
rejects a table whose entry array has such a burst on disk. Nothing keeps the array from lying over
the header that describes it, nor the header from checking fewer bytes than it has fields;
`isGptValid_burst` is about the tables where one or the other is not so.
-/

namespace MbBootTv

open CrcRegister

/-! ## Bits -/

/-- Bit `k % 8` of byte `k / 8`. -/
def bitAt (p : Bytes) (k : Nat) : Bool := (p (k / 8)).toBitVec.getLsbD (k % 8)

/-- The bits of `len` bytes. -/
def messageBits (p : Bytes) (len : Nat) : List Bool := (List.range (8 * len)).map (bitAt p)

/-- `len` bytes differ, and the bits in which they do are within 32 consecutive ones. -/
structure DifferInBurst (p q : Bytes) (len : Nat) : Prop where
  differ : ∃ i < len, p i ≠ q i
  within : ∃ a, ∀ k < 8 * len, bitAt p k ≠ bitAt q k → a ≤ k ∧ k < a + 32

theorem bitAt_add (p : Bytes) (i j : Nat) (hj : j < 8) :
    bitAt p (8 * i + j) = (p i).toBitVec.getLsbD j := by
  rw [bitAt, show (8 * i + j) / 8 = i by omega, show (8 * i + j) % 8 = j by omega]

/-- Bytes that differ, differ in a bit. -/
theorem exists_bitAt_ne {p q : Bytes} {i : Nat} (h : p i ≠ q i) :
    ∃ j < 8, bitAt p (8 * i + j) ≠ bitAt q (8 * i + j) := by
  by_contra hno
  simp only [not_exists, not_and, not_not] at hno
  refine h (UInt8.toBitVec_inj.mp (BitVec.eq_of_getLsbD_eq fun j hj => ?_))
  have := hno j hj
  rwa [bitAt_add p i j hj, bitAt_add q i j hj] at this

/-! ## `crc32_le` as a register -/

/-- The polynomial as a register has it. -/
def crcPoly : BitVec 32 := crcpolyLe.toBitVec

theorem crcPoly_top : crcPoly.getLsbD (32 - 1) = true := by decide

theorem toBitVec_crcBit (crc : UInt32) : (crcBit crc).toBitVec = shift crcPoly crc.toBitVec := by
  have hlow : (crc &&& 1 ≠ 0) ↔ crc.toBitVec.getLsbD 0 = true := by
    rw [ne_eq, ← UInt32.toBitVec_inj, UInt32.toBitVec_and]
    have hone : (1 : UInt32).toBitVec = 1#32 := rfl
    have hzero : (0 : UInt32).toBitVec = 0#32 := rfl
    rw [hone, hzero, BitVec.and_one_eq_setWidth_ofBool_getLsbD]
    cases crc.toBitVec.getLsbD 0 <;> decide
  unfold crcBit shift crcPoly
  rw [UInt32.toBitVec_xor]
  congr 1
  by_cases h : crc &&& 1 ≠ 0
  · rw [if_pos h, if_pos (hlow.mp h)]
  · rw [if_neg h, if_neg fun h' => h (hlow.mpr h')]
    rfl

theorem toBitVec_crcBits (n : Nat) (crc : UInt32) :
    (crcBits n crc).toBitVec = run crcPoly crc.toBitVec (List.replicate n false) := by
  induction n generalizing crc with
  | zero => rfl
  | succ n ih => rw [crcBits, ih, toBitVec_crcBit, List.replicate_succ, run_cons, feed_false]

/-- The bits of a byte, the lowest first. -/
def byteBits (b : UInt8) : List Bool := (List.range 8).map b.toBitVec.getLsbD

/-- **A byte that is added at once** is fed bit by bit. -/
theorem toBitVec_crcByte (crc : UInt32) (b : UInt8) :
    (crcByte crc b).toBitVec = run crcPoly crc.toBitVec (byteBits b) := by
  have hlen : (List.replicate 8 false).length = (byteBits b).length := rfl
  have hbits : List.zipWith xor (List.replicate 8 false) (byteBits b) = byteBits b := by
    simp [byteBits, List.range, List.range.loop, List.replicate]
  have hbyte : run crcPoly b.toUInt32.toBitVec (byteBits b) = 0#32 := by
    refine (run_eq_zero_iff crcPoly_top (by simp [byteBits])).mpr fun i => ?_
    rw [UInt8.toBitVec_toUInt32, BitVec.getLsbD_setWidth]
    by_cases hi : i < 8
    · simp [byteBits, hi, show i < 32 by omega]
    · rw [List.getD_eq_default _ _ (by simpa [byteBits] using hi),
        BitVec.getLsbD_of_ge _ i (by omega), Bool.and_false]
  have hsum := run_xor crcPoly hlen (crc ^^^ b.toUInt32).toBitVec b.toUInt32.toBitVec
  rw [hbits, hbyte, BitVec.xor_zero, UInt32.toBitVec_xor, BitVec.xor_assoc, BitVec.xor_self,
    BitVec.xor_zero] at hsum
  rw [crcByte, toBitVec_crcBits, UInt32.toBitVec_xor, hsum]

theorem messageBits_succ (p : Bytes) (len : Nat) :
    messageBits p (len + 1) = byteBits (p 0) ++ messageBits (fun i => p (i + 1)) len := by
  unfold messageBits
  rw [Nat.mul_succ, Nat.add_comm, List.range_add, List.map_append, List.map_map]
  congr 1
  refine List.map_congr_left fun k _ => ?_
  rw [Function.comp_apply, bitAt, bitAt, show (8 + k) / 8 = k / 8 + 1 by omega,
    show (8 + k) % 8 = k % 8 by omega]

/-- **`crc32_le` is the register** on the bits of its bytes. -/
theorem toBitVec_crc32Le (crc : UInt32) (p : Bytes) (len : Nat) :
    (crc32Le crc p len).toBitVec = run crcPoly crc.toBitVec (messageBits p len) := by
  induction len generalizing crc p with
  | zero => rfl
  | succ len ih => rw [crc32Le, ih, toBitVec_crcByte, messageBits_succ, run_append]

/-- **A burst of at most 32 bits changes the checksum**, from every start value. -/
theorem crc32Le_ne (crc : UInt32) {p q : Bytes} {len : Nat} (h : DifferInBurst p q len) :
    crc32Le crc p len ≠ crc32Le crc q len := by
  obtain ⟨⟨i, hi, hne⟩, a, hwithin⟩ := h
  have hlen : (messageBits p len).length = (messageBits q len).length := by
    simp [messageBits]
  have hbits : ∀ k < 8 * len, (List.zipWith xor (messageBits p len) (messageBits q len)).getD k
      false = (bitAt p k ^^ bitAt q k) := fun k hk => by
    simp [messageBits, List.getElem?_range hk]
  intro heq
  refine run_ne_of_burst crcPoly_top crc.toBitVec hlen (a := a) (fun k hk => ?_) ?_ ?_
  · by_cases hin : k < 8 * len
    · rw [hbits k hin] at hk
      exact hwithin k hin fun heq => by simp [heq] at hk
    · rw [List.getD_eq_default _ _ (by simp [messageBits]; omega)] at hk
      exact absurd hk Bool.false_ne_true
  · obtain ⟨j, hj, hdiff⟩ := exists_bitAt_ne hne
    have hk : 8 * i + j < 8 * len := by omega
    have hlt : 8 * i + j < (List.zipWith xor (messageBits p len) (messageBits q len)).length := by
      simp [messageBits]
      omega
    have htrue := hbits _ hk
    rw [List.getD_eq_getElem _ _ hlt] at htrue
    have hxor : (bitAt p (8 * i + j) ^^ bitAt q (8 * i + j)) = true := by
      simpa using hdiff
    rw [hxor] at htrue
    exact htrue ▸ List.getElem_mem hlt
  · rw [← toBitVec_crc32Le, ← toBitVec_crc32Le, heq]

theorem efiCrc32_ne {p q : Bytes} {len : UInt32} (h : DifferInBurst p q len.toNat) :
    efiCrc32 p len ≠ efiCrc32 q len := by
  intro heq
  exact crc32Le_ne _ h (UInt32.xor_left_inj _ |>.mp heq)

/-! ## Patterns of flipped bits -/

/-- The bits of `e` among the first `size` bytes are a burst. -/
abbrev Burst (e : Bytes) (size : Nat) : Prop := DifferInBurst (fun _ => 0) e size

theorem bitAt_zero (k : Nat) : bitAt (fun _ => 0) k = false := by
  simp [bitAt]

/-- Two bytes of a burst are close. -/
theorem Burst.close {e : Bytes} {size i j : Nat} (h : Burst e size) (hi : i < size) (hj : j < size)
    (hei : e i ≠ 0) (hej : e j ≠ 0) : i ≤ j + 4 := by
  obtain ⟨-, a, hwithin⟩ := h
  obtain ⟨x, hx, hbitx⟩ := exists_bitAt_ne (p := fun _ => 0) hei.symm
  obtain ⟨y, hy, hbity⟩ := exists_bitAt_ne (p := fun _ => 0) hej.symm
  have hlo := hwithin _ (by omega) hbitx
  have hhi := hwithin _ (by omega) hbity
  omega

/-- Bytes to which a part of a burst is added, from byte `o` of it on. -/
theorem DifferInBurst.of_xor {p q m e : Bytes} {len size o : Nat} (h : Burst e size)
    (hq : ∀ i < len, q i = p i ^^^ m i)
    (hm : ∀ i < len, m i = 0 ∨ o + i < size ∧ m i = e (o + i)) (hne : ∃ i < len, m i ≠ 0) :
    DifferInBurst p q len := by
  obtain ⟨i, hi, hmi⟩ := hne
  obtain ⟨-, a, hwithin⟩ := h
  refine ⟨⟨i, hi, fun heq => hmi ?_⟩, a - 8 * o, fun k hk hbit => ?_⟩
  · have hxor := hq i hi
    rw [← heq] at hxor
    have := congrArg (p i ^^^ ·) hxor
    simpa [← UInt8.xor_assoc] using this.symm
  · have hi : k / 8 < len := by omega
    have hbitm : bitAt m k = true := by
      have hqk : bitAt q k = (bitAt p k ^^ bitAt m k) := by
        rw [bitAt, hq _ hi, UInt8.toBitVec_xor, BitVec.getLsbD_xor]
        rfl
      rw [hqk] at hbit
      cases hbm : bitAt m k with
      | true => rfl
      | false => simp [hbm] at hbit
    obtain h0 | ⟨hsize, hme⟩ := hm _ hi
    · rw [bitAt, h0] at hbitm
      exact absurd hbitm (by simp)
    · have he : bitAt e (8 * o + k) = true := by
        rw [bitAt, show (8 * o + k) / 8 = o + k / 8 by omega, ← hme,
          show (8 * o + k) % 8 = k % 8 by omega]
        exact hbitm
      have := hwithin (8 * o + k) (by omega) (by rw [bitAt_zero, he]; exact Bool.false_ne_true)
      omega

/-! ## On disk -/

/-- The bits of `e` that fall in sector `s`, when `size` bytes of them stand from sector `start`
on. -/
def flipped (start : UInt64) (size : Nat) (e : Bytes) (s : UInt64) : Bytes := fun j =>
  if j < 512 ∧ (s - start).toNat * 512 + j < size then e ((s - start).toNat * 512 + j) else 0

/-- The disk with these bits flipped, and nothing else. -/
def Device.flip (d : Device) (start : UInt64) (size : Nat) (e : Bytes) : Device where
  diskRead s := (d.diskRead s).map fun data j => data j ^^^ flipped start size e s j
  sectors := d.sectors

theorem Device.diskRead_flip (d : Device) (start : UInt64) (size : Nat) (e : Bytes) (s : UInt64) :
    (d.flip start size e).diskRead s =
      (d.diskRead s).map fun data j => data j ^^^ flipped start size e s j := rfl

/-- What a successful `read_gpt_header` leaves: the sector, and what was behind the header. -/
theorem readGptHeader_loaded {d : Device} {lba : UInt64} {gpt : GptHeader}
    (h : (readGptHeader d lba gpt).1 = true) :
    ∃ s, d.diskRead lba = some s ∧ (∀ j < 512, loadedHeader d lba gpt j = s j) ∧
      ∀ j, 512 ≤ j → loadedHeader d lba gpt j = gpt j := by
  simp only [readGptHeader, Bool.not_eq_true', decide_eq_false_iff_not] at h
  obtain ⟨hlba, hread⟩ := readLba_readable (by decide) h
  have hone : sectorsFor gptHeaderSize.toNat = 1 := rfl
  obtain ⟨s, hs⟩ := Option.isSome_iff_exists.mp (hread 0 (by omega))
  have hs' : d.diskRead lba = some s := by simpa using hs
  have hfull := readLba_full d (gpt.fill 0 0 gptHeaderSize.toNat) gptHeaderSize (fun _ => s) hlba
    fun i hi => by
      obtain rfl : i = 0 := by omega
      exact hs
  refine ⟨s, hs', fun j hj => ?_, fun j hj => ?_⟩
  · rw [loadedHeader, readGptHeader]
    dsimp only
    rw [hfull.2 j hj, Nat.mod_eq_of_lt hj]
  · rw [loadedHeader, readGptHeader]
    dsimp only
    rw [readLba_of_ge (show gptHeaderSize.toNat ≤ j from hj), Bytes.fill_of_ge (by
      rw [Nat.zero_add]
      exact hj)]

section Flipping

variable {d : Device} {lba start : UInt64} {b b' : GptBuf} {e : Bytes} {size : Nat}

/-- A header is loaded with the bits that are flipped in its sector. -/
theorem loadedHeader_flip (h : (readGptHeader d lba b.gpt).1 = true)
    (h' : (readGptHeader (d.flip start size e) lba b'.gpt).1 = true)
    (hbehind : ∀ j, 512 ≤ j → b'.gpt j = b.gpt j) (j : Nat) :
    loadedHeader (d.flip start size e) lba b'.gpt j =
      loadedHeader d lba b.gpt j ^^^ flipped start size e lba j := by
  obtain ⟨s, hs, hin, hout⟩ := readGptHeader_loaded h
  obtain ⟨s', hs', hin', hout'⟩ := readGptHeader_loaded h'
  by_cases hj : j < 512
  · rw [Device.diskRead_flip, hs, Option.map_some, Option.some.injEq] at hs'
    rw [hin' j hj, hin j hj, ← hs']
  · have hout0 : flipped start size e lba j = 0 := if_neg fun hc => hj hc.1
    rw [hout' j (by omega), hout j (by omega), hbehind j (by omega), hout0, UInt8.xor_zero]

/-- An array is loaded with the bits that are flipped in it. -/
theorem readGptEntries_flip {gpt gpt' : GptHeader} {pte pte' : Bytes}
    (hsize : gpt.filledSize.toNat = size)
    (hlba : gpt'.partitionEntryLba = gpt.partitionEntryLba)
    (hfilled : gpt'.filledSize = gpt.filledSize) (h : (readGptEntries d gpt pte).1 = true)
    (h' : (readGptEntries (d.flip gpt.partitionEntryLba size e) gpt' pte').1 = true) {j : Nat}
    (hj : j < size) :
    (readGptEntries (d.flip gpt.partitionEntryLba size e) gpt' pte').2 j =
      (readGptEntries d gpt pte).2 j ^^^ e j := by
  obtain ⟨s, hs, hbyte⟩ := readGptEntries_loaded h (hsize ▸ hj)
  obtain ⟨s', hs', hbyte'⟩ := readGptEntries_loaded h' (by rw [hfilled, hsize]; exact hj)
  have hmax := gpt.filledSize_le
  have hindex : (gpt.partitionEntryLba + UInt64.ofNat (j / 512) - gpt.partitionEntryLba).toNat =
      j / 512 := by
    have hval : pteMaxSize.toNat = 131072 := rfl
    rw [UInt64.add_comm, UInt64.add_sub_cancel, UInt64.toNat_ofNat', Nat.mod_eq_of_lt (by omega)]
  rw [hlba, Device.diskRead_flip, hs, Option.map_some, Option.some.injEq] at hs'
  rw [hbyte', hbyte, ← hs']
  unfold flipped
  dsimp only
  rw [hindex, Nat.div_add_mod' j 512, if_pos ⟨Nat.mod_lt j (by decide), hj⟩]

/-- **A burst in an array shows**, when the header still describes it. -/
theorem efiCrc32_entries_ne {gpt : GptHeader} {ptes ptes' : Bytes}
    (he : Burst e gpt.entryArraySize.toNat)
    (hptes : ∀ j < gpt.entryArraySize.toNat, ptes' j = ptes j ^^^ e j) :
    efiCrc32 ptes gpt.entryArraySize ≠ efiCrc32 ptes' gpt.entryArraySize := by
  obtain ⟨i, hi, hne⟩ := he.differ
  refine efiCrc32_ne (DifferInBurst.of_xor (o := 0) he hptes (fun i hi => Or.inr ?_)
    ⟨i, hi, hne.symm⟩)
  rw [Nat.zero_add]
  exact ⟨hi, rfl⟩

/-- **A burst in the fields that describe the array shows**, when the header's checksum covers
them. -/
theorem efiCrc32_header_ne {h h' : GptHeader} (he : Burst e size)
    (hbytes : ∀ j, h' j = h j ^^^ flipped start size e lba j) {j : Nat} (hge : 72 ≤ j) (hlt : j < 92)
    (hj : flipped start size e lba j ≠ 0) (hcover : 92 ≤ h.headerSize) :
    h'.headerSize = h.headerSize ∧ h'.headerCrc32 = h.headerCrc32 ∧
      efiCrc32 (h.setHeaderCrc32 0) h.headerSize ≠ efiCrc32 (h'.setHeaderCrc32 0) h.headerSize := by
  have hvalue : ∀ k, flipped start size e lba k ≠ 0 →
      (lba - start).toNat * 512 + k < size ∧
        flipped start size e lba k = e ((lba - start).toNat * 512 + k) := by
    intro k hk
    unfold flipped at hk ⊢
    split_ifs at hk ⊢ with hc
    · exact ⟨hc.2, rfl⟩
    · exact absurd rfl hk
  obtain ⟨hin, hej⟩ := hvalue j hj
  -- the burst does not reach back to the fields before
  have hfront : ∀ k < 68, flipped start size e lba k = 0 := by
    intro k hk
    by_contra hne
    obtain ⟨hink, hek⟩ := hvalue k hne
    have := he.close hin hink (hej ▸ hj) (hek ▸ hne)
    omega
  have hsame : ∀ k < 68, h' k = h k := fun k hk => by
    rw [hbytes, hfront k hk, UInt8.xor_zero]
  refine ⟨Bytes.le32_congr fun i hi => hsame _ (by omega),
    Bytes.le32_congr fun i hi => hsame _ (by omega), ?_⟩
  have hlen : 92 ≤ h.headerSize.toNat := UInt32.le_iff_toNat_le.mp hcover
  refine efiCrc32_ne (DifferInBurst.of_xor (m := flipped start size e lba)
    (o := (lba - start).toNat * 512) he (fun i _ => ?_) (fun i _ => ?_) ⟨j, by omega, hj⟩)
  · unfold GptHeader.setHeaderCrc32 Bytes.putLe
    split_ifs with hc
    · rw [hfront i (by omega), UInt8.xor_zero]
    · exact hbytes i
  · by_cases h0 : flipped start size e lba i = 0
    · exact Or.inl h0
    · exact Or.inr (hvalue i h0)

/-- **A burst in the entry array makes `is_gpt_valid` reject** the table that it accepted, when the
header's checksum covers the fields that describe the array, or the header is not in the array. -/
theorem isGptValid_flip_of (h : (isGptValid d lba b).1 = true)
    (hsize : (loadedHeader d lba b.gpt).entryArraySize ≤ pteMaxSize)
    (he : Burst e (loadedHeader d lba b.gpt).entryArraySize.toNat)
    (hcover : 92 ≤ (loadedHeader d lba b.gpt).headerSize ∨
      sectorsFor (loadedHeader d lba b.gpt).entryArraySize.toNat ≤
        (lba - (loadedHeader d lba b.gpt).partitionEntryLba).toNat)
    (hbehind : ∀ j, 512 ≤ j → b'.gpt j = b.gpt j) :
    (isGptValid (d.flip (loadedHeader d lba b.gpt).partitionEntryLba
      (loadedHeader d lba b.gpt).entryArraySize.toNat e) lba b').1 = false := by
  refine Bool.eq_false_of_not_eq_true fun h' => ?_
  have hacc := accepted_of_isGptValid h
  have hacc' := accepted_of_isGptValid h'
  have hbytes := loadedHeader_flip hacc.loaded hacc'.loaded hbehind
  have hcrc := hacc.headerCrc
  have hcrc' := hacc'.headerCrc
  have hent := hacc.entries
  have hent' := hacc'.entries
  have hecrc := hacc.entriesCrc
  have hecrc' := hacc'.entriesCrc
  clear hacc hacc' h h'
  generalize loadedHeader (d.flip (loadedHeader d lba b.gpt).partitionEntryLba
    (loadedHeader d lba b.gpt).entryArraySize.toNat e) lba b'.gpt = gpt' at *
  generalize loadedHeader d lba b.gpt = gpt at *
  by_cases hfields : ∃ j, (72 ≤ j ∧ j < 92) ∧
      flipped gpt.partitionEntryLba gpt.entryArraySize.toNat e lba j ≠ 0
  · -- the header's own checksum
    obtain ⟨j, ⟨hge, hlt⟩, hj⟩ := hfields
    have hcover92 : 92 ≤ gpt.headerSize := by
      refine hcover.resolve_right fun hapart => hj (if_neg fun hc => ?_)
      have := hc.2
      simp only [sectorsFor] at hapart
      omega
    obtain ⟨hsame, hfield, hne⟩ := efiCrc32_header_ne he hbytes hge hlt hj hcover92
    rw [hsame, hfield, ← hcrc] at hcrc'
    exact hne hcrc'.symm
  · -- the checksum of the array
    simp only [not_exists, not_and, not_not] at hfields
    have hsame : ∀ k, 72 ≤ k → k < 92 → gpt' k = gpt k := fun k hk hk' => by
      rw [hbytes, hfields k ⟨hk, hk'⟩, UInt8.xor_zero]
    have hlba : gpt'.partitionEntryLba = gpt.partitionEntryLba :=
      Bytes.le64_congr fun i hi => hsame _ (by omega) (by omega)
    have hnum : gpt'.numPartitionEntries = gpt.numPartitionEntries :=
      Bytes.le32_congr fun i hi => hsame _ (by omega) (by omega)
    have hsizeof : gpt'.sizeofPartitionEntry = gpt.sizeofPartitionEntry :=
      Bytes.le32_congr fun i hi => hsame _ (by omega) (by omega)
    have hfield : gpt'.partitionEntryArrayCrc32 = gpt.partitionEntryArrayCrc32 :=
      Bytes.le32_congr fun i hi => hsame _ (by omega) (by omega)
    have harray : gpt'.entryArraySize = gpt.entryArraySize := by
      rw [GptHeader.entryArraySize, hnum, hsizeof, GptHeader.entryArraySize]
    have hfilled : gpt'.filledSize = gpt.filledSize := by
      rw [GptHeader.filledSize, harray, GptHeader.filledSize]
    have hptes := fun j hj => readGptEntries_flip (e := e) (j := j)
      (congrArg UInt32.toNat (GptHeader.filledSize_of_le hsize)) hlba hfilled hent hent' hj
    rw [harray, hfield, ← hecrc] at hecrc'
    exact efiCrc32_entries_ne he hptes hecrc'.symm

end Flipping

/-- **Bursts of up to 32 bits**: they change the checksum of every string, from every start value,
and on disk they make `is_gpt_valid` reject an entry array of at most 128 KiB, when the header's
checksum covers the fields that describe the array, or the header is not in the array. -/
theorem burst_detected :
    (∀ (crc : UInt32) (p q : Bytes) (len : Nat), DifferInBurst p q len →
      crc32Le crc p len ≠ crc32Le crc q len) ∧
    ∀ (d : Device) (lba : UInt64) (b b' : GptBuf) (e : Bytes), (isGptValid d lba b).1 = true →
      (loadedHeader d lba b.gpt).entryArraySize ≤ pteMaxSize →
      Burst e (loadedHeader d lba b.gpt).entryArraySize.toNat →
      (92 ≤ (loadedHeader d lba b.gpt).headerSize ∨
        sectorsFor (loadedHeader d lba b.gpt).entryArraySize.toNat ≤
          (lba - (loadedHeader d lba b.gpt).partitionEntryLba).toNat) →
      (∀ j, 512 ≤ j → b'.gpt j = b.gpt j) →
      (isGptValid (d.flip (loadedHeader d lba b.gpt).partitionEntryLba
        (loadedHeader d lba b.gpt).entryArraySize.toNat e) lba b').1 = false :=
  ⟨fun crc _ _ _ h => crc32Le_ne crc h,
    fun _ _ _ _ _ h hsize he hcover hbehind => isGptValid_flip_of h hsize he hcover hbehind⟩

/-- Bit 1 of byte 72. -/
def flipByte72 : Bytes := fun j => if j = 72 then 2 else 0

theorem burst_flipByte72 {size : Nat} (h : 72 < size) : Burst flipByte72 size := by
  refine ⟨⟨72, h, by decide⟩, 8 * 72, fun k _ hk => ?_⟩
  by_cases h72 : k / 8 = 72
  · omega
  · rw [bitAt_zero, bitAt, flipByte72, if_neg h72] at hk
    exact absurd hk (by simp)

theorem burst_detected_wide : crc32Le 0 flipByte72 80 ≠ crc32Le 0 (fun _ => 0) 80 ∧
    (isGptValid ((wideEntries.disk 64).flip
      (loadedHeader (wideEntries.disk 64) 1 zeroStatics.primary.gpt).partitionEntryLba
      (loadedHeader (wideEntries.disk 64) 1 zeroStatics.primary.gpt).entryArraySize.toNat
      flipByte72) 1 zeroStatics.primary).1 = false := by
  have hholds : wideEntries.Holds (wideEntries.disk 64) 1 :=
    GptImage.holds_disk (by decide) (by decide)
  have hvalid := (isGptValid_of_holds hholds
    ⟨by decide, by decide, by decide, by decide, by decide⟩ zeroStatics.primary).1
  have hbytes := (readGptHeader_of_holds hholds zeroStatics.primary.gpt).2
  have h32 (pos : Nat) (hpos : pos + 4 ≤ 512) :
      (loadedHeader (wideEntries.disk 64) 1 zeroStatics.primary.gpt).le32 pos =
        (wideEntries.header 1).le32 pos := Bytes.le32_congr fun i hi => hbytes _ (by omega)
  have hcover : (loadedHeader (wideEntries.disk 64) 1 zeroStatics.primary.gpt).headerSize = 92 :=
    (h32 12 (by decide)).trans (wideEntries.headerSize_header 1)
  have hsize : (loadedHeader (wideEntries.disk 64) 1 zeroStatics.primary.gpt).entryArraySize =
      512 := by
    rw [GptHeader.entryArraySize, GptHeader.numPartitionEntries, GptHeader.sizeofPartitionEntry,
      h32 80 (by decide), h32 84 (by decide)]
    rw [show (wideEntries.header 1).le32 80 = 2 from wideEntries.numPartitionEntries_header 1,
      show (wideEntries.header 1).le32 84 = 256 from wideEntries.sizeofPartitionEntry_header 1]
    decide
  have hburst : Burst flipByte72 80 := burst_flipByte72 (by decide)
  refine ⟨(burst_detected.1 0 _ _ 80 hburst).symm, burst_detected.2 _ _ _ _ _ hvalid
    (by rw [hsize]; decide) (by rw [hsize]; exact burst_flipByte72 (by decide))
    (Or.inl (by rw [hcover]; decide)) fun _ _ => rfl⟩

/-! ## A header in its own array -/

/-- A table whose header checks none of its own bytes (`header_size` is 0), and whose array is 80
bytes from sector `lba` on. -/
def selfImage (lba : UInt64) (array : Bytes) : GptImage where
  headerSize := 0
  alternateLba := 63
  firstUsableLba := 34
  lastUsableLba := 62
  partitionEntryLba := lba
  numPartitionEntries := 5
  sizeofPartitionEntry := 16
  array := array
  rest := fun _ => 0

/-- The first 80 bytes of this are those of the header whose array they are. -/
def selfArray : Bytes := (selfImage 1 fun _ => 0).header 1

/-- A disk with this header in sector 1, and a copy of it in sector 3. -/
def selfDisk : Device where
  diskRead s := if s = 1 ∨ s = 3 then some ((selfImage 1 selfArray).header 1) else none
  sectors := 64

theorem selfArray_eq : ∀ j < 80, (selfImage 1 selfArray).header 1 j = selfArray j := by
  decide

/-- The header of a table elsewhere differs in `partition_entry_lba`. -/
theorem header_selfImage {lba lba' : UInt64} {array : Bytes} {j : Nat} (hj : ¬(72 ≤ j ∧ j < 80)) :
    (selfImage lba array).header 1 j = (selfImage lba' array).header 1 j := by
  simp only [GptImage.header, GptImage.blankHeader, GptHeader.setHeaderCrc32, Bytes.putLe, hj,
    if_false, selfImage]
  rfl

theorem flip_header : ∀ j < 512, (selfImage 1 selfArray).header 1 j ^^^ flipped 1 80 flipByte72 1 j =
    (selfImage 3 selfArray).header 1 j := by
  intro j _
  by_cases hj : 72 ≤ j ∧ j < 80
  · have hall : ∀ j < 80, 72 ≤ j → (selfImage 1 selfArray).header 1 j ^^^
        flipped 1 80 flipByte72 1 j = (selfImage 3 selfArray).header 1 j := by decide
    exact hall j hj.2 hj.1
  · have h0 : flipped 1 80 flipByte72 1 j = 0 := by
      have hne : (1 - 1 : UInt64).toNat * 512 + j ≠ 72 := by
        rw [UInt64.sub_self, UInt64.toNat_zero]
        omega
      unfold flipped flipByte72
      rw [if_neg hne, ite_self]
    rw [h0, UInt8.xor_zero, header_selfImage hj]

theorem bounded_selfImage (lba : UInt64) : (selfImage lba selfArray).Bounded 63 := by
  have hsize : (selfImage lba selfArray).arraySize = 80 := by
    show (5 * 16 : UInt32) = 80
    decide
  refine ⟨?_, ?_, ?_, ?_, ?_⟩
  · show (0 : UInt32) ≤ 512
    decide
  · rw [hsize]
    decide
  · rw [hsize]
    decide
  · show (34 : UInt64) ≤ 63
    decide
  · show (62 : UInt64) ≤ 63
    decide

theorem accepts_selfImage {lba : UInt64} {d : Device} (hlast : d.diskLastSector = 63)
    (hlba : lba ≤ 63)
    (hheader : ∃ s, d.diskRead 1 = some s ∧ ∀ j < 512, s j = (selfImage lba selfArray).header 1 j)
    (harray : ∃ s, d.diskRead lba = some s ∧ ∀ j < 80, s j = selfArray j) (b : GptBuf) :
    (isGptValid d 1 b).1 = true := by
  have hone : sectorsFor (selfImage lba selfArray).arraySize.toNat = 1 := by
    show sectorsFor (5 * 16 : UInt32).toNat = 1
    decide
  have hholds : (selfImage lba selfArray).Holds d 1 := by
    refine ⟨by rw [hlast]; decide, hheader, by rw [hlast]; exact hlba, fun i hi => ?_⟩
    obtain rfl : i = 0 := by omega
    obtain ⟨s, hs, hbytes⟩ := harray
    refine ⟨s, ?_, fun j _ hj => ?_⟩
    · show d.diskRead (lba + UInt64.ofNat 0) = some s
      simpa using hs
    · rw [Nat.mul_zero, Nat.zero_add] at hj ⊢
      exact hbytes j hj
  exact (isGptValid_of_holds hholds (hlast ▸ bounded_selfImage lba) b).1

/-- The table is accepted, and also with a bit flipped: the header then describes the copy. -/
theorem not_isGptValid_flip_self :
    (isGptValid selfDisk 1 zeroStatics.primary).1 = true ∧ Burst flipByte72 80 ∧
    (loadedHeader selfDisk 1 zeroStatics.primary.gpt).partitionEntryLba = 1 ∧
    (loadedHeader selfDisk 1 zeroStatics.primary.gpt).entryArraySize = 80 ∧
    (isGptValid (selfDisk.flip 1 80 flipByte72) 1 zeroStatics.primary).1 = true := by
  have hflip3 : ∀ j < 80, selfArray j ^^^ flipped 1 80 flipByte72 3 j = selfArray j := by
    intro j _
    have h0 : flipped 1 80 flipByte72 3 j = 0 := if_neg fun hc => by
      have := hc.2
      rw [show (3 - 1 : UInt64).toNat = 2 from rfl] at this
      omega
    rw [h0, UInt8.xor_zero]
  refine ⟨accepts_selfImage rfl (show (1 : UInt64) ≤ 63 by decide) ⟨_, rfl, fun _ _ => rfl⟩
      ⟨_, rfl, selfArray_eq⟩ _, burst_flipByte72 (by decide), by decide, by decide,
    accepts_selfImage rfl (show (3 : UInt64) ≤ 63 by decide) ⟨_, rfl, flip_header⟩
      ⟨_, rfl, fun j hj => ?_⟩ _⟩
  show (selfImage 1 selfArray).header 1 j ^^^ _ = _
  rw [selfArray_eq j hj, hflip3 j hj]

end MbBootTv
