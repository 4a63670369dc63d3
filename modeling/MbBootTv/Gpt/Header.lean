import MbBootTv.Disk
import MbBootTv.Gpt.Crc

/-!
# Loading and checking a GPT (`efi.c`, first half)

`is_gpt_valid` loads a header and its entry array into two static buffers and checks them. The
buffers are modelled from their first byte on, without an end: what stands behind `gpt_header`
and behind `gpt_entry[MAX_PTES]` in memory is whatever the caller's `Bytes` say, and a read that
leaves a buffer sees it. Fields are little-endian, and so is the machine (`le32_to_cpu` of
eb/little_bswap.h is the identity).

The console output is left out.
-/

namespace MbBootTv

/-! ## `read_lba` -/

/-- The locals of `read_lba`'s loop; `buffer` stands `totalreadcount` bytes into the buffer. -/
structure LbaLoop where
  lba : UInt64
  buffer : Bytes
  totalreadcount : Nat
  count : Nat

/-- `while (count)`. Each pass that goes on copies at least one byte, so `count` passes do. -/
def readLbaLoop (d : Device) : Nat → LbaLoop → LbaLoop
  | 0, s => s
  | n + 1, s =>
    if s.count = 0 then s
    else
      match d.diskRead s.lba with
      | none => { s with lba := s.lba + 1 }
      | some data =>
        let copied := min 512 s.count
        readLbaLoop d n
          { lba := s.lba + 1
            buffer := s.buffer.copy s.totalreadcount data copied
            totalreadcount := s.totalreadcount + copied
            count := s.count - copied }

/-- `read_lba`: the number of bytes read, and the buffer. -/
def readLba (d : Device) (lba : UInt64) (buffer : Bytes) (count : UInt32) : Nat × Bytes :=
  if lba > d.diskLastSector then (0, buffer)
  else
    let s := readLbaLoop d count.toNat ⟨lba, buffer, 0, count.toNat⟩
    (s.totalreadcount, s.buffer)

/-! ## The on-disk structures -/

/-- `sizeof (gpt_header)` -/
def gptHeaderSize : UInt32 := 512

/-- `sizeof (gpt_entry)` -/
def gptEntrySize : Nat := 128

/-- `MAX_PTES` -/
def maxPtes : Nat := 1024

/-- `PTE_MAX_SIZE` -/
def pteMaxSize : UInt32 := 131072

/-- `GPT_HEADER_SIGNATURE` -/
def gptHeaderSignature : UInt64 := 0x5452415020494645

/-- `GPT_PRIMARY_PARTITION_TABLE_LBA` -/
def gptPrimaryPartitionTableLba : UInt64 := 1

/-- `efi_guid_t`, as its 16 bytes. -/
abbrev EfiGuid := Vector UInt8 16

/-- The `efi_guid_t` at `pos`. -/
def Bytes.guid (b : Bytes) (pos : Nat) : EfiGuid := Vector.ofFn fun i => b (pos + i)

/-- `struct _gpt_header`, by its fields. -/
abbrev GptHeader := Bytes

namespace GptHeader

def signature (h : GptHeader) : UInt64 := h.le64 0
def headerSize (h : GptHeader) : UInt32 := h.le32 12
def headerCrc32 (h : GptHeader) : UInt32 := h.le32 16
def myLba (h : GptHeader) : UInt64 := h.le64 24
def alternateLba (h : GptHeader) : UInt64 := h.le64 32
def firstUsableLba (h : GptHeader) : UInt64 := h.le64 40
def lastUsableLba (h : GptHeader) : UInt64 := h.le64 48
def partitionEntryLba (h : GptHeader) : UInt64 := h.le64 72
def numPartitionEntries (h : GptHeader) : UInt32 := h.le32 80
def sizeofPartitionEntry (h : GptHeader) : UInt32 := h.le32 84
def partitionEntryArrayCrc32 (h : GptHeader) : UInt32 := h.le32 88

/-- `gpt->header_crc32 = v` -/
def setHeaderCrc32 (h : GptHeader) (v : UInt32) : GptHeader := h.putLe 16 4 v.toNat

/-- The 32-bit product `num_partition_entries * sizeof_partition_entry`, which `efi.c` forms
twice. -/
def entryArraySize (h : GptHeader) : UInt32 := h.numPartitionEntries * h.sizeofPartitionEntry

/-- The bytes `read_gpt_entries` fills: that product, clamped. -/
def filledSize (h : GptHeader) : UInt32 :=
  if h.entryArraySize > pteMaxSize then pteMaxSize else h.entryArraySize

end GptHeader

/-- A `gpt_header` and the `gpt_entry[MAX_PTES]` that goes with it. -/
structure GptBuf where
  gpt : GptHeader
  ptes : Bytes

/-! ## `is_gpt_valid` -/

/-- `read_gpt_entries` -/
def readGptEntries (d : Device) (gpt : GptHeader) (pte : Bytes) : Bool × Bytes :=
  if gpt.entryArraySize = 0 then (false, pte)
  else
    let count := gpt.filledSize
    let r := readLba d gpt.partitionEntryLba (pte.fill 0 0 count.toNat) count
    (!decide (r.1 < count.toNat), r.2)

/-- `read_gpt_header` -/
def readGptHeader (d : Device) (lba : UInt64) (gpt : GptHeader) : Bool × GptHeader :=
  let r := readLba d lba (gpt.fill 0 0 gptHeaderSize.toNat) gptHeaderSize
  (!decide (r.1 < gptHeaderSize.toNat), r.2)

/-- `is_gpt_valid`, with the two buffers as it leaves them. A header that fails its checksum
keeps the zeroed `header_crc32`. -/
def isGptValid (d : Device) (lba : UInt64) (b : GptBuf) : Bool × GptBuf :=
  let (ok, gpt) := readGptHeader d lba b.gpt
  if !ok then (false, { b with gpt })
  else if gpt.signature ≠ gptHeaderSignature then (false, { b with gpt })
  else
    let origcrc := gpt.headerCrc32
    let gpt := gpt.setHeaderCrc32 0
    let crc := efiCrc32 gpt gpt.headerSize
    if crc ≠ origcrc then (false, { b with gpt })
    else
      let gpt := gpt.setHeaderCrc32 origcrc
      if gpt.myLba ≠ lba then (false, { b with gpt })
      else if gpt.firstUsableLba > d.diskLastSector then (false, { b with gpt })
      else if gpt.lastUsableLba > d.diskLastSector then (false, { b with gpt })
      else
        let (ok, ptes) := readGptEntries d gpt b.ptes
        if !ok then (false, ⟨gpt, ptes⟩)
        else if efiCrc32 ptes gpt.entryArraySize ≠ gpt.partitionEntryArrayCrc32 then
          (false, ⟨gpt, ptes⟩)
        else (true, ⟨gpt, ptes⟩)

/-! ## What `read_lba` delivers -/

/-- The number of sectors that `count` bytes take. -/
def sectorsFor (count : Nat) : Nat := (count + 511) / 512

/-- Bytes outside the filled interval never change. -/
theorem readLbaLoop_buffer_of_ge (d : Device) (n : Nat) (s : LbaLoop) {j : Nat}
    (hj : s.totalreadcount + s.count ≤ j) : (readLbaLoop d n s).buffer j = s.buffer j := by
  induction n generalizing s with
  | zero => rfl
  | succ n ih =>
    simp only [readLbaLoop]
    split_ifs with h0
    · rfl
    · cases d.diskRead s.lba with
      | none => rfl
      | some data =>
        dsimp only
        rw [ih _ (by dsimp only; omega)]
        exact Bytes.copy_of_ge (by omega)

/-- With every sector readable the loop reads all of `count` and fills the buffer from the
sectors in order. -/
theorem readLbaLoop_full (d : Device) (n : Nat) (s : LbaLoop) (f : Nat → Bytes)
    (hn : s.count ≤ n)
    (hf : ∀ i < sectorsFor s.count, d.diskRead (s.lba + UInt64.ofNat i) = some (f i)) :
    (readLbaLoop d n s).totalreadcount = s.totalreadcount + s.count ∧
      ∀ j, (readLbaLoop d n s).buffer j =
        if s.totalreadcount ≤ j ∧ j < s.totalreadcount + s.count then
          f ((j - s.totalreadcount) / 512) ((j - s.totalreadcount) % 512)
        else s.buffer j := by
  induction n generalizing s f with
  | zero =>
    refine ⟨by simp only [readLbaLoop]; omega, fun j => ?_⟩
    rw [if_neg (by omega)]
    rfl
  | succ n ih =>
    simp only [readLbaLoop]
    by_cases h0 : s.count = 0
    · rw [if_pos h0]
      exact ⟨by omega, fun j => by rw [if_neg (by omega)]⟩
    · rw [if_neg h0]
      have hread : d.diskRead s.lba = some (f 0) := by
        simpa using hf 0 (by simp only [sectorsFor]; omega)
      simp only [hread]
      obtain ⟨htotal, hbuf⟩ := ih
        { lba := s.lba + 1
          buffer := s.buffer.copy s.totalreadcount (f 0) (min 512 s.count)
          totalreadcount := s.totalreadcount + min 512 s.count
          count := s.count - min 512 s.count }
        (fun i => f (i + 1)) (by dsimp only; omega) (fun i hi => by
          dsimp only at hi ⊢
          rw [sector_succ]
          exact hf (i + 1) (by simp only [sectorsFor] at hi ⊢; omega))
      dsimp only at htotal hbuf
      refine ⟨by rw [htotal]; omega, fun j => ?_⟩
      rw [hbuf]
      simp only [Bytes.copy]
      -- A byte of a later sector, of this one, or one the loop leaves alone.
      by_cases hlater : s.totalreadcount + 512 ≤ j ∧ j < s.totalreadcount + s.count
      · rw [if_pos (by omega), if_pos (by omega)]
        have hdiv : (j - s.totalreadcount) / 512 =
            (j - (s.totalreadcount + min 512 s.count)) / 512 + 1 := by omega
        have hmod : (j - s.totalreadcount) % 512 =
            (j - (s.totalreadcount + min 512 s.count)) % 512 := by omega
        rw [hdiv, hmod]
      · rw [if_neg (by omega)]
        by_cases hthis : s.totalreadcount ≤ j ∧ j < s.totalreadcount + min 512 s.count
        · rw [if_pos hthis, if_pos (by omega)]
          have hdiv : (j - s.totalreadcount) / 512 = 0 := by omega
          have hmod : (j - s.totalreadcount) % 512 = j - s.totalreadcount := by omega
          rw [hdiv, hmod]
        · rw [if_neg hthis, if_neg (by omega)]

/-- A sector that cannot be read leaves the count short. -/
theorem readLbaLoop_short (d : Device) (n : Nat) (s : LbaLoop)
    (h : ∃ i < sectorsFor s.count, d.diskRead (s.lba + UInt64.ofNat i) = none) :
    (readLbaLoop d n s).totalreadcount < s.totalreadcount + s.count := by
  obtain ⟨i, hi, hnone⟩ := h
  have hcount : s.count ≠ 0 := by
    rintro h0
    simp only [sectorsFor, h0] at hi
    omega
  induction n generalizing s i with
  | zero =>
    simp only [readLbaLoop]
    omega
  | succ n ih =>
    simp only [readLbaLoop, if_neg hcount]
    cases hd : d.diskRead s.lba with
    | none => dsimp only; omega
    | some data =>
      dsimp only
      have hi0 : i ≠ 0 := by
        rintro rfl
        simp [hd] at hnone
      obtain ⟨i, rfl⟩ := Nat.exists_eq_succ_of_ne_zero hi0
      have hmore : 512 < s.count := by
        simp only [sectorsFor] at hi
        omega
      have := ih
        { lba := s.lba + 1
          buffer := s.buffer.copy s.totalreadcount data (min 512 s.count)
          totalreadcount := s.totalreadcount + min 512 s.count
          count := s.count - min 512 s.count } i
        (by simp only [sectorsFor] at hi ⊢; omega) (by dsimp only; rw [sector_succ]; exact hnone)
        (by dsimp only; omega)
      dsimp only at this
      omega

theorem readLba_full (d : Device) {lba : UInt64} (buffer : Bytes) (count : UInt32)
    (f : Nat → Bytes) (hlba : lba ≤ d.diskLastSector)
    (hf : ∀ i < sectorsFor count.toNat, d.diskRead (lba + UInt64.ofNat i) = some (f i)) :
    (readLba d lba buffer count).1 = count.toNat ∧
      (∀ j < count.toNat, (readLba d lba buffer count).2 j = f (j / 512) (j % 512)) := by
  have := readLbaLoop_full d count.toNat ⟨lba, buffer, 0, count.toNat⟩ f le_rfl hf
  simp only [Nat.zero_add, Nat.sub_zero, Nat.zero_le, true_and] at this
  rw [readLba, if_neg (UInt64.not_lt.mpr hlba)]
  refine ⟨this.1, fun j hj => ?_⟩
  exact (this.2 j).trans (if_pos hj)

/-- A full count means that the first sector lies on the disk and every sector could be read. -/
theorem readLba_readable {d : Device} {lba : UInt64} {buffer : Bytes} {count : UInt32}
    (h0 : count ≠ 0) (h : ¬ (readLba d lba buffer count).1 < count.toNat) :
    lba ≤ d.diskLastSector ∧
      ∀ i < sectorsFor count.toNat, (d.diskRead (lba + UInt64.ofNat i)).isSome := by
  have hpos : count.toNat ≠ 0 := fun h => h0 (UInt32.toNat_inj.mp h)
  rw [readLba] at h
  split_ifs at h with hlba
  · exact absurd (Nat.pos_of_ne_zero hpos) h
  · refine ⟨UInt64.not_lt.mp hlba, fun i hi => ?_⟩
    by_contra hnone
    have := readLbaLoop_short d count.toNat ⟨lba, buffer, 0, count.toNat⟩
      ⟨i, hi, Option.not_isSome_iff_eq_none.mp hnone⟩
    dsimp only at this h
    omega

theorem readLba_of_ge {d : Device} {lba : UInt64} {buffer : Bytes} {count : UInt32} {j : Nat}
    (hj : count.toNat ≤ j) : (readLba d lba buffer count).2 j = buffer j := by
  rw [readLba]
  split_ifs with h
  · rfl
  · exact readLbaLoop_buffer_of_ge d count.toNat ⟨lba, buffer, 0, count.toNat⟩ (by simpa using hj)

/-! ## What `is_gpt_valid` accepts -/

namespace GptHeader

/-- Zeroing the checksum field and restoring it leaves the header as it was read. -/
theorem setHeaderCrc32_restore (h : GptHeader) :
    (h.setHeaderCrc32 0).setHeaderCrc32 h.headerCrc32 = h := by
  rw [setHeaderCrc32, setHeaderCrc32, Bytes.putLe_putLe, headerCrc32, Bytes.toNat_le32,
    Bytes.putLe_leNat_self]

@[simp] theorem headerSize_setHeaderCrc32 (h : GptHeader) (v : UInt32) :
    (h.setHeaderCrc32 v).headerSize = h.headerSize :=
  Bytes.le32_putLe_of_disjoint (by omega)

theorem filledSize_le (h : GptHeader) : h.filledSize.toNat ≤ pteMaxSize.toNat := by
  rw [filledSize]
  split_ifs with hlt
  · exact le_rfl
  · exact UInt32.le_iff_toNat_le.mp (UInt32.not_lt.mp hlt)

theorem filledSize_of_le {h : GptHeader} (hle : h.entryArraySize ≤ pteMaxSize) :
    h.filledSize = h.entryArraySize :=
  if_neg (UInt32.not_lt.mpr hle)

end GptHeader

/-- What a successful `read_gpt_entries` leaves: the bytes of the array as they are on disk. -/
theorem readGptEntries_loaded {d : Device} {gpt : GptHeader} {pte : Bytes}
    (h : (readGptEntries d gpt pte).1 = true) {j : Nat} (hj : j < gpt.filledSize.toNat) :
    ∃ s, d.diskRead (gpt.partitionEntryLba + UInt64.ofNat (j / 512)) = some s ∧
      (readGptEntries d gpt pte).2 j = s (j % 512) := by
  by_cases h0 : gpt.entryArraySize = 0
  · rw [readGptEntries, if_pos h0] at h
    exact absurd h Bool.false_ne_true
  · rw [readGptEntries, if_neg h0] at h ⊢
    have hne : gpt.filledSize ≠ 0 := by
      intro hzero
      rw [hzero, UInt32.toNat_zero] at hj
      exact Nat.not_lt_zero j hj
    simp only [Bool.not_eq_true', decide_eq_false_iff_not] at h ⊢
    obtain ⟨hlba, hread⟩ := readLba_readable hne h
    have hsome : ∀ i < sectorsFor gpt.filledSize.toNat,
        ∃ s, d.diskRead (gpt.partitionEntryLba + UInt64.ofNat i) = some s :=
      fun i hi => Option.isSome_iff_exists.mp (hread i hi)
    choose! f hf using hsome
    obtain ⟨-, hbuf⟩ :=
      readLba_full d (pte.fill 0 0 gpt.filledSize.toNat) gpt.filledSize f hlba hf
    have hsector : j / 512 < sectorsFor gpt.filledSize.toNat := by
      rw [sectorsFor]
      omega
    exact ⟨f (j / 512), hf (j / 512) hsector, hbuf j hj⟩

/-- The header at `lba` as `read_gpt_header` loads it over `gpt`. -/
def loadedHeader (d : Device) (lba : UInt64) (gpt : GptHeader) : GptHeader :=
  (readGptHeader d lba gpt).2

/-- The checks of `is_gpt_valid`, in the order of the source. -/
structure GptAccepted (d : Device) (lba : UInt64) (b : GptBuf) : Prop where
  loaded : (readGptHeader d lba b.gpt).1 = true
  signature : (loadedHeader d lba b.gpt).signature = gptHeaderSignature
  headerCrc : efiCrc32 ((loadedHeader d lba b.gpt).setHeaderCrc32 0)
    (loadedHeader d lba b.gpt).headerSize = (loadedHeader d lba b.gpt).headerCrc32
  myLba : (loadedHeader d lba b.gpt).myLba = lba
  firstUsable : (loadedHeader d lba b.gpt).firstUsableLba ≤ d.diskLastSector
  lastUsable : (loadedHeader d lba b.gpt).lastUsableLba ≤ d.diskLastSector
  entries : (readGptEntries d (loadedHeader d lba b.gpt) b.ptes).1 = true
  entriesCrc : efiCrc32 (readGptEntries d (loadedHeader d lba b.gpt) b.ptes).2
    (loadedHeader d lba b.gpt).entryArraySize =
      (loadedHeader d lba b.gpt).partitionEntryArrayCrc32

theorem isGptValid_of_accepted {d : Device} {lba : UInt64} {b : GptBuf}
    (h : GptAccepted d lba b) :
    isGptValid d lba b =
      (true, ⟨loadedHeader d lba b.gpt,
        (readGptEntries d (loadedHeader d lba b.gpt) b.ptes).2⟩) := by
  obtain ⟨hload, hsig, hcrc, hmy, hfirst, hlast, hent, hecrc⟩ := h
  rw [isGptValid]
  simp only [loadedHeader] at *
  simp only [hload, hsig, hcrc, hmy, hent, hecrc, GptHeader.headerSize_setHeaderCrc32,
    GptHeader.setHeaderCrc32_restore, UInt64.not_lt.mpr hfirst, UInt64.not_lt.mpr hlast,
    ne_eq, not_true_eq_false, Bool.not_true, Bool.false_eq_true, if_false]

theorem accepted_of_isGptValid {d : Device} {lba : UInt64} {b : GptBuf}
    (h : (isGptValid d lba b).1 = true) : GptAccepted d lba b := by
  rw [isGptValid] at h
  dsimp only at h
  split_ifs at h with hload hsig hcrc hmy hfirst hlast hent hecrc
  simp only [GptHeader.headerSize_setHeaderCrc32, GptHeader.setHeaderCrc32_restore, ne_eq,
    not_not, Bool.not_eq_true', Bool.not_eq_false] at hload hsig hcrc hmy hfirst hlast hent hecrc
  exact ⟨hload, hsig, hcrc, hmy, UInt64.not_lt.mp hfirst, UInt64.not_lt.mp hlast, hent, hecrc⟩

theorem GptAccepted.entryArraySize_ne_zero {d : Device} {lba : UInt64} {b : GptBuf}
    (h : GptAccepted d lba b) : (loadedHeader d lba b.gpt).entryArraySize ≠ 0 := by
  intro h0
  have := h.entries
  rw [readGptEntries, if_pos h0] at this
  exact Bool.false_ne_true this

end MbBootTv
