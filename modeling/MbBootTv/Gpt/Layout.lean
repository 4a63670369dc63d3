import MbBootTv.Gpt.Find

/-!
# Writing a GPT

The inverse of the parser: a header and an entry array as bytes with their checksums, and what it
means for a disk to hold them. `isGptValid_of_holds` says that what was written is accepted and
read back byte for byte, and `findValidGpt_of_holds` adds the protective MBR.
-/

namespace MbBootTv

/-- A table as it is written: the header fields the parser looks at, the bytes of the entry
array, and `rest` for everything else in the header (revision, reserved fields, disk GUID). -/
structure GptImage where
  headerSize : UInt32
  alternateLba : UInt64
  firstUsableLba : UInt64
  lastUsableLba : UInt64
  partitionEntryLba : UInt64
  numPartitionEntries : UInt32
  sizeofPartitionEntry : UInt32
  array : Bytes
  rest : Bytes

namespace GptImage

/-- The bytes of the entry array. -/
def arraySize (t : GptImage) : UInt32 := t.numPartitionEntries * t.sizeofPartitionEntry

/-- The header for `lba`, with the checksum field zero. -/
def blankHeader (t : GptImage) (lba : UInt64) : GptHeader :=
  Bytes.putLe (Bytes.putLe (Bytes.putLe (Bytes.putLe (Bytes.putLe (Bytes.putLe (Bytes.putLe
    (Bytes.putLe (Bytes.putLe (Bytes.putLe (Bytes.putLe t.rest
      0 8 gptHeaderSignature.toNat)
      12 4 t.headerSize.toNat)
      24 8 lba.toNat)
      32 8 t.alternateLba.toNat)
      40 8 t.firstUsableLba.toNat)
      48 8 t.lastUsableLba.toNat)
      72 8 t.partitionEntryLba.toNat)
      80 4 t.numPartitionEntries.toNat)
      84 4 t.sizeofPartitionEntry.toNat)
      88 4 (efiCrc32 t.array t.arraySize).toNat)
      16 4 0

/-- The header for `lba`, with its checksum. -/
def header (t : GptImage) (lba : UInt64) : GptHeader :=
  (t.blankHeader lba).setHeaderCrc32 (efiCrc32 (t.blankHeader lba) t.headerSize)

section Fields

variable (t : GptImage) (lba : UInt64)

theorem signature_header : (t.header lba).signature = gptHeaderSignature := by
  simp [GptHeader.signature, header, GptHeader.setHeaderCrc32, blankHeader,
    Bytes.le64_putLe_of_disjoint]

theorem headerSize_header : (t.header lba).headerSize = t.headerSize := by
  simp [GptHeader.headerSize, header, GptHeader.setHeaderCrc32, blankHeader,
    Bytes.le32_putLe_of_disjoint]

theorem headerCrc32_header :
    (t.header lba).headerCrc32 = efiCrc32 (t.blankHeader lba) t.headerSize := by
  simp [GptHeader.headerCrc32, header, GptHeader.setHeaderCrc32]

theorem myLba_header : (t.header lba).myLba = lba := by
  simp [GptHeader.myLba, header, GptHeader.setHeaderCrc32, blankHeader,
    Bytes.le64_putLe_of_disjoint]

theorem firstUsableLba_header : (t.header lba).firstUsableLba = t.firstUsableLba := by
  simp [GptHeader.firstUsableLba, header, GptHeader.setHeaderCrc32, blankHeader,
    Bytes.le64_putLe_of_disjoint]

theorem lastUsableLba_header : (t.header lba).lastUsableLba = t.lastUsableLba := by
  simp [GptHeader.lastUsableLba, header, GptHeader.setHeaderCrc32, blankHeader,
    Bytes.le64_putLe_of_disjoint]

theorem partitionEntryLba_header : (t.header lba).partitionEntryLba = t.partitionEntryLba := by
  simp [GptHeader.partitionEntryLba, header, GptHeader.setHeaderCrc32, blankHeader,
    Bytes.le64_putLe_of_disjoint]

theorem numPartitionEntries_header :
    (t.header lba).numPartitionEntries = t.numPartitionEntries := by
  simp [GptHeader.numPartitionEntries, header, GptHeader.setHeaderCrc32, blankHeader,
    Bytes.le32_putLe_of_disjoint]

theorem sizeofPartitionEntry_header :
    (t.header lba).sizeofPartitionEntry = t.sizeofPartitionEntry := by
  simp [GptHeader.sizeofPartitionEntry, header, GptHeader.setHeaderCrc32, blankHeader,
    Bytes.le32_putLe_of_disjoint]

theorem entriesCrc_header :
    (t.header lba).partitionEntryArrayCrc32 = efiCrc32 t.array t.arraySize := by
  simp [GptHeader.partitionEntryArrayCrc32, header, GptHeader.setHeaderCrc32, blankHeader,
    Bytes.le32_putLe_of_disjoint]

/-- Zeroing the checksum of a written header gives back the header it was computed on. -/
theorem header_setHeaderCrc32_zero : (t.header lba).setHeaderCrc32 0 = t.blankHeader lba := by
  rw [header, GptHeader.setHeaderCrc32, GptHeader.setHeaderCrc32, Bytes.putLe_putLe, blankHeader]
  exact Bytes.putLe_putLe _ _ _ _ _

end Fields

/-- The disk holds the table, with its header in sector `lba`. -/
structure Holds (t : GptImage) (d : Device) (lba : UInt64) : Prop where
  lba_le : lba ≤ d.diskLastSector
  header : ∃ s, d.diskRead lba = some s ∧ ∀ j < 512, s j = t.header lba j
  entryLba_le : t.partitionEntryLba ≤ d.diskLastSector
  entries : ∀ i < sectorsFor t.arraySize.toNat,
    ∃ s, d.diskRead (t.partitionEntryLba + UInt64.ofNat i) = some s ∧
      ∀ j < 512, 512 * i + j < t.arraySize.toNat → s j = t.array (512 * i + j)

/-- What the parser can cope with: a checksum over at most the header's sector, a non-empty array
that fits its buffer, and usable LBAs within the disk. -/
structure Bounded (t : GptImage) (last : UInt64) : Prop where
  headerSize_le : t.headerSize ≤ gptHeaderSize
  arraySize_ne : t.arraySize ≠ 0
  arraySize_le : t.arraySize ≤ pteMaxSize
  first_le : t.firstUsableLba ≤ last
  last_le : t.lastUsableLba ≤ last

end GptImage

/-! ## Reading it back -/

theorem readGptHeader_of_holds {t : GptImage} {d : Device} {lba : UInt64} (h : t.Holds d lba)
    (gpt : GptHeader) :
    (readGptHeader d lba gpt).1 = true ∧ ∀ j < 512, loadedHeader d lba gpt j = t.header lba j := by
  obtain ⟨s, hs, hbytes⟩ := h.header
  have hone : sectorsFor gptHeaderSize.toNat = 1 := rfl
  have := readLba_full d (gpt.fill 0 0 gptHeaderSize.toNat) gptHeaderSize (fun _ => s) h.lba_le (by
      intro i hi
      obtain rfl : i = 0 := by omega
      simpa using hs)
  constructor
  · simp [readGptHeader, this.1]
  · intro j hj
    rw [loadedHeader, readGptHeader]
    dsimp only
    rw [this.2 j hj, Nat.mod_eq_of_lt hj, hbytes j hj]

theorem readGptEntries_of_holds {t : GptImage} {d : Device} {lba : UInt64} (h : t.Holds d lba)
    (hb : t.Bounded d.diskLastSector) {gpt : GptHeader}
    (hlba : gpt.partitionEntryLba = t.partitionEntryLba) (hsize : gpt.entryArraySize = t.arraySize)
    (pte : Bytes) :
    (readGptEntries d gpt pte).1 = true ∧
      ∀ j < t.arraySize.toNat, (readGptEntries d gpt pte).2 j = t.array j := by
  have hfilled : gpt.filledSize = t.arraySize := by
    rw [GptHeader.filledSize_of_le (by rw [hsize]; exact hb.arraySize_le), hsize]
  choose! f hf hbytes using h.entries
  have := readLba_full d (pte.fill 0 0 t.arraySize.toNat) t.arraySize f h.entryLba_le hf
  rw [readGptEntries, if_neg (by rw [hsize]; exact hb.arraySize_ne), hlba, hfilled]
  dsimp only
  refine ⟨by simp [this.1], fun j hj => ?_⟩
  rw [this.2 j hj, hbytes (j / 512) (by simp only [sectorsFor]; omega) (j % 512)
    (Nat.mod_lt _ (by decide)) (by omega)]
  congr 1
  omega

/-- **A written table is accepted and read back.** -/
theorem isGptValid_of_holds {t : GptImage} {d : Device} {lba : UInt64} (h : t.Holds d lba)
    (hb : t.Bounded d.diskLastSector) (b : GptBuf) :
    (isGptValid d lba b).1 = true ∧
      (∀ j < 512, (isGptValid d lba b).2.gpt j = t.header lba j) ∧
      ∀ j < t.arraySize.toNat, (isGptValid d lba b).2.ptes j = t.array j := by
  obtain ⟨hload, hbytes⟩ := readGptHeader_of_holds h b.gpt
  have h64 (pos : Nat) (hpos : pos + 8 ≤ 512) :
      (loadedHeader d lba b.gpt).le64 pos = (t.header lba).le64 pos :=
    Bytes.le64_congr fun i hi => hbytes _ (by omega)
  have h32 (pos : Nat) (hpos : pos + 4 ≤ 512) :
      (loadedHeader d lba b.gpt).le32 pos = (t.header lba).le32 pos :=
    Bytes.le32_congr fun i hi => hbytes _ (by omega)
  have hsize : (loadedHeader d lba b.gpt).entryArraySize = t.arraySize := by
    rw [GptHeader.entryArraySize, GptHeader.numPartitionEntries, GptHeader.sizeofPartitionEntry,
      h32 80 (by decide), h32 84 (by decide)]
    exact congrArg₂ _ (t.numPartitionEntries_header lba) (t.sizeofPartitionEntry_header lba)
  have hentry : (loadedHeader d lba b.gpt).partitionEntryLba = t.partitionEntryLba :=
    (h64 72 (by decide)).trans (t.partitionEntryLba_header lba)
  obtain ⟨hread, harray⟩ := readGptEntries_of_holds h hb hentry hsize b.ptes
  have hhs : (loadedHeader d lba b.gpt).headerSize = t.headerSize :=
    (h32 12 (by decide)).trans (t.headerSize_header lba)
  -- The checksum covers part of the sector, where the loaded header is the written one.
  have hcrc : efiCrc32 ((loadedHeader d lba b.gpt).setHeaderCrc32 0) t.headerSize =
      efiCrc32 (t.blankHeader lba) t.headerSize := by
    rw [← t.header_setHeaderCrc32_zero lba]
    refine efiCrc32_congr fun i hi => ?_
    have hi512 : i < 512 := lt_of_lt_of_le hi (UInt32.le_iff_toNat_le.mp hb.headerSize_le)
    simp only [GptHeader.setHeaderCrc32, Bytes.putLe, hbytes i hi512]
  have hacc : GptAccepted d lba b := {
    loaded := hload
    signature := (h64 0 (by decide)).trans (t.signature_header lba)
    headerCrc := by
      rw [hhs, hcrc, ← t.headerCrc32_header lba]
      exact (h32 16 (by decide)).symm
    myLba := (h64 24 (by decide)).trans (t.myLba_header lba)
    firstUsable := by
      rw [GptHeader.firstUsableLba, h64 40 (by decide)]
      exact (t.firstUsableLba_header lba).trans_le hb.first_le
    lastUsable := by
      rw [GptHeader.lastUsableLba, h64 48 (by decide)]
      exact (t.lastUsableLba_header lba).trans_le hb.last_le
    entries := hread
    entriesCrc := by
      rw [hsize, efiCrc32_congr harray, ← t.entriesCrc_header lba]
      exact (h32 88 (by decide)).symm }
  rw [isGptValid_of_accepted hacc]
  exact ⟨rfl, hbytes, harray⟩

/-! ## The protective MBR -/

/-- A protective MBR: the boot signature, and a record of type 0xEE that starts at sector 1. -/
structure ProtectiveMbr (s : Bytes) : Prop where
  signature : s 510 = 0x55 ∧ s 511 = 0xAA
  record : ∃ i < 4, s (446 + 16 * i + 4) = 0xEE ∧ s.le32 (446 + 16 * i + 8) = 1

/-- Sector 0 of the disk is a protective MBR. -/
def HoldsPmbr (d : Device) : Prop := ∃ s, d.diskRead 0 = some s ∧ ProtectiveMbr s

theorem isPmbrValid_of_protective {s : Bytes} (h : ProtectiveMbr s) : isPmbrValid s = true := by
  obtain ⟨⟨h510, h511⟩, i, hi, htype, hstart⟩ := h
  have hsig : s.le16 510 = msdosMbrSignature := by
    simp [Bytes.le16, Bytes.leNat, h510, h511, msdosMbrSignature]
  rw [isPmbrValid, if_neg (not_not.mpr hsig), List.any_eq_true]
  refine ⟨i, List.mem_range.mpr hi, ?_⟩
  simp [pmbrPartValid, partitionRecord, htype, hstart, efiPmbrOstypeEfiGpt]

theorem isPmbrValid_congr {a b : Bytes} (h : ∀ j < 512, a j = b j) :
    isPmbrValid a = isPmbrValid b := by
  have hsig : a.le16 510 = b.le16 510 := Bytes.le16_congr fun i hi => h _ (by omega)
  have hpart (i : Nat) (hi : i < 4) :
      pmbrPartValid a (partitionRecord i) = pmbrPartValid b (partitionRecord i) := by
    rw [pmbrPartValid, pmbrPartValid, partitionRecord, h _ (by omega),
      @Bytes.le32_congr a b _ _ fun j hj => h _ (by omega)]
  have hany : ((List.range 4).any fun i => pmbrPartValid a (partitionRecord i)) =
      (List.range 4).any fun i => pmbrPartValid b (partitionRecord i) := by
    simp only [List.range_succ, List.range_zero, List.nil_append, List.cons_append, List.any_cons,
      List.any_nil, hpart 0 (by decide), hpart 1 (by decide), hpart 2 (by decide),
      hpart 3 (by decide)]
  rw [isPmbrValid, isPmbrValid, hsig, hany]

theorem isPmbrValid_of_holdsPmbr {d : Device} (h : HoldsPmbr d) :
    isPmbrValid (readLba d 0 (fun _ => 0) legacyMbrSize).2 = true := by
  obtain ⟨s, hs, hmbr⟩ := h
  have h0 : (0 : UInt64) ≤ d.diskLastSector := UInt64.le_iff_toNat_le.mpr (Nat.zero_le _)
  have := readLba_full d (fun _ => 0) legacyMbrSize (fun _ => s) h0 (by
      intro i hi
      obtain rfl : i = 0 := by
        have : sectorsFor legacyMbrSize.toNat = 1 := rfl
        omega
      simpa using hs)
  rw [← isPmbrValid_of_protective hmbr]
  refine isPmbrValid_congr fun j hj => ?_
  rw [this.2 j hj, Nat.mod_eq_of_lt hj]

/-- With a protective MBR and a table in sector 1, `find_valid_gpt` takes that table, whatever
its alternate is: the check of the alternate works on buffers of its own. -/
theorem findValidGpt_of_holds {t : GptImage} {d : Device} (hm : HoldsPmbr d)
    (h : t.Holds d gptPrimaryPartitionTableLba) (hb : t.Bounded d.diskLastSector)
    (m : GptStatics) :
    ∃ b, (findValidGpt d m).1 = some b ∧ b.gpt.numPartitionEntries = t.numPartitionEntries ∧
      ∀ j < t.arraySize.toNat, b.ptes j = t.array j := by
  obtain ⟨hvalid, hgpt, hptes⟩ := isGptValid_of_holds h hb m.primary
  refine ⟨(isGptValid d gptPrimaryPartitionTableLba m.primary).2, ?_, ?_, hptes⟩
  · simp only [findValidGpt, isPmbrValid_of_holdsPmbr hm, hvalid, Bool.not_true, Bool.and_false,
      Bool.false_eq_true, if_false, if_true]
  · rw [← t.numPartitionEntries_header gptPrimaryPartitionTableLba]
    exact Bytes.le32_congr fun i hi => hgpt _ (by omega)

/-! ## A writer -/

/-- The protective MBR of a disk with nothing else in sector 0. -/
def protectiveMbr : Bytes := fun j =>
  if j = 450 then 0xEE else if j = 454 then 1 else if j = 510 then 0x55 else
    if j = 511 then 0xAA else 0

theorem protective_protectiveMbr : ProtectiveMbr protectiveMbr :=
  ⟨⟨by decide, by decide⟩, 0, by decide, by decide, by decide⟩

/-- A disk with the protective MBR in sector 0, the table's header in sector 1 and its array
where the header says; no other sector can be read. -/
def GptImage.disk (t : GptImage) (sectors : UInt64) : Device where
  sectors := sectors
  diskRead lba :=
    if lba = 0 then some protectiveMbr
    else if lba = 1 then some (t.header 1)
    else if t.partitionEntryLba.toNat ≤ lba.toNat ∧
        lba.toNat < t.partitionEntryLba.toNat + sectorsFor t.arraySize.toNat then
      some fun j => t.array (512 * (lba.toNat - t.partitionEntryLba.toNat) + j)
    else none

theorem GptImage.holdsPmbr_disk (t : GptImage) (sectors : UInt64) : HoldsPmbr (t.disk sectors) :=
  ⟨protectiveMbr, rfl, protective_protectiveMbr⟩

theorem GptImage.holds_disk {t : GptImage} {sectors : UInt64} (hpos : 2 ≤ t.partitionEntryLba.toNat)
    (hfit : t.partitionEntryLba.toNat + sectorsFor t.arraySize.toNat < sectors.toNat) :
    t.Holds (t.disk sectors) gptPrimaryPartitionTableLba := by
  have hlt := sectors.toNat_lt
  have hlast : (t.disk sectors).diskLastSector.toNat = sectors.toNat - 1 := by
    show (sectors - 1).toNat = _
    rw [UInt64.toNat_sub_of_le _ _ (UInt64.le_iff_toNat_le.mpr (by simp; omega))]
    rfl
  refine ⟨?_, ⟨_, rfl, fun _ _ => rfl⟩, ?_, fun i hi => ?_⟩
  · rw [UInt64.le_iff_toNat_le, hlast]
    show 1 ≤ _
    omega
  · rw [UInt64.le_iff_toNat_le, hlast]
    omega
  · have hsum : (t.partitionEntryLba + UInt64.ofNat i).toNat = t.partitionEntryLba.toNat + i := by
      rw [UInt64.toNat_add, UInt64.toNat_ofNat', Nat.mod_eq_of_lt (by omega : i < 2 ^ 64),
        Nat.mod_eq_of_lt (by omega)]
    have h0 : t.partitionEntryLba + UInt64.ofNat i ≠ 0 := by
      intro h
      have : (t.partitionEntryLba + UInt64.ofNat i).toNat = 0 := by rw [h]; rfl
      omega
    have h1 : t.partitionEntryLba + UInt64.ofNat i ≠ 1 := by
      intro h
      have : (t.partitionEntryLba + UInt64.ofNat i).toNat = 1 := by rw [h]; rfl
      omega
    refine ⟨fun j => t.array (512 * i + j), ?_, fun j _ _ => rfl⟩
    simp only [GptImage.disk, if_neg h0, if_neg h1, hsum]
    rw [if_pos (by omega), Nat.add_sub_cancel_left]

end MbBootTv
