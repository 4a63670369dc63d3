import MbBootTv.Gpt.RoundTrip

/-!
# What stays in bounds

**The caller's array.** The walk over the entries should stop when the array is full, but its
test compares `!n` with the count. `storesWithin_iff` says for which tables the stores stay
inside the array all the same.

**The loaded table.** The checks of `is_gpt_valid` leave `header_size`, the number of entries and
their size free. `staysInside_iff` says which accepted headers keep the rest of the parser inside
what was loaded.
-/

namespace MbBootTv

/-! ## The caller's array -/

/-- The stores and the count stay within an array of `n` elements. -/
def FindResult.StoresWithin (r : FindResult) (n : Nat) : Prop :=
  (∀ st ∈ r.stores, st.1 < n) ∧ r.num ≤ n

theorem numberedFrom_index_lt {ptes : Bytes} {is : List Nat} {k n : Nat} :
    (∀ st ∈ numberedFrom ptes k is, st.1 < n) ↔ is = [] ∨ k + is.length ≤ n := by
  induction is generalizing k with
  | nil => simp
  | cons i is ih =>
    rw [numberedFrom_cons, List.forall_mem_cons, ih]
    simp only [List.cons_ne_nil, false_or, List.length_cons]
    cases is with
    | nil =>
      simp only [true_or, and_true, List.length_nil]
      omega
    | cons j is =>
      simp only [List.cons_ne_nil, false_or, List.length_cons]
      omega

theorem storesWithin_loop_iff {E : EfiH} {lastlba : UInt64} {ptes : Bytes} (n count : Nat) :
    FindResult.StoresWithin
        ⟨0, (efiFindLoop E lastlba ptes n count 0 ⟨0, []⟩).num,
          (efiFindLoop E lastlba ptes n count 0 ⟨0, []⟩).stores⟩ n ↔
      (validPtes E lastlba ptes count).length ≤ n := by
  by_cases hn : n = 0
  · subst hn
    simp only [FindResult.StoresWithin, Nat.cast_zero, efiFindLoop_zero, validFrom_zero,
      numberedFrom_index_lt, List.length_take]
    cases validPtes E lastlba ptes count with
    | nil => simp
    | cons i is => simp
  · rw [efiFindLoop_of_ne_zero (by exact_mod_cast hn), validFrom_zero]
    simp only [FindResult.StoresWithin, List.nil_append, Nat.zero_add, numberedFrom_index_lt,
      List.length_eq_zero_iff.symm]
    omega

/-- **The array of `n` elements is not overrun exactly when no table is found or the table has at
most `n` valid entries.** -/
theorem storesWithin_iff (E : EfiH) (d : Device) (m : GptStatics) (n : Nat) :
    (efiFindPartitions E d m n).1.StoresWithin n ↔
      ∀ b, (findValidGpt d m).1 = some b →
        (validPtes E d.diskLastSector b.ptes b.gpt.numPartitionEntries.toNat).length ≤ n := by
  cases hb : (findValidGpt d m).1 with
  | none =>
    rw [efiFindPartitions_none hb]
    simp [FindResult.StoresWithin]
  | some b =>
    rw [efiFindPartitions_some hb]
    simp only [Option.some.injEq, forall_eq']
    exact storesWithin_loop_iff n _

/-- `NP`, the array of `try_disk_boot`. -/
def np : Nat := 16

/-- One partition more than `try_disk_boot` has room for. -/
def seventeenPartitions : GptTable efiHeader 63 :=
  tableOf (List.replicate 17 (40, 47)) (by decide) (by decide) (by simp)

/-- Seventeen partitions overrun the array of `try_disk_boot`. -/
theorem not_storesWithin_np :
    ¬ (efiFindPartitions efiHeader (seventeenPartitions.image.disk 64) zeroStatics np).1.StoresWithin
        np := by
  obtain ⟨b, hb, hnum, hvalid⟩ := findValidGpt_written lawful_efiHeader
    (d := seventeenPartitions.image.disk 64) seventeenPartitions
    (GptImage.holdsPmbr_disk _ _) (holds_tableOf (by decide)) zeroStatics
  have hlen : seventeenPartitions.used.length = 17 := by
    rw [seventeenPartitions, used_tableOf]
    rfl
  have hcount := congrArg List.length hvalid
  rw [List.length_map, List.length_map] at hcount
  intro hwithin
  rw [efiFindPartitions_some hb, hnum] at hwithin
  have hle := (storesWithin_loop_iff _ _).mp hwithin
  rw [hcount] at hle
  exact absurd (hlen.symm.trans_le hle) (by decide)

/-! ## The loaded table -/

/-- The parser stays within what was loaded: the header checksum within the 512-byte header, the
checksum of the entries and the entries it looks at within the filled bytes, and entry `i`, which
it decodes at byte `128 * i` of the loaded array, where the header says it is. -/
structure StaysInside (gpt : GptHeader) : Prop where
  header : gpt.headerSize.toNat ≤ gptHeaderSize.toNat
  checksum : gpt.entryArraySize.toNat ≤ gpt.filledSize.toNat
  entry : ∀ i < gpt.numPartitionEntries.toNat,
    gptEntrySize * i + gptEntrySize ≤ gpt.filledSize.toNat
  stride : ∀ i < gpt.numPartitionEntries.toNat,
    gptEntrySize * i = i * gpt.sizeofPartitionEntry.toNat

/-- Entries of 128 bytes, at most 1024 of them; or one entry of at least 128 bytes that fits the
buffer. -/
def EntriesFit (gpt : GptHeader) : Prop :=
  (gpt.sizeofPartitionEntry.toNat = 128 ∧ gpt.numPartitionEntries.toNat ≤ 1024) ∨
    (gpt.numPartitionEntries.toNat = 1 ∧ 128 ≤ gpt.sizeofPartitionEntry.toNat ∧
      gpt.sizeofPartitionEntry.toNat ≤ 131072)

theorem GptHeader.toNat_entryArraySize (gpt : GptHeader) :
    gpt.entryArraySize.toNat =
      gpt.numPartitionEntries.toNat * gpt.sizeofPartitionEntry.toNat % 2 ^ 32 :=
  UInt32.toNat_mul _ _

theorem GptHeader.toNat_filledSize (gpt : GptHeader) :
    gpt.filledSize.toNat = min gpt.entryArraySize.toNat 131072 := by
  rw [filledSize]
  split_ifs with h
  · have : pteMaxSize.toNat < gpt.entryArraySize.toNat := UInt32.lt_iff_toNat_lt.mp h
    show 131072 = _
    rw [show pteMaxSize.toNat = 131072 from rfl] at this
    omega
  · have : gpt.entryArraySize.toNat ≤ pteMaxSize.toNat :=
      UInt32.le_iff_toNat_le.mp (UInt32.not_lt.mp h)
    rw [show pteMaxSize.toNat = 131072 from rfl] at this
    omega

theorem entriesFit_of_staysInside {gpt : GptHeader} (h0 : gpt.entryArraySize ≠ 0)
    (h : StaysInside gpt) : EntriesFit gpt := by
  obtain ⟨-, hsum, hentry, hstride⟩ := h
  have hpos : gpt.entryArraySize.toNat ≠ 0 := fun h => h0 (UInt32.toNat_inj.mp h)
  have hsize := gpt.toNat_entryArraySize
  have hfill := gpt.toNat_filledSize
  have hlt := gpt.sizeofPartitionEntry.toNat_lt
  have hnum : gpt.numPartitionEntries.toNat ≠ 0 := by
    intro h
    rw [h, Nat.zero_mul] at hsize
    exact hpos hsize
  simp only [gptEntrySize] at hentry hstride
  by_cases hone : gpt.numPartitionEntries.toNat = 1
  · rw [hone, Nat.one_mul] at hsize
    have hfirst := hentry 0 (by omega)
    exact Or.inr ⟨hone, by omega, by omega⟩
  · -- The second entry fixes the stride, the last one the number of entries.
    have hsecond := hstride 1 (by omega)
    have hlast := hentry (gpt.numPartitionEntries.toNat - 1) (by omega)
    exact Or.inl ⟨by omega, by omega⟩

theorem staysInside_of_entriesFit {gpt : GptHeader}
    (hhead : gpt.headerSize.toNat ≤ gptHeaderSize.toNat) (h : EntriesFit gpt) :
    StaysInside gpt := by
  have hsize := gpt.toNat_entryArraySize
  have hfill := gpt.toNat_filledSize
  rcases h with ⟨hs, hn⟩ | ⟨hn, hge, hle⟩
  · rw [hs] at hsize
    refine ⟨hhead, by omega, fun i hi => ?_, fun i _ => ?_⟩
    · simp only [gptEntrySize]
      omega
    · rw [hs, gptEntrySize, Nat.mul_comm]
  · rw [hn, Nat.one_mul] at hsize
    refine ⟨hhead, by omega, fun i hi => ?_, fun i hi => ?_⟩
    · simp only [gptEntrySize]
      omega
    · obtain rfl : i = 0 := by omega
      rw [Nat.mul_zero, Nat.zero_mul]

/-- **An accepted header keeps the parser inside what was loaded exactly when its checksum covers
at most the header and its entries have 128 bytes (or there is one, and it fits).** -/
theorem staysInside_iff (d : Device) (lba : UInt64) (b : GptBuf) :
    ((isGptValid d lba b).1 = true → StaysInside (isGptValid d lba b).2.gpt) ↔
      ((isGptValid d lba b).1 = true →
        (loadedHeader d lba b.gpt).headerSize.toNat ≤ 512 ∧
          EntriesFit (loadedHeader d lba b.gpt)) := by
  refine forall_congr' fun hvalid => ?_
  have hacc := accepted_of_isGptValid hvalid
  rw [isGptValid_of_accepted hacc]
  exact ⟨fun h => ⟨h.header, entriesFit_of_staysInside hacc.entryArraySize_ne_zero h⟩,
    fun h => staysInside_of_entriesFit h.1 h.2⟩

/-- Inside these bounds byte `k` of entry `i` is the one at `i * sizeof_partition_entry + k` of the
array on disk. -/
theorem StaysInside.decoded {d : Device} {lba : UInt64} {b : GptBuf}
    (hvalid : (isGptValid d lba b).1 = true) (h : StaysInside (isGptValid d lba b).2.gpt)
    {i k : Nat} (hi : i < (isGptValid d lba b).2.gpt.numPartitionEntries.toNat)
    (hk : k < gptEntrySize) {pos : Nat}
    (hpos : pos = i * (isGptValid d lba b).2.gpt.sizeofPartitionEntry.toNat + k) :
    ∃ s, d.diskRead ((isGptValid d lba b).2.gpt.partitionEntryLba + UInt64.ofNat (pos / 512)) =
        some s ∧
      (isGptValid d lba b).2.ptes (gptEntrySize * i + k) = s (pos % 512) := by
  have hacc := accepted_of_isGptValid hvalid
  have hentry := h.entry i hi
  have hstride := h.stride i hi
  rw [isGptValid_of_accepted hacc] at hentry hstride hpos ⊢
  dsimp only at hentry hstride hpos ⊢
  rw [hstride, ← hpos]
  exact readGptEntries_loaded hacc.entries (by omega)

/-- Two entries of 256 bytes. -/
def wideEntries : GptImage where
  headerSize := 92
  alternateLba := 63
  firstUsableLba := 34
  lastUsableLba := 62
  partitionEntryLba := 2
  numPartitionEntries := 2
  sizeofPartitionEntry := 256
  array := fun _ => 0
  rest := fun _ => 0

/-- A table of 256-byte entries is accepted, and its second entry decoded at byte 128. -/
theorem not_staysInside_wideEntries :
    (isGptValid (wideEntries.disk 64) 1 zeroStatics.primary).1 = true ∧
      ¬ StaysInside (isGptValid (wideEntries.disk 64) 1 zeroStatics.primary).2.gpt := by
  have hholds : wideEntries.Holds (wideEntries.disk 64) 1 :=
    GptImage.holds_disk (by decide) (by decide)
  have hbounded : wideEntries.Bounded (wideEntries.disk 64).diskLastSector :=
    ⟨by decide, by decide, by decide, by decide, by decide⟩
  obtain ⟨hvalid, hgpt, -⟩ := isGptValid_of_holds hholds hbounded zeroStatics.primary
  have h32 (pos : Nat) (hpos : pos + 4 ≤ 512) :
      (isGptValid (wideEntries.disk 64) 1 zeroStatics.primary).2.gpt.le32 pos =
        (wideEntries.header 1).le32 pos :=
    Bytes.le32_congr fun i hi => hgpt _ (by omega)
  refine ⟨hvalid, fun h => ?_⟩
  have hstride := h.stride 1 (by
    rw [GptHeader.numPartitionEntries, h32 80 (by decide)]
    rw [show (wideEntries.header 1).le32 80 = 2 from wideEntries.numPartitionEntries_header 1]
    decide)
  rw [GptHeader.sizeofPartitionEntry, h32 84 (by decide),
    show (wideEntries.header 1).le32 84 = 256 from wideEntries.sizeofPartitionEntry_header 1]
    at hstride
  exact absurd hstride (by decide)

end MbBootTv
