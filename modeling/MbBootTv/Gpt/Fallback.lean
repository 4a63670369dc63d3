import MbBootTv.Gpt.RoundTrip

/-!
# The alternate table

A disk has two copies of its table, and `find_valid_gpt` has a branch for the second one. It looks
at the alternate header only behind a valid primary one (`force_gpt` is 0), so the branch is never
taken: `findValidGpt_fallsBack_iff` says on which disks this makes no difference.
-/

namespace MbBootTv

/-- `is_gpt_valid` accepts the header in sector `lba`. -/
def Accepts (d : Device) (lba : UInt64) (b : GptBuf) : Prop := (isGptValid d lba b).1 = true

/-- `is_pmbr_valid` accepts sector 0. -/
def ReadsPmbr (d : Device) : Prop := isPmbrValid (readLba d 0 (fun _ => 0) legacyMbrSize).2 = true

/-- The sectors of the copy whose header is in sector `lba`. -/
def InCopy (d : Device) (lba : UInt64) (b : GptBuf) (s : UInt64) : Prop :=
  s = lba ∨ (s - (loadedHeader d lba b.gpt).partitionEntryLba).toNat <
    sectorsFor (loadedHeader d lba b.gpt).filledSize.toNat

/-- Both copies are valid, and have no sector in common. -/
structure Intact (d : Device) (m : GptStatics) : Prop where
  primary : Accepts d gptPrimaryPartitionTableLba m.primary
  alternate : Accepts d d.diskLastSector m.alternate
  apart : ∀ s, InCopy d gptPrimaryPartitionTableLba m.primary s →
    ¬ InCopy d d.diskLastSector m.alternate s

/-- `d'` is the disk `d` with damage in its primary header and entry array, and nowhere else. -/
structure DamagesPrimary (d d' : Device) (b : GptBuf) : Prop where
  sectors : d'.sectors = d.sectors
  elsewhere : ∀ s, ¬ InCopy d gptPrimaryPartitionTableLba b s → d'.diskRead s = d.diskRead s

/-- What the two copies are for. -/
structure FallsBack (d : Device) (m : GptStatics) : Prop where
  primary : Accepts d gptPrimaryPartitionTableLba m.primary →
    (findValidGpt d m).1 = some (isGptValid d gptPrimaryPartitionTableLba m.primary).2
  alternate : ¬ Accepts d gptPrimaryPartitionTableLba m.primary →
    Accepts d d.diskLastSector m.alternate →
      (findValidGpt d m).1 = some (isGptValid d d.diskLastSector m.alternate).2
  fails : (findValidGpt d m).1 = none ↔
    ¬ Accepts d gptPrimaryPartitionTableLba m.primary ∧ ¬ Accepts d d.diskLastSector m.alternate
  survives : ∀ d₀, Intact d₀ m → DamagesPrimary d₀ d m.primary → (findValidGpt d m).1 ≠ none

section Copies

variable {d d' : Device} {lba : UInt64} {b : GptBuf} {m : GptStatics}

/-! ## What a check reads -/

theorem readLbaLoop_congr {n : Nat} {s : LbaLoop}
    (h : ∀ i < sectorsFor s.count,
      d'.diskRead (s.lba + UInt64.ofNat i) = d.diskRead (s.lba + UInt64.ofNat i)) :
    readLbaLoop d' n s = readLbaLoop d n s := by
  induction n generalizing s with
  | zero => rfl
  | succ n ih =>
    unfold readLbaLoop
    by_cases h0 : s.count = 0
    · rw [if_pos h0, if_pos h0]
    · have hfirst : d'.diskRead s.lba = d.diskRead s.lba := by
        simpa using h 0 (by simp only [sectorsFor]; omega)
      rw [if_neg h0, if_neg h0, hfirst]
      cases d.diskRead s.lba with
      | none => rfl
      | some data =>
        refine ih fun i hi => ?_
        dsimp only at hi ⊢
        rw [sector_succ]
        exact h (i + 1) (by simp only [sectorsFor] at hi ⊢; omega)

theorem readLba_congr {buffer : Bytes} {count : UInt32} (hs : d'.sectors = d.sectors)
    (h : ∀ i < sectorsFor count.toNat,
      d'.diskRead (lba + UInt64.ofNat i) = d.diskRead (lba + UInt64.ofNat i)) :
    readLba d' lba buffer count = readLba d lba buffer count := by
  have hlast : d'.diskLastSector = d.diskLastSector := congrArg (· - 1) hs
  have hloop := readLbaLoop_congr (n := count.toNat) (s := ⟨lba, buffer, 0, count.toNat⟩) h
  unfold readLba
  rw [hlast, hloop]

theorem readGptEntries_congr {gpt : GptHeader} {pte : Bytes} (hs : d'.sectors = d.sectors)
    (h : ∀ i < sectorsFor gpt.filledSize.toNat, d'.diskRead (gpt.partitionEntryLba + UInt64.ofNat i) =
      d.diskRead (gpt.partitionEntryLba + UInt64.ofNat i)) :
    readGptEntries d' gpt pte = readGptEntries d gpt pte := by
  unfold readGptEntries
  dsimp only
  rw [readLba_congr hs h]

/-- A check reads one copy, and nothing else of the disk. -/
theorem isGptValid_congr (hs : d'.sectors = d.sectors)
    (h : ∀ s, InCopy d lba b s → d'.diskRead s = d.diskRead s) :
    isGptValid d' lba b = isGptValid d lba b := by
  have hlast : d'.diskLastSector = d.diskLastSector := congrArg (· - 1) hs
  have hone : sectorsFor gptHeaderSize.toNat = 1 := rfl
  have hheader : readGptHeader d' lba b.gpt = readGptHeader d lba b.gpt := by
    unfold readGptHeader
    rw [readLba_congr hs fun i hi => ?_]
    obtain rfl : i = 0 := by omega
    exact h _ (Or.inl (by simp))
  have hentries : readGptEntries d' (loadedHeader d lba b.gpt) b.ptes =
      readGptEntries d (loadedHeader d lba b.gpt) b.ptes := by
    refine readGptEntries_congr hs fun i hi => h _ (Or.inr ?_)
    have hle := (loadedHeader d lba b.gpt).filledSize_le
    have hmax : pteMaxSize.toNat = 131072 := rfl
    have hsmall : i < 2 ^ 64 := by
      simp only [sectorsFor] at hi
      omega
    rw [UInt64.add_comm, UInt64.add_sub_cancel, UInt64.toNat_ofNat', Nat.mod_eq_of_lt hsmall]
    exact hi
  unfold loadedHeader at hentries
  unfold isGptValid
  simp only [hheader, hlast, GptHeader.setHeaderCrc32_restore, hentries]

/-- The damage leaves the alternate copy as it was. -/
theorem Intact.alternate_of_damaged {d₀ : Device} (h : Intact d₀ m)
    (hd : DamagesPrimary d₀ d m.primary) : Accepts d d.diskLastSector m.alternate := by
  have hlast : d.diskLastSector = d₀.diskLastSector := congrArg (· - 1) hd.sectors
  have hsame : isGptValid d d₀.diskLastSector m.alternate =
      isGptValid d₀ d₀.diskLastSector m.alternate :=
    isGptValid_congr hd.sectors fun s hs => hd.elsewhere s fun hin => h.apart s hin hs
  unfold Accepts
  rw [hlast, hsame]
  exact h.alternate

/-! ## What `find_valid_gpt` does -/

/-- It takes the primary table or none. -/
theorem findValidGpt_eq (hpmbr : ReadsPmbr d) :
    (findValidGpt d m).1 =
      if (isGptValid d gptPrimaryPartitionTableLba m.primary).1 then
        some (isGptValid d gptPrimaryPartitionTableLba m.primary).2
      else none := by
  unfold ReadsPmbr at hpmbr
  unfold findValidGpt
  simp only [hpmbr, forceGpt, Bool.not_true, Bool.and_false, Bool.false_eq_true, if_false]
  cases (isGptValid d gptPrimaryPartitionTableLba m.primary).1 <;> rfl

/-- **It falls back** on every disk but those with an alternate table alone: there it fails. -/
theorem findValidGpt_fallsBack_iff (hpmbr : ReadsPmbr d) (m : GptStatics) :
    FallsBack d m ↔ (Accepts d gptPrimaryPartitionTableLba m.primary ∨
      ¬ Accepts d d.diskLastSector m.alternate) := by
  have heq := findValidGpt_eq (m := m) hpmbr
  by_cases hprimary : Accepts d gptPrimaryPartitionTableLba m.primary
  · refine iff_of_true ?_ (Or.inl hprimary)
    have htaken := heq.trans (if_pos hprimary)
    have hsome : (findValidGpt d m).1 ≠ none := by
      rw [htaken]
      exact Option.some_ne_none _
    exact ⟨fun _ => htaken, fun hno => absurd hprimary hno,
      iff_of_false hsome fun hno => hno.1 hprimary, fun _ _ _ => hsome⟩
  · have hnone := heq.trans (if_neg hprimary)
    constructor
    · intro h
      exact Or.inr (h.fails.mp hnone).2
    · intro h
      have halternate := h.resolve_left hprimary
      exact ⟨fun hyes => absurd hyes hprimary, fun _ hyes => absurd hyes halternate,
        iff_of_true hnone ⟨hprimary, halternate⟩,
        fun _ hintact hdamage => absurd (hintact.alternate_of_damaged hdamage) halternate⟩

end Copies

/-! ## A disk with each -/

/-- The primary table is there. -/
theorem findValidGpt_fallsBack_iff_two :
    FallsBack (twoPartitions.image.disk 64) zeroStatics :=
  (findValidGpt_fallsBack_iff (isPmbrValid_of_holdsPmbr (GptImage.holdsPmbr_disk _ _))
    zeroStatics).mpr
    (Or.inl (isGptValid_of_holds (holds_tableOf (by decide)) (GptTable.bounded _) _).1)

/-- The table of two partitions as it stands in the last sectors of a disk. -/
def backupImage : GptImage := { twoPartitions.image with partitionEntryLba := 62 }

/-- A disk of 64 sectors on which the primary table is wiped. -/
def wipedDisk : Device where
  sectors := 64
  diskRead lba :=
    if lba = 0 then some protectiveMbr
    else if lba = 62 then some backupImage.array
    else if lba = 63 then some (backupImage.header 63)
    else if lba < 64 then some fun _ => 0
    else none

/-- Its alternate table is valid, and is not taken. -/
theorem not_fallsBack_wiped :
    ReadsPmbr wipedDisk ∧ Accepts wipedDisk wipedDisk.diskLastSector zeroStatics.alternate ∧
      (findValidGpt wipedDisk zeroStatics).1 = none ∧ ¬ FallsBack wipedDisk zeroStatics := by
  have hpmbr : ReadsPmbr wipedDisk :=
    isPmbrValid_of_holdsPmbr ⟨protectiveMbr, rfl, protective_protectiveMbr⟩
  have hsize : backupImage.arraySize.toNat = 256 := rfl
  have hholds : backupImage.Holds wipedDisk 63 := by
    refine ⟨by decide, ⟨_, rfl, fun _ _ => rfl⟩, by decide, fun i hi => ?_⟩
    obtain rfl : i = 0 := by
      rw [hsize, sectorsFor] at hi
      omega
    exact ⟨backupImage.array, rfl, fun j _ _ => by rw [Nat.mul_zero, Nat.zero_add]⟩
  have hbounded : backupImage.Bounded wipedDisk.diskLastSector :=
    ⟨by decide, by decide, by decide, by decide, by decide⟩
  have halternate : Accepts wipedDisk wipedDisk.diskLastSector zeroStatics.alternate :=
    (isGptValid_of_holds hholds hbounded _).1
  have hprimary : (isGptValid wipedDisk gptPrimaryPartitionTableLba zeroStatics.primary).1 =
      false := by decide +kernel
  have hnone : (findValidGpt wipedDisk zeroStatics).1 = none := by
    rw [findValidGpt_eq hpmbr, hprimary]
    rfl
  exact ⟨hpmbr, halternate, hnone, fun h => (h.fails.mp hnone).2 halternate⟩

end MbBootTv
