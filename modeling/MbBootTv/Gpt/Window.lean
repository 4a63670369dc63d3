import MbBootTv.Gpt.RoundTrip

/-!
# Inside the partition

A partition's window is computed by `efi.c` (`ending_lba - starting_lba + 1`) and enforced by
`partition.c` (`sector + nsectors > size`), both in 64-bit arithmetic that wraps.
`partitionRead_inside_iff` says exactly when a request stays between the two LBAs of the entry,
and `efiFindPartitions_inside_iff` says it of every partition that `efi_find_partitions` reports.
-/

namespace MbBootTv

/-- A request is refused without touching the disk, or touches only sectors from `s` to `e`. -/
def InsideOrRefused (d : Device) (p : Partition) (s e sector nsectors : UInt64) (buf : Bytes) :
    Prop :=
  ((partitionRead d p buf sector nsectors).ret = -1 ∧
      (partitionRead d p buf sector nsectors).lbas = []) ∨
    ∀ l ∈ (partitionRead d p buf sector nsectors).lbas, s ≤ l ∧ l ≤ e

/-- The LBAs from `s` to `e`, by the distance from `s`. -/
theorem between_iff {s e x : UInt64} : s ≤ s + x ∧ s + x ≤ e ↔ s ≤ e ∧ x ≤ e - s := by
  have hs := s.toNat_lt
  have he := e.toNat_lt
  have hx := x.toNat_lt
  simp only [UInt64.le_iff_toNat_le, UInt64.toNat_add, UInt64.toNat_sub]
  omega

/-- When a request stays inside the LBAs from `s` to `e`: it is refused, it is empty, or it starts
inside and either ends inside or meets an unreadable sector before it leaves. -/
def StaysInsideWindow (d : Device) (s e sector nsectors : UInt64) : Prop :=
  e - s + 1 < sector + nsectors ∨ nsectors = 0 ∨
    s ≤ e ∧ sector ≤ e - s ∧
      (sector.toNat + nsectors.toNat ≤ (e - s).toNat + 1 ∨
        ∃ j < nsectors.toNat, sector.toNat + j ≤ (e - s).toNat ∧
          d.diskRead (sector + s + UInt64.ofNat j) = none)

theorem insideOrRefused_iff {d : Device} {p : Partition} {s e sector nsectors : UInt64}
    {buf : Bytes} : InsideOrRefused d p s e sector nsectors buf ↔
      ∀ l ∈ (partitionRead d p buf sector nsectors).lbas, s ≤ l ∧ l ≤ e := by
  refine ⟨fun h => ?_, Or.inr⟩
  rcases h with ⟨-, hnone⟩ | h
  · rw [hnone]
    exact fun l hl => absurd hl List.not_mem_nil
  · exact h

theorem toNat_add_ofNat {x : UInt64} {j : Nat} :
    (x + UInt64.ofNat j).toNat = (x.toNat + j) % 2 ^ 64 := by
  rw [UInt64.toNat_add, UInt64.toNat_ofNat', Nat.add_mod_mod]

/-- Sector `j` of a request lies between `s` and `e` when its distance from `s` does. -/
theorem sector_between_iff {s e sector : UInt64} {j : Nat} :
    s ≤ sector + s + UInt64.ofNat j ∧ sector + s + UInt64.ofNat j ≤ e ↔
      s ≤ e ∧ (sector.toNat + j) % 2 ^ 64 ≤ (e - s).toNat := by
  have hcomm : sector + s + UInt64.ofNat j = s + (sector + UInt64.ofNat j) := by
    rw [UInt64.add_comm sector, UInt64.add_assoc]
  rw [hcomm, between_iff, UInt64.le_iff_toNat_le (b := e - s), toNat_add_ofNat]

/-- **Exactly the requests that stay inside the window.** -/
theorem partitionRead_inside_iff (d : Device) (s e sector nsectors : UInt64) (buf : Bytes) :
    InsideOrRefused d ⟨s, e - s + 1⟩ s e sector nsectors buf ↔
      StaysInsideWindow d s e sector nsectors := by
  rw [insideOrRefused_iff, StaysInsideWindow]
  by_cases hsize : e - s + 1 < sector + nsectors
  · rw [partitionRead_refused hsize]
    simp [hsize]
  · simp only [mem_partitionRead_lbas (p := ⟨s, e - s + 1⟩) hsize, hsize, false_or]
    have hwrap : (sector.toNat + nsectors.toNat) % 2 ^ 64 ≤ ((e - s).toNat + 1) % 2 ^ 64 := by
      rw [← UInt64.toNat_add]
      exact UInt64.le_iff_toNat_le.mp (UInt64.not_lt.mp hsize)
    have hn := nsectors.toNat_lt
    have hes := (e - s).toNat_lt
    have hsec := sector.toNat_lt
    constructor
    · intro h
      by_cases h0 : nsectors.toNat = 0
      · exact Or.inl (UInt64.toNat_inj.mp h0)
      · have hfirst := sector_between_iff.mp
          (h _ ⟨0, Nat.pos_of_ne_zero h0, fun i hi => absurd hi (Nat.not_lt_zero i), rfl⟩)
        obtain ⟨hse, hstart⟩ := hfirst
        have hle : sector.toNat ≤ (e - s).toNat := by omega
        refine Or.inr ⟨hse, UInt64.le_iff_toNat_le.mpr hle, ?_⟩
        by_contra hleaves
        push Not at hleaves
        obtain ⟨hbeyond, hreadable⟩ := hleaves
        -- The first sector past the window is reached, since everything before it can be read.
        have hreach : (e - s).toNat + 1 - sector.toNat < nsectors.toNat := by omega
        have hout := sector_between_iff.mp (h _ ⟨_, hreach, fun i hi =>
          Option.isSome_iff_ne_none.mpr (hreadable i (by omega) (by omega)), rfl⟩)
        omega
    · rintro h l ⟨j, hj, hread, rfl⟩
      rcases h with h0 | ⟨hse, hstart, hend⟩
      · rw [h0] at hj
        exact absurd hj (Nat.not_lt_zero j)
      · refine sector_between_iff.mpr ⟨hse, ?_⟩
        rcases hend with hfits | ⟨k, hk, hin, hnone⟩
        · omega
        · have hjk : j ≤ k := by
            by_contra hlt
            have := hread k (by omega)
            rw [hnone] at this
            exact Bool.false_ne_true this
          omega

/-- The partitions reported are those of valid entries. -/
theorem mem_stores {E : EfiH} {d : Device} {m : GptStatics} {n : Int} {k : Nat} {p : Partition}
    (h : (k, p) ∈ (efiFindPartitions E d m n).1.stores) :
    ∃ b i, (findValidGpt d m).1 = some b ∧ i < b.gpt.numPartitionEntries.toNat ∧
      isPteValid E b.ptes i d.diskLastSector = true ∧ p = pteExtent b.ptes i := by
  cases hb : (findValidGpt d m).1 with
  | none =>
    rw [efiFindPartitions_none hb] at h
    exact absurd h List.not_mem_nil
  | some b =>
    rw [efiFindPartitions_some hb] at h
    obtain ⟨is, hpre, hloop⟩ := @efiFindLoop_stores E d.diskLastSector b.ptes n
      b.gpt.numPartitionEntries.toNat
    rw [hloop] at h
    obtain ⟨⟨i, k'⟩, hmem, heq⟩ := List.mem_map.mp h
    obtain ⟨hi, hvalid⟩ := mem_validPtes.mp (hpre.subset (List.fst_mem_of_mem_zipIdx hmem))
    exact ⟨b, i, rfl, hi, hvalid, (Prod.ext_iff.mp heq).2.symm⟩

/-- **Exactly the requests that stay inside the entry a reported partition comes from**, whatever
the disk then answers. -/
theorem efiFindPartitions_inside_iff (E : EfiH) (d : Device) (m : GptStatics) (n : Int) (k : Nat)
    (p : Partition) (h : (k, p) ∈ (efiFindPartitions E d m n).1.stores) :
    ∃ b i, (findValidGpt d m).1 = some b ∧ i < b.gpt.numPartitionEntries.toNat ∧
      isPteValid E b.ptes i d.diskLastSector = true ∧ p = pteExtent b.ptes i ∧
      ∀ (d' : Device) (sector nsectors : UInt64) (buf : Bytes),
        InsideOrRefused d' (partitionSet p) (GptEntry.startingLba b.ptes i)
            (GptEntry.endingLba b.ptes i) sector nsectors buf ↔
          StaysInsideWindow d' (GptEntry.startingLba b.ptes i) (GptEntry.endingLba b.ptes i)
            sector nsectors := by
  obtain ⟨b, i, hb, hi, hvalid, rfl⟩ := mem_stores h
  exact ⟨b, i, hb, hi, hvalid, rfl, fun d' sector nsectors buf =>
    partitionRead_inside_iff d' _ _ sector nsectors buf⟩

/-- A table whose only entry ends before it starts. -/
def reversedPartition : GptTable efiHeader 63 :=
  tableOf [(40, 30)] (by decide) (by decide) (by simp)

theorem mem_stores_reversed :
    (0, ⟨40, 30 - 40 + 1⟩) ∈
      (efiFindPartitions efiHeader (reversedPartition.image.disk 64) zeroStatics 16).1.stores := by
  obtain ⟨b, hb, hnum, hvalid⟩ := findValidGpt_written lawful_efiHeader
    (d := reversedPartition.image.disk 64) reversedPartition
    (GptImage.holdsPmbr_disk _ _) (holds_tableOf (by decide)) zeroStatics
  have hmap : reversedPartition.used.map entryExtent = [⟨40, 30 - 40 + 1⟩] := by
    rw [reversedPartition, map_entryExtent_tableOf]
    rfl
  rw [← hnum] at hvalid
  rw [efiFindPartitions_of_valid hb (hvalid.trans hmap) (by decide)]
  exact List.mem_singleton.mpr rfl

theorem efiFindPartitions_inside_iff_reversed :
    ∃ b i, (findValidGpt (reversedPartition.image.disk 64) zeroStatics).1 = some b ∧
      ∀ (d' : Device) (sector nsectors : UInt64) (buf : Bytes),
        InsideOrRefused d' ⟨40, 30 - 40 + 1⟩ (GptEntry.startingLba b.ptes i)
            (GptEntry.endingLba b.ptes i) sector nsectors buf ↔
          StaysInsideWindow d' (GptEntry.startingLba b.ptes i) (GptEntry.endingLba b.ptes i)
            sector nsectors := by
  obtain ⟨b, i, hb, -, -, -, hinside⟩ := efiFindPartitions_inside_iff efiHeader
    (reversedPartition.image.disk 64) zeroStatics 16 0 ⟨40, 30 - 40 + 1⟩ mem_stores_reversed
  exact ⟨b, i, hb, hinside⟩

/-- Of that partition every sector can be read, and sector 0 already lies outside. -/
theorem not_inside_reversed :
    (0, ⟨40, 30 - 40 + 1⟩) ∈
        (efiFindPartitions efiHeader (reversedPartition.image.disk 64) zeroStatics 16).1.stores ∧
      ¬ InsideOrRefused (reversedPartition.image.disk 64) (partitionSet ⟨40, 30 - 40 + 1⟩) 40 30
        0 1 fun _ => 0 := by
  refine ⟨mem_stores_reversed, fun h => ?_⟩
  have hmem : (40 : UInt64) ∈ (partitionRead (reversedPartition.image.disk 64)
      ⟨40, 30 - 40 + 1⟩ (fun _ => 0) 0 1).lbas := by
    refine (mem_partitionRead_lbas (by decide) 40).mpr ⟨0, by decide, ?_, rfl⟩
    exact fun i hi => absurd hi (Nat.not_lt_zero i)
  exact absurd (insideOrRefused_iff.mp h 40 hmem).2 (by decide)

end MbBootTv
