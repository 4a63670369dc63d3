import MbBootTv.Gpt.Header

/-!
# Finding the partitions (`efi.c`, second half)

`find_valid_gpt` checks the protective MBR and picks a table; `efi_find_partitions` walks its
entries and stores the valid ones in the caller's array. The stores are listed with their
indices, whatever the array's capacity.

`efi_guidcmp` and `NULL_GUID` come from a header that is not part of the sources, so they are
parameters. `compare_gpts` only prints, and is left out with the rest of the console output.
-/

namespace MbBootTv

/-- What `efi.h` provides. -/
structure EfiH where
  efiGuidcmp : EfiGuid → EfiGuid → Int
  nullGuid : EfiGuid

/-- `efi_guidcmp` is 0 exactly on equal GUIDs. -/
def EfiH.Lawful (E : EfiH) : Prop := ∀ a b, E.efiGuidcmp a b = 0 ↔ a = b

/-! ## The protective MBR -/

/-- `MSDOS_MBR_SIGNATURE` -/
def msdosMbrSignature : UInt16 := 0xaa55

/-- `EFI_PMBR_OSTYPE_EFI_GPT` -/
def efiPmbrOstypeEfiGpt : UInt8 := 0xEE

/-- `sizeof (legacy_mbr)` -/
def legacyMbrSize : UInt32 := 512

/-- The offset of `partition_record[i]` in a `legacy_mbr`. -/
def partitionRecord (i : Nat) : Nat := 446 + 16 * i

/-- `pmbr_part_valid` -/
def pmbrPartValid (mbr : Bytes) (part : Nat) : Bool :=
  mbr (part + 4) = efiPmbrOstypeEfiGpt && mbr.le32 (part + 8) = 1

/-- `is_pmbr_valid` -/
def isPmbrValid (mbr : Bytes) : Bool :=
  if mbr.le16 510 ≠ msdosMbrSignature then false
  else (List.range 4).any fun i => pmbrPartValid mbr (partitionRecord i)

/-! ## `find_valid_gpt` -/

/-- `force_gpt` -/
def forceGpt : Bool := false

/-- The static buffers of `find_valid_gpt`: `pgpt` and `pptes`, `agpt` and `aptes`. -/
structure GptStatics where
  primary : GptBuf
  alternate : GptBuf

/-- `find_valid_gpt`: the header and entries it chose, and the buffers as it leaves them. -/
def findValidGpt (d : Device) (m : GptStatics) : Option GptBuf × GptStatics :=
  let legacymbr := (readLba d 0 (fun _ => 0) legacyMbrSize).2
  if !forceGpt && !isPmbrValid legacymbr then (none, m)
  else
    let (goodPgpt, primary) := isGptValid d gptPrimaryPartitionTableLba m.primary
    let (goodAgpt, alternate) :=
      if goodPgpt then isGptValid d primary.gpt.alternateLba m.alternate
      else (false, m.alternate)
    let (goodAgpt, alternate) :=
      if !goodAgpt && forceGpt then isGptValid d d.diskLastSector alternate
      else (goodAgpt, alternate)
    if goodPgpt then (some primary, ⟨primary, alternate⟩)
    else if goodAgpt then (some alternate, ⟨primary, alternate⟩)
    else (none, ⟨primary, alternate⟩)

/-! ## `efi_find_partitions` -/

namespace GptEntry

def partitionTypeGuid (ptes : Bytes) (i : Nat) : EfiGuid := ptes.guid (128 * i)
def startingLba (ptes : Bytes) (i : Nat) : UInt64 := ptes.le64 (128 * i + 32)
def endingLba (ptes : Bytes) (i : Nat) : UInt64 := ptes.le64 (128 * i + 40)

end GptEntry

/-- `is_pte_valid (&ptes[i], lastlba)` -/
def isPteValid (E : EfiH) (ptes : Bytes) (i : Nat) (lastlba : UInt64) : Bool :=
  if E.efiGuidcmp (GptEntry.partitionTypeGuid ptes i) E.nullGuid = 0 ||
      GptEntry.startingLba ptes i > lastlba || GptEntry.endingLba ptes i > lastlba then false
  else true

/-- The partition that entry `i` describes. -/
def pteExtent (ptes : Bytes) (i : Nat) : Partition where
  start := GptEntry.startingLba ptes i
  size := GptEntry.endingLba ptes i - GptEntry.startingLba ptes i + 1

/-- C's `!n`. -/
def cNot (n : Int) : Int := if n = 0 then 1 else 0

/-- `*num`, and the stores through `partitions`, in order. -/
structure FindLoop where
  num : Nat
  stores : List (Nat × Partition)

/-- `for (i = ..; i < num_partition_entries; i++)`, with `rem` entries to go. -/
def efiFindLoop (E : EfiH) (lastlba : UInt64) (ptes : Bytes) (n : Int) :
    Nat → Nat → FindLoop → FindLoop
  | 0, _, s => s
  | rem + 1, i, s =>
    if !isPteValid E ptes i lastlba then efiFindLoop E lastlba ptes n rem (i + 1) s
    else
      let s : FindLoop := ⟨s.num + 1, s.stores ++ [(s.num, pteExtent ptes i)]⟩
      if cNot n = s.num then s else efiFindLoop E lastlba ptes n rem (i + 1) s

/-- What `efi_find_partitions` returns and stores. -/
structure FindResult where
  ret : Int
  num : Nat
  stores : List (Nat × Partition)

/-- `efi_find_partitions (partitions, num)` with `*num = n`, and the static buffers. -/
def efiFindPartitions (E : EfiH) (d : Device) (m : GptStatics) (n : Int) :
    FindResult × GptStatics :=
  match findValidGpt d m with
  | (none, m) => (⟨-1, 0, []⟩, m)
  | (some b, m) =>
    let s := efiFindLoop E d.diskLastSector b.ptes n b.gpt.numPartitionEntries.toNat 0 ⟨0, []⟩
    (⟨0, s.num, s.stores⟩, m)

/-! ## What the walk over the entries stores -/

/-- The valid entries among the first `count`, in table order. -/
def validPtes (E : EfiH) (lastlba : UInt64) (ptes : Bytes) (count : Nat) : List Nat :=
  (List.range count).filter fun i => isPteValid E ptes i lastlba

theorem mem_validPtes {E : EfiH} {lastlba : UInt64} {ptes : Bytes} {count i : Nat} :
    i ∈ validPtes E lastlba ptes count ↔ i < count ∧ isPteValid E ptes i lastlba = true := by
  simp [validPtes]

/-- The valid entries from `i` on, as the loop meets them. -/
def validFrom (E : EfiH) (lastlba : UInt64) (ptes : Bytes) (i rem : Nat) : List Nat :=
  (List.range' i rem).filter fun j => isPteValid E ptes j lastlba

theorem validFrom_succ_of_not {E : EfiH} {lastlba : UInt64} {ptes : Bytes} {i rem : Nat}
    (h : isPteValid E ptes i lastlba = false) :
    validFrom E lastlba ptes i (rem + 1) = validFrom E lastlba ptes (i + 1) rem := by
  simp [validFrom, List.range'_succ, h]

theorem validFrom_succ_of {E : EfiH} {lastlba : UInt64} {ptes : Bytes} {i rem : Nat}
    (h : isPteValid E ptes i lastlba = true) :
    validFrom E lastlba ptes i (rem + 1) = i :: validFrom E lastlba ptes (i + 1) rem := by
  simp [validFrom, List.range'_succ, h]

theorem validFrom_zero (E : EfiH) (lastlba : UInt64) (ptes : Bytes) (count : Nat) :
    validFrom E lastlba ptes 0 count = validPtes E lastlba ptes count := by
  rw [validFrom, validPtes, List.range_eq_range']

/-- Number consecutive stores from `k` on. -/
def numberedFrom (ptes : Bytes) (k : Nat) (is : List Nat) : List (Nat × Partition) :=
  (is.zipIdx k).map fun p => (p.2, pteExtent ptes p.1)

@[simp] theorem numberedFrom_nil (ptes : Bytes) (k : Nat) : numberedFrom ptes k [] = [] := rfl

theorem numberedFrom_cons (ptes : Bytes) (k i : Nat) (is : List Nat) :
    numberedFrom ptes k (i :: is) = (k, pteExtent ptes i) :: numberedFrom ptes (k + 1) is := by
  simp [numberedFrom]

/-- With a capacity other than 0 the stop test `!n == *num` never holds after a store, so the
loop stores every valid entry. -/
theorem efiFindLoop_of_ne_zero {E : EfiH} {lastlba : UInt64} {ptes : Bytes} {n : Int} (hn : n ≠ 0)
    (rem i : Nat) (s : FindLoop) :
    efiFindLoop E lastlba ptes n rem i s =
      ⟨s.num + (validFrom E lastlba ptes i rem).length,
        s.stores ++ numberedFrom ptes s.num (validFrom E lastlba ptes i rem)⟩ := by
  induction rem generalizing i s with
  | zero => simp [efiFindLoop, validFrom]
  | succ rem ih =>
    cases hv : isPteValid E ptes i lastlba with
    | false => simp [efiFindLoop, hv, ih, validFrom_succ_of_not hv]
    | true =>
      have hstop : ¬ cNot n = ((s.num + 1 : Nat) : Int) := by
        rw [cNot, if_neg hn]
        omega
      simp only [efiFindLoop, hv, Bool.not_true, Bool.false_eq_true, if_false, if_neg hstop, ih,
        validFrom_succ_of hv, numberedFrom_cons, List.length_cons, List.append_assoc,
        List.singleton_append]
      rw [Nat.add_assoc, Nat.add_comm 1]

/-- With capacity 0 the loop stops at the first valid entry, after storing it. -/
theorem efiFindLoop_zero {E : EfiH} {lastlba : UInt64} {ptes : Bytes} (rem i : Nat) :
    efiFindLoop E lastlba ptes 0 rem i ⟨0, []⟩ =
      ⟨min 1 (validFrom E lastlba ptes i rem).length,
        numberedFrom ptes 0 ((validFrom E lastlba ptes i rem).take 1)⟩ := by
  induction rem generalizing i with
  | zero => simp [efiFindLoop, validFrom]
  | succ rem ih =>
    cases hv : isPteValid E ptes i lastlba with
    | false => simp [efiFindLoop, hv, ih, validFrom_succ_of_not hv]
    | true => simp [efiFindLoop, hv, validFrom_succ_of hv, cNot, numberedFrom]

theorem efiFindPartitions_none {E : EfiH} {d : Device} {m : GptStatics} {n : Int}
    (h : (findValidGpt d m).1 = none) : (efiFindPartitions E d m n).1 = ⟨-1, 0, []⟩ := by
  rw [efiFindPartitions, show findValidGpt d m = (none, (findValidGpt d m).2) from Prod.ext h rfl]

theorem efiFindPartitions_some {E : EfiH} {d : Device} {m : GptStatics} {n : Int} {b : GptBuf}
    (h : (findValidGpt d m).1 = some b) :
    (efiFindPartitions E d m n).1 =
      let s := efiFindLoop E d.diskLastSector b.ptes n b.gpt.numPartitionEntries.toNat 0 ⟨0, []⟩
      ⟨0, s.num, s.stores⟩ := by
  rw [efiFindPartitions, show findValidGpt d m = (some b, (findValidGpt d m).2) from Prod.ext h rfl]

/-- The stores are numbered from 0 without gaps, and `*num` is their number. -/
theorem efiFindLoop_stores {E : EfiH} {lastlba : UInt64} {ptes : Bytes} (n : Int) (count : Nat) :
    ∃ is : List Nat, is <+: validPtes E lastlba ptes count ∧
      efiFindLoop E lastlba ptes n count 0 ⟨0, []⟩ = ⟨is.length, numberedFrom ptes 0 is⟩ := by
  by_cases hn : n = 0
  · subst hn
    refine ⟨(validPtes E lastlba ptes count).take 1, List.take_prefix _ _, ?_⟩
    rw [efiFindLoop_zero, validFrom_zero, List.length_take]
  · refine ⟨validPtes E lastlba ptes count, List.prefix_rfl, ?_⟩
    rw [efiFindLoop_of_ne_zero hn, validFrom_zero]
    simp

end MbBootTv
