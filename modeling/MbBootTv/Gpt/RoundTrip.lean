import MbBootTv.Gpt.Layout

/-!
# Reading undoes writing

A `GptTable` is a table as a partitioning tool means it: 128-byte entries, some of them unused
(their type is the null GUID), the used ones within the disk. `efi_find_partitions` on a disk
that holds it gives back exactly the used entries, in table order.
-/

namespace MbBootTv

/-- The partition that a 128-byte entry describes. -/
def entryExtent (e : Bytes) : Partition where
  start := e.le64 32
  size := e.le64 40 - e.le64 32 + 1

/-- Entry `i`, or zeros past the end. -/
def entryAt (es : List Bytes) (i : Nat) : Bytes := es[i]?.getD fun _ => 0

theorem entryAt_of_lt {es : List Bytes} {i : Nat} (hi : i < es.length) : entryAt es i = es[i] := by
  simp [entryAt, hi]

theorem entryAt_mem {es : List Bytes} {i : Nat} (hi : i < es.length) : entryAt es i ∈ es := by
  rw [entryAt_of_lt hi]
  exact List.getElem_mem hi

/-- The array of the entries, one after the other. -/
def packEntries (es : List Bytes) : Bytes := fun j => entryAt es (j / 128) (j % 128)

/-- A partition table for a disk whose last sector is `last`. -/
structure GptTable (E : EfiH) (last : UInt64) where
  entries : List Bytes
  entries_ne : entries ≠ []
  entries_le : entries.length ≤ maxPtes
  inside : ∀ e ∈ entries, e.guid 0 ≠ E.nullGuid → e.le64 32 ≤ last ∧ e.le64 40 ≤ last
  headerSize : UInt32
  headerSize_ge : 92 ≤ headerSize
  headerSize_le : headerSize ≤ 512
  alternateLba : UInt64
  firstUsableLba : UInt64
  first_le : firstUsableLba ≤ last
  lastUsableLba : UInt64
  last_le : lastUsableLba ≤ last
  partitionEntryLba : UInt64
  rest : Bytes

namespace GptTable

variable {E : EfiH} {last : UInt64}

/-- The used entries, in table order. -/
def used (t : GptTable E last) : List Bytes := t.entries.filter fun e => e.guid 0 ≠ E.nullGuid

/-- The table as it is written. -/
def image (t : GptTable E last) : GptImage where
  headerSize := t.headerSize
  alternateLba := t.alternateLba
  firstUsableLba := t.firstUsableLba
  lastUsableLba := t.lastUsableLba
  partitionEntryLba := t.partitionEntryLba
  numPartitionEntries := UInt32.ofNat t.entries.length
  sizeofPartitionEntry := 128
  array := packEntries t.entries
  rest := t.rest

theorem toNat_numPartitionEntries (t : GptTable E last) :
    t.image.numPartitionEntries.toNat = t.entries.length := by
  have := t.entries_le
  simp only [maxPtes] at this
  exact UInt32.toNat_ofNat_of_lt' (by rw [UInt32.size]; omega)

theorem toNat_arraySize (t : GptTable E last) :
    t.image.arraySize.toNat = 128 * t.entries.length := by
  have := t.entries_le
  simp only [maxPtes] at this
  rw [GptImage.arraySize, UInt32.toNat_mul, toNat_numPartitionEntries]
  show t.entries.length * 128 % 2 ^ 32 = _
  omega

theorem bounded (t : GptTable E last) : t.image.Bounded last := by
  have hle := t.entries_le
  have hpos := List.length_pos_iff.mpr t.entries_ne
  simp only [maxPtes] at hle
  refine ⟨t.headerSize_le, fun h => ?_, ?_, t.first_le, t.last_le⟩
  · have := t.toNat_arraySize
    rw [h] at this
    simp only [UInt32.toNat_zero] at this
    omega
  · rw [UInt32.le_iff_toNat_le, toNat_arraySize]
    show _ ≤ 131072
    omega

end GptTable

/-! ## Entries of a packed array -/

theorem packEntries_entry {es : List Bytes} {i j : Nat} (hj : j < 128) :
    packEntries es (128 * i + j) = entryAt es i j := by
  rw [packEntries, show (128 * i + j) / 128 = i by omega, show (128 * i + j) % 128 = j by omega]

section Loaded

variable {ptes : Bytes} {es : List Bytes}
  (h : ∀ j < 128 * es.length, ptes j = packEntries es j) {i : Nat} (hi : i < es.length)

include h hi

theorem ptes_le64 {pos : Nat} (hpos : pos + 8 ≤ 128) :
    ptes.le64 (128 * i + pos) = (entryAt es i).le64 pos :=
  Bytes.le64_congr fun k hk => by
    rw [Nat.add_assoc, h _ (by omega), packEntries_entry (by omega)]

theorem ptes_guid : ptes.guid (128 * i) = (entryAt es i).guid 0 := by
  apply Vector.ext
  intro k hk
  simp only [Bytes.guid, Vector.getElem_ofFn, Nat.zero_add]
  rw [h _ (by omega), packEntries_entry (by omega)]

theorem pteExtent_eq : pteExtent ptes i = entryExtent (entryAt es i) := by
  simp only [pteExtent, entryExtent, GptEntry.startingLba, GptEntry.endingLba,
    ptes_le64 h hi (by decide : 32 + 8 ≤ 128), ptes_le64 h hi (by decide : 40 + 8 ≤ 128)]

/-- `is_pte_valid` holds exactly on the used entries, once those are within the disk. -/
theorem isPteValid_eq {E : EfiH} (hE : E.Lawful) {last : UInt64}
    (hin : ∀ e ∈ es, e.guid 0 ≠ E.nullGuid → e.le64 32 ≤ last ∧ e.le64 40 ≤ last) :
    isPteValid E ptes i last = decide ((entryAt es i).guid 0 ≠ E.nullGuid) := by
  simp only [isPteValid, GptEntry.partitionTypeGuid, GptEntry.startingLba, GptEntry.endingLba,
    ptes_guid h hi, ptes_le64 h hi (by decide : 32 + 8 ≤ 128),
    ptes_le64 h hi (by decide : 40 + 8 ≤ 128), hE _ _]
  by_cases hnull : (entryAt es i).guid 0 = E.nullGuid
  · simp [hnull]
  · obtain ⟨hs, he⟩ := hin _ (entryAt_mem hi) hnull
    simp [hnull, UInt64.not_lt.mpr hs, UInt64.not_lt.mpr he]

end Loaded

theorem map_entryAt_range (es : List Bytes) : (List.range es.length).map (entryAt es) = es :=
  List.ext_getElem (by simp) fun i _ h => by simp [entryAt_of_lt h]

theorem validPtes_packed {E : EfiH} (hE : E.Lawful) {last : UInt64} {ptes : Bytes}
    {es : List Bytes} (h : ∀ j < 128 * es.length, ptes j = packEntries es j)
    (hin : ∀ e ∈ es, e.guid 0 ≠ E.nullGuid → e.le64 32 ≤ last ∧ e.le64 40 ≤ last) :
    (validPtes E last ptes es.length).map (pteExtent ptes) =
      (es.filter fun e => e.guid 0 ≠ E.nullGuid).map entryExtent := by
  have hvalid : validPtes E last ptes es.length =
      (List.range es.length).filter fun i =>
        decide ((entryAt es i).guid 0 ≠ E.nullGuid) :=
    List.filter_congr fun i hi => isPteValid_eq h (List.mem_range.mp hi) hE hin
  have hextent : ((List.range es.length).filter fun i =>
        decide ((entryAt es i).guid 0 ≠ E.nullGuid)).map (pteExtent ptes) =
      ((List.range es.length).filter fun i =>
        decide ((entryAt es i).guid 0 ≠ E.nullGuid)).map fun i => entryExtent (entryAt es i) :=
    List.map_congr_left fun i hi =>
      pteExtent_eq h (List.mem_range.mp (List.mem_filter.mp hi).1)
  rw [hvalid, hextent]
  conv_rhs => rw [← map_entryAt_range es]
  rw [List.filter_map, List.map_map]
  rfl

/-! ## The round trip -/

theorem numberedFrom_eq (ptes : Bytes) (k : Nat) (is : List Nat) :
    numberedFrom ptes k is = ((is.map (pteExtent ptes)).zipIdx k).map Prod.swap := by
  induction is generalizing k with
  | nil => rfl
  | cons i is ih => rw [numberedFrom_cons, ih]; rfl

/-- What `find_valid_gpt` leaves for the walk over the entries of a written table. -/
theorem findValidGpt_written {E : EfiH} (hE : E.Lawful) {d : Device}
    (t : GptTable E d.diskLastSector) (hm : HoldsPmbr d)
    (h : t.image.Holds d gptPrimaryPartitionTableLba) (m : GptStatics) :
    ∃ b, (findValidGpt d m).1 = some b ∧ b.gpt.numPartitionEntries.toNat = t.entries.length ∧
      (validPtes E d.diskLastSector b.ptes t.entries.length).map (pteExtent b.ptes) =
        t.used.map entryExtent := by
  obtain ⟨b, hb, hnum, hptes⟩ := findValidGpt_of_holds hm h t.bounded m
  have hpacked : ∀ j < 128 * t.entries.length, b.ptes j = packEntries t.entries j :=
    fun j hj => hptes j (by rw [t.toNat_arraySize]; exact hj)
  exact ⟨b, hb, by rw [hnum, t.toNat_numPartitionEntries], validPtes_packed hE hpacked t.inside⟩

/-- The walk over a table with at most `n` valid entries stores them all. -/
theorem efiFindPartitions_of_valid {E : EfiH} {d : Device} {m : GptStatics} {n : Int} {b : GptBuf}
    {ps : List Partition} (hb : (findValidGpt d m).1 = some b)
    (hvalid : (validPtes E d.diskLastSector b.ptes b.gpt.numPartitionEntries.toNat).map
      (pteExtent b.ptes) = ps) (hn : (ps.length : Int) ≤ n) :
    (efiFindPartitions E d m n).1 = ⟨0, ps.length, ps.zipIdx.map Prod.swap⟩ := by
  have hlen : (validPtes E d.diskLastSector b.ptes b.gpt.numPartitionEntries.toNat).length =
      ps.length := by
    simpa using congrArg List.length hvalid
  rw [efiFindPartitions_some hb]
  -- With capacity 0 there is nothing to store.
  by_cases hn0 : n = 0
  · subst hn0
    obtain rfl : ps = [] := List.length_eq_zero_iff.mp (by omega)
    rw [efiFindLoop_zero, validFrom_zero, List.length_eq_zero_iff.mp hlen]
    rfl
  · rw [efiFindLoop_of_ne_zero hn0, validFrom_zero, hlen]
    simp only [numberedFrom_eq, hvalid, Nat.zero_add, List.nil_append]

/-- **Reading undoes writing.** On a disk that holds a protective MBR and the table,
`efi_find_partitions` returns 0 and stores the used entries, in order from element 0 on, when
they fit the capacity. -/
theorem efiFindPartitions_written {E : EfiH} (hE : E.Lawful) {d : Device}
    (t : GptTable E d.diskLastSector) (hm : HoldsPmbr d)
    (h : t.image.Holds d gptPrimaryPartitionTableLba) (m : GptStatics) {n : Int}
    (hn : (t.used.length : Int) ≤ n) :
    (efiFindPartitions E d m n).1 =
      { ret := 0
        num := t.used.length
        stores := (t.used.map entryExtent).zipIdx.map Prod.swap } := by
  obtain ⟨b, hb, hnum, hvalid⟩ := findValidGpt_written hE t hm h m
  rw [← hnum] at hvalid
  have hlen : (t.used.map entryExtent).length = t.used.length := List.length_map _
  rw [efiFindPartitions_of_valid hb hvalid (by rw [hlen]; exact hn), hlen]

/-! ## Tables of a kind -/

/-- `efi.h` as it is usually written: the comparison of two GUIDs byte by byte, and zeros. -/
def efiHeader : EfiH where
  efiGuidcmp a b := if a = b then 0 else 1
  nullGuid := Vector.replicate 16 0

theorem lawful_efiHeader : efiHeader.Lawful := fun a b => by
  simp [efiHeader]

/-- A used entry from `s` to `e`; only the first byte of its type GUID is set. -/
def usedEntry (s e : UInt64) : Bytes :=
  Bytes.putLe (Bytes.putLe (fun j => if j = 0 then 1 else 0) 32 8 s.toNat) 40 8 e.toNat

theorem guid_usedEntry (s e : UInt64) : (usedEntry s e).guid 0 ≠ efiHeader.nullGuid := by
  intro h
  have h0 : ((usedEntry s e).guid 0)[0] = efiHeader.nullGuid[0] := by rw [h]
  simp [usedEntry, Bytes.guid, Bytes.putLe, efiHeader] at h0

theorem le64_usedEntry (s e : UInt64) :
    (usedEntry s e).le64 32 = s ∧ (usedEntry s e).le64 40 = e :=
  ⟨by rw [usedEntry, Bytes.le64_putLe_of_disjoint (by omega), Bytes.le64_putLe],
    Bytes.le64_putLe _ _ _⟩

/-- The table of used entries with the given extents, for a disk of 64 sectors. -/
def tableOf (extents : List (UInt64 × UInt64)) (hne : extents ≠ [])
    (hle : extents.length ≤ maxPtes) (hin : ∀ x ∈ extents, x.1 ≤ 63 ∧ x.2 ≤ 63) :
    GptTable efiHeader 63 where
  entries := extents.map fun x => usedEntry x.1 x.2
  entries_ne := by simpa using hne
  entries_le := by simpa using hle
  inside e he _ := by
    obtain ⟨x, hx, rfl⟩ := List.mem_map.mp he
    rw [(le64_usedEntry x.1 x.2).1, (le64_usedEntry x.1 x.2).2]
    exact hin x hx
  headerSize := 92
  headerSize_ge := by decide
  headerSize_le := by decide
  alternateLba := 63
  firstUsableLba := 34
  first_le := by decide
  lastUsableLba := 62
  last_le := by decide
  partitionEntryLba := 2
  rest := fun _ => 0

section TableOf

variable {extents : List (UInt64 × UInt64)} {hne : extents ≠ []}
  {hle : extents.length ≤ maxPtes} {hin : ∀ x ∈ extents, x.1 ≤ 63 ∧ x.2 ≤ 63}

theorem used_tableOf : (tableOf extents hne hle hin).used =
    extents.map fun x => usedEntry x.1 x.2 := by
  refine List.filter_eq_self.mpr fun e he => ?_
  obtain ⟨x, -, rfl⟩ := List.mem_map.mp he
  exact decide_eq_true (guid_usedEntry x.1 x.2)

theorem map_entryExtent_tableOf : (tableOf extents hne hle hin).used.map entryExtent =
    extents.map fun x => ⟨x.1, x.2 - x.1 + 1⟩ := by
  rw [used_tableOf, List.map_map]
  refine List.map_congr_left fun x _ => ?_
  simp [entryExtent, le64_usedEntry]

theorem holds_tableOf (hlen : extents.length ≤ 240) :
    (tableOf extents hne hle hin).image.Holds ((tableOf extents hne hle hin).image.disk 64)
      gptPrimaryPartitionTableLba := by
  have hsize := (tableOf extents hne hle hin).toNat_arraySize
  have hlen' : (tableOf extents hne hle hin).entries.length = extents.length := List.length_map _
  have h2 : (tableOf extents hne hle hin).image.partitionEntryLba.toNat = 2 := rfl
  refine GptImage.holds_disk (by omega) ?_
  show _ < 64
  rw [sectorsFor, hsize, hlen', h2]
  omega

end TableOf

/-- Static buffers before their first use. -/
def zeroStatics : GptStatics := ⟨⟨fun _ => 0, fun _ => 0⟩, ⟨fun _ => 0, fun _ => 0⟩⟩

/-- Two partitions. -/
def twoPartitions : GptTable efiHeader 63 :=
  tableOf [(40, 47), (50, 50)] (by decide) (by decide) (by simp)

theorem efiFindPartitions_written_two :
    (efiFindPartitions efiHeader (twoPartitions.image.disk 64) zeroStatics 16).1 =
      ⟨0, 2, [(0, ⟨40, 8⟩), (1, ⟨50, 1⟩)]⟩ := by
  have hlen : twoPartitions.used.length = 2 := by
    rw [twoPartitions, used_tableOf]
    rfl
  have hmap : twoPartitions.used.map entryExtent = [⟨40, 8⟩, ⟨50, 1⟩] := by
    rw [twoPartitions, map_entryExtent_tableOf]
    rfl
  have hn : (twoPartitions.used.length : Int) ≤ 16 := by
    rw [hlen]
    decide
  refine (efiFindPartitions_written lawful_efiHeader (d := twoPartitions.image.disk 64)
    twoPartitions (GptImage.holdsPmbr_disk _ _) (holds_tableOf (by decide)) zeroStatics hn).trans ?_
  show FindResult.mk 0 twoPartitions.used.length
    ((twoPartitions.used.map entryExtent).zipIdx.map Prod.swap) = _
  rw [hlen, hmap]
  rfl

end MbBootTv
