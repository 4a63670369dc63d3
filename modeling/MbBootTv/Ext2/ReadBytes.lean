import MbBootTv.Ext2.Medium
import MbBootTv.Ext2.Mount

/-!
# Bytes of the partition

`read_bytes` computes the number of sectors from the size alone, and adds the distance from the
first sector's start afterwards. So the bytes that are asked for may end in a sector that was not
fetched. `readsExactly_iff` says when they do not.
-/

namespace MbBootTv

/-- The `size` bytes at `offset` lie in the sectors that `read_bytes` fetches for them. -/
def Within (offset size : UInt32) : Prop :=
  offset.toNat % 512 + size.toNat ≤ 512 * ((size + 512 - 1) / 512).toNat

instance (offset size : UInt32) : Decidable (Within offset size) :=
  inferInstanceAs (Decidable (_ ≤ _))

/-- The sector with byte `j` of the partition. -/
def Partition.lbaOf (p : Partition) (j : Nat) : UInt64 := p.start + UInt64.ofNat (j / 512)

/-- Byte `j` of the partition, when its sector can be read. -/
def partByte (env : Env) (j : Nat) : Option UInt8 :=
  (env.dev.diskRead (env.part.lbaOf j)).map fun c => c (j % 512)

/-- Byte `j` is in the partition and can be read. -/
def Env.HasByte (env : Env) (j : Nat) : Prop :=
  j / 512 < env.part.size.toNat ∧ (env.dev.diskRead (env.part.lbaOf j)).isSome

/-- The surroundings with something else on the heap. -/
def Env.withHeap (env : Env) (heap : Bytes) : Env := { env with heap := heap }

/-- What `read_bytes` is for, whatever stands on the heap: bytes that lie inside the partition and
can be read are stored, and it returns -1 when the sector of one of them cannot be read or lies
outside. -/
def ReadsExactly (env : Env) (offset size : UInt32) : Prop :=
  (offset.toNat + size.toNat ≤ 512 * env.part.size.toNat →
      (∀ j < size.toNat, env.HasByte (offset.toNat + j)) → ∀ heap b, ∃ data b',
        readBytes (env.withHeap heap) b offset size = (some data, b') ∧
          ∀ j < size.toNat, some (data j) = partByte env (offset.toNat + j)) ∧
    ((∃ j < size.toNat, ¬ env.HasByte (offset.toNat + j)) →
      ∀ heap b, (readBytes (env.withHeap heap) b offset size).1 = none)

/-- The number of sectors that are fetched for `size` bytes. -/
def sectorCount (size : UInt32) : Nat := ((size + 512 - 1) / 512).toNat

/-- They lie in the partition and can be read. -/
def Env.CanFetch (env : Env) (offset size : UInt32) : Prop :=
  offset.toNat / 512 + sectorCount size ≤ env.part.size.toNat ∧
    ∀ i < sectorCount size,
      (env.dev.diskRead (env.part.start + UInt64.ofNat (offset.toNat / 512 + i))).isSome

section Sectors

variable {env : Env} {offset size : UInt32}

theorem sectorCount_lt (size : UInt32) : sectorCount size < 2 ^ 23 := by
  have := (size + 512 - 1).toNat_lt
  unfold sectorCount
  rw [UInt32.toNat_div]
  exact Nat.div_lt_of_lt_mul (by simpa using this)

/-- The sectors that are fetched are not more than the size needs. -/
theorem mul_sectorCount_le (size : UInt32) : 512 * sectorCount size ≤ size.toNat + 511 := by
  have hround : (size + 512 - 1).toNat ≤ size.toNat + 511 := by
    rw [UInt32.toNat_sub, UInt32.toNat_add]
    simp
    omega
  unfold sectorCount
  rw [UInt32.toNat_div]
  show 512 * ((size + 512 - 1).toNat / 512) ≤ _
  omega

theorem within_iff :
    Within offset size ↔ offset.toNat % 512 + size.toNat ≤ 512 * sectorCount size := Iff.rfl

theorem ofNat_add_sector (start : UInt64) (i : Nat) :
    (offset / 512).toUInt64 + start + UInt64.ofNat i =
      start + UInt64.ofNat (offset.toNat / 512 + i) := by
  have hbase : (offset / 512).toUInt64 = UInt64.ofNat (offset.toNat / 512) := by
    rw [← UInt64.toNat_inj, UInt32.toNat_toUInt64, UInt32.toNat_div, UInt64.toNat_ofNat',
      Nat.mod_eq_of_lt]
    · rfl
    · have := offset.toNat_lt
      omega
  rw [hbase, UInt64.ofNat_add, UInt64.add_comm _ start, UInt64.add_assoc]

theorem fetchAt_ok_iff_canFetch :
    (fetchAt env offset size).ok = true ↔ env.CanFetch offset size := by
  rw [fetchAt_ok_iff ((sectorCount_lt size).trans (by decide))]
  have hfits : (fetchAt env offset size).base + (fetchAt env offset size).count ≤ env.part.size ↔
      offset.toNat / 512 + sectorCount size ≤ env.part.size.toNat := by
    have hbase : (offset / 512).toNat = offset.toNat / 512 := UInt32.toNat_div _ _
    have hlt := offset.toNat_lt
    have hcount := sectorCount_lt size
    show (offset / 512).toUInt64 + ((size + 512 - 1) / 512).toUInt64 ≤ _ ↔ _
    rw [UInt64.le_iff_toNat_le, UInt64.toNat_add, UInt32.toNat_toUInt64, UInt32.toNat_toUInt64,
      hbase, Nat.mod_eq_of_lt]
    · rfl
    · show offset.toNat / 512 + sectorCount size < _
      omega
  refine and_congr hfits (forall₂_congr fun i _ => ?_)
  show (env.dev.diskRead ((offset / 512).toUInt64 + env.part.start + UInt64.ofNat i)).isSome ↔ _
  rw [ofNat_add_sector]

/-- Whether the sectors can be fetched does not depend on the heap. -/
theorem canFetch_withHeap {heap : Bytes} :
    (env.withHeap heap).CanFetch offset size ↔ env.CanFetch offset size := Iff.rfl

/-- Byte `j` of a request is in its sector `(offset % 512 + j) / 512`. -/
theorem request_div (j : Nat) : (offset.toNat + j) / 512 =
    offset.toNat / 512 + (offset.toNat % 512 + j) / 512 := by omega

theorem request_mod (j : Nat) : (offset.toNat + j) % 512 = (offset.toNat % 512 + j) % 512 := by
  omega

/-- Every sector that is fetched holds a byte that is asked for. -/
theorem canFetch_of_hasByte (h0 : size ≠ 0)
    (h : ∀ j < size.toNat, env.HasByte (offset.toNat + j)) : env.CanFetch offset size := by
  have hpos : 0 < size.toNat := Nat.pos_of_ne_zero fun h => h0 (UInt32.toNat_inj.mp h)
  have hcount := mul_sectorCount_le size
  have hsector : ∀ i < sectorCount size, offset.toNat / 512 + i < env.part.size.toNat ∧
      (env.dev.diskRead (env.part.start + UInt64.ofNat (offset.toNat / 512 + i))).isSome := by
    intro i hi
    have hlt : 512 * i - offset.toNat % 512 < size.toNat := by omega
    obtain ⟨hin, hread⟩ := h _ hlt
    have hdiv : (offset.toNat + (512 * i - offset.toNat % 512)) / 512 =
        offset.toNat / 512 + i := by omega
    unfold Partition.lbaOf at hread
    rw [hdiv] at hin hread
    exact ⟨hin, hread⟩
  refine ⟨?_, fun i hi => (hsector i hi).2⟩
  cases hn : sectorCount size with
  | zero =>
    have := (h 0 hpos).1
    omega
  | succ n =>
    have := (hsector n (by omega)).1
    omega

/-- Within the fetched sectors, every byte that is asked for is there. -/
theorem hasByte_of_canFetch (hw : Within offset size) (h : env.CanFetch offset size) :
    ∀ j < size.toNat, env.HasByte (offset.toNat + j) := by
  intro j hj
  have hin : (offset.toNat % 512 + j) / 512 < sectorCount size :=
    Nat.div_lt_of_lt_mul ((Nat.add_lt_add_left hj _).trans_le (within_iff.mp hw))
  unfold Env.HasByte Partition.lbaOf
  rw [request_div]
  exact ⟨(Nat.add_lt_add_left hin _).trans_le h.1, h.2 _ hin⟩

/-- Blocks start at sectors. -/
theorem toNat_mul_blocksize_mod {m : Mount} (hbs : m.blocksize.toNat % 512 = 0) (n : UInt32) :
    (n * m.blocksize).toNat % 512 = 0 := by
  have hmul : n.toNat * m.blocksize.toNat % 512 = 0 := by rw [Nat.mul_mod, hbs, Nat.mul_zero]
  rw [UInt32.toNat_mul]
  omega

/-! ## What is stored -/

/-- `read_bytes` returns 0 when its sectors can be fetched. -/
theorem readBytes_fst_eq_none_iff (hmem : env.blMalloc ((size + 512 - 1) / 512 * 512) = true)
    (b : Bufs) :
    (readBytes env b offset size).1 = none ↔ ¬ env.CanFetch offset size := by
  rw [← fetchAt_ok_iff_canFetch, ← Option.map_eq_none_iff (f := (Bytes.clip · size.toNat)),
    (readBytes_eq env b offset size).2]
  unfold bytesAt
  simp only [hmem, Bool.true_and]
  by_cases hok : (fetchAt env offset size).ok = true
  · rw [if_pos hok]
    exact iff_of_false (Option.some_ne_none _) (not_not.mpr hok)
  · rw [if_neg hok]
    exact iff_of_true rfl hok

/-- The temporary buffer: the sectors, and behind them what stood on the heap. -/
theorem readBytes_data (hmem : env.blMalloc ((size + 512 - 1) / 512 * 512) = true)
    (hfetch : env.CanFetch offset size) (b : Bufs) : ∃ data, readBytes env b offset size = (some data, b.fetch env offset size) ∧
      ∀ j, data j = if offset.toNat % 512 + j < 512 * sectorCount size then
          (partByte env (offset.toNat + j)).getD 0 else env.heap (offset.toNat % 512 + j) := by
  have hok := fetchAt_ok_iff_canFetch.mpr hfetch
  have hread : readBytes env b offset size = (some fun i => (partitionRead env.dev env.part env.heap
      (offset / 512).toUInt64 ((size + 512 - 1) / 512).toUInt64).buf
        ((offset.toUInt64 - (offset / 512).toUInt64 * 512).toNat + i),
      b.fetch env offset size) := by
    refine Prod.ext ?_ (readBytes_eq env b offset size).1
    have hret : decide (UInt32.ofInt (partitionRead env.dev env.part env.heap
        (offset / 512).toUInt64 ((size + 512 - 1) / 512).toUInt64).ret =
          (size + 512 - 1) / 512) = true := hok
    unfold readBytes
    simp only [hmem, hret, Bool.not_true, Bool.false_eq_true, if_false]
  refine ⟨_, hread, fun j => ?_⟩
  have hfits : ¬ (offset / 512).toUInt64 + ((size + 512 - 1) / 512).toUInt64 > env.part.size :=
    UInt64.not_lt.mpr ((fetchAt_ok_iff ((sectorCount_lt size).trans (by decide))).mp hok).1
  have hcount : ((size + 512 - 1) / 512).toUInt64.toNat = sectorCount size :=
    UInt32.toNat_toUInt64 _
  rw [toNat_sub_base, partitionRead_accepted hfits, hcount]
  dsimp only
  rw [partitionReadLoop_buf _ _ _
    (fun i => (env.dev.diskRead (env.part.start + UInt64.ofNat (offset.toNat / 512 + i))).getD
      fun _ => 0) (fun i hi => ?_)]
  · rw [Nat.mul_zero, Nat.zero_add, Nat.sub_zero]
    simp only [Nat.zero_le, true_and]
    refine if_congr Iff.rfl ?_ rfl
    unfold partByte Partition.lbaOf
    rw [request_div, request_mod]
    cases env.dev.diskRead (env.part.start + UInt64.ofNat (offset.toNat / 512 +
      (offset.toNat % 512 + j) / 512)) <;> rfl
  · obtain ⟨c, hc⟩ := Option.isSome_iff_exists.mp (hfetch.2 i hi)
    rw [ofNat_add_sector, hc]
    rfl

/-- **`read_bytes` does what it is for** exactly when nothing is asked for, or the bytes end within
the sectors that are fetched, or these cannot be fetched. -/
theorem readsExactly_iff (hmem : ∀ n, env.blMalloc n = true) :
    ReadsExactly env offset size ↔
      size = 0 ∨ Within offset size ∨ ¬ env.CanFetch offset size := by
  have hmem' (heap : Bytes) : ∀ n, (env.withHeap heap).blMalloc n = true := hmem
  constructor
  · intro hexact
    by_contra hnot
    rw [not_or, not_or, not_not] at hnot
    obtain ⟨h0, hw, hfetch⟩ := hnot
    have hpos : 0 < size.toNat := Nat.pos_of_ne_zero fun h => h0 (UInt32.toNat_inj.mp h)
    rw [within_iff, not_le] at hw
    by_cases hall : ∀ j < size.toNat, env.HasByte (offset.toNat + j)
    · have hinside : offset.toNat + size.toNat ≤ 512 * env.part.size.toNat := by
        have := (hall (size.toNat - 1) (by omega)).1
        omega
      -- The first byte behind the sectors is whatever stands on the heap.
      obtain ⟨j, hj, hbehind⟩ : ∃ j < size.toNat,
          512 * sectorCount size ≤ offset.toNat % 512 + j :=
        ⟨512 * sectorCount size - offset.toNat % 512, by omega, by omega⟩
      have hstored (heap : Bytes) :
          some (heap (offset.toNat % 512 + j)) = partByte env (offset.toNat + j) := by
        obtain ⟨data, b', hread, hdata⟩ := hexact.1 hinside hall heap (emptyBufs [])
        obtain ⟨data', hread', hdata'⟩ := readBytes_data (hmem' heap _)
          (canFetch_withHeap.mpr hfetch) (emptyBufs [])
        rw [hread'] at hread
        cases hread
        rw [← hdata j hj, hdata' j, if_neg (not_lt.mpr hbehind)]
        rfl
      have := (hstored fun _ => 0).trans (hstored fun _ => 1).symm
      cases this
    · push Not at hall
      have hnone := hexact.2 hall env.heap (emptyBufs [])
      exact (readBytes_fst_eq_none_iff (hmem' env.heap _) _).mp hnone hfetch
  · intro hcond
    refine ⟨fun hinside hall heap b => ?_, fun hbad heap b => ?_⟩
    · by_cases h0 : size = 0
      · subst h0
        have hfetch : env.CanFetch offset 0 := by
          refine ⟨?_, fun i hi => absurd hi (Nat.not_lt_zero i)⟩
          show offset.toNat / 512 + 0 ≤ _
          have hinside : offset.toNat + 0 ≤ 512 * env.part.size.toNat := hinside
          omega
        obtain ⟨data, hread, -⟩ := readBytes_data (hmem' heap _) (canFetch_withHeap.mpr hfetch) b
        exact ⟨data, _, hread, fun j hj => absurd hj (Nat.not_lt_zero j)⟩
      · have hfetch := canFetch_of_hasByte h0 hall
        have hw := (hcond.resolve_left h0).resolve_right (not_not.mpr hfetch)
        obtain ⟨data, hread, hdata⟩ := readBytes_data (hmem' heap _)
          (canFetch_withHeap.mpr hfetch) b
        refine ⟨data, _, hread, fun j hj => ?_⟩
        have hin := (Nat.add_lt_add_left hj (offset.toNat % 512)).trans_le (within_iff.mp hw)
        obtain ⟨c, hc⟩ := Option.isSome_iff_exists.mp (hall j hj).2
        have hbyte : partByte (env.withHeap heap) (offset.toNat + j) =
            some (c ((offset.toNat + j) % 512)) := congrArg (Option.map _) hc
        have hbyte' : partByte env (offset.toNat + j) =
            some (c ((offset.toNat + j) % 512)) := congrArg (Option.map _) hc
        rw [hdata j, if_pos hin, hbyte, hbyte', Option.getD_some]
    · obtain ⟨j, hj, hbad⟩ := hbad
      refine (readBytes_fst_eq_none_iff (hmem' heap _) b).mpr fun hfetch => ?_
      rw [canFetch_withHeap] at hfetch
      rcases hcond with rfl | hw | hno
      · exact absurd hj (Nat.not_lt_zero j)
      · exact hbad (hasByte_of_canFetch hw hfetch j hj)
      · exact hno hfetch

end Sectors

/-- Two sectors, of which everything can be read. -/
def twoSectors : Env := wholeEnv ⟨0, 2⟩ fun _ => zeros

theorem readsExactly_iff_twoSectors : ReadsExactly twoSectors 512 128 :=
  (readsExactly_iff fun _ => rfl).mpr (.inr (.inl (by decide)))

/-- The fourth of a row of inodes of 160 bytes begins in the first of them and ends in the second,
which is not fetched. -/
theorem not_readsExactly_twoSectors :
    480 + 128 ≤ 512 * twoSectors.part.size.toNat ∧
      (∀ j < 128, twoSectors.HasByte (480 + j)) ∧ ¬ ReadsExactly twoSectors 480 128 := by
  refine ⟨by decide, fun j hj => ⟨?_, rfl⟩, fun h => ?_⟩
  · show (480 + j) / 512 < 2
    omega
  · rcases (readsExactly_iff fun _ => rfl).mp h with h | h | h
    · exact absurd h (by decide)
    · exact absurd h (by decide)
    · exact h ⟨by decide, fun _ _ => rfl⟩

end MbBootTv
