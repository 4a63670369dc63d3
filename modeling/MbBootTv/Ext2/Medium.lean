import MbBootTv.Ext2.Map

/-!
# One medium, many calls

From call to call the disk may refuse other sectors, but a sector that it delivers is the one on
the medium. So what a block read delivers does not depend on the call (`agrees_whole`), and the
blocks that can be read when nothing is refused are a truth that the caches can be coherent with.
-/

namespace MbBootTv

/-- The surroundings of a call on a medium, through one partition: a sector is refused or
delivered as it is, and memory can be had. -/
structure Env.On (part : Partition) (medium : UInt64 → Bytes) (env : Env) : Prop where
  part : env.part = part
  diskRead : ∀ l, env.dev.diskRead l = none ∨ env.dev.diskRead l = some (medium l)
  blMalloc : ∀ size, env.blMalloc size = true

/-- The surroundings that refuse nothing. -/
def wholeEnv (part : Partition) (medium : UInt64 → Bytes) : Env where
  dev := ⟨fun l => some (medium l), 0⟩
  part := part
  blMalloc := fun _ => true
  heap := fun _ => 0

theorem wholeEnv_on (part : Partition) (medium : UInt64 → Bytes) :
    (wholeEnv part medium).On part medium :=
  ⟨rfl, fun _ => Or.inr rfl, fun _ => rfl⟩

/-- `offset - (base << 9)`, where the bytes that are asked for start in the buffer. -/
theorem toNat_sub_base (offset : UInt32) :
    (offset.toUInt64 - (offset / 512).toUInt64 * 512).toNat = offset.toNat % 512 := by
  have := offset.toNat_lt
  rw [UInt64.toNat_sub, UInt64.toNat_mul, UInt32.toNat_toUInt64, UInt32.toNat_toUInt64,
    UInt32.toNat_div]
  simp
  omega

/-- What `partition_read` returns, as the word it is compared with. -/
theorem ofInt_partitionRead_ret {d : Device} {p : Partition} {buf : Bytes} {sector : UInt64}
    {count : UInt32} (hcount : count.toNat < 2 ^ 31) :
    UInt32.ofInt (partitionRead d p buf sector count.toUInt64).ret = count ↔
      (partitionRead d p buf sector count.toUInt64).ret = (count.toUInt64.toNat : Int) := by
  have hn : count.toUInt64.toNat = count.toNat := UInt32.toNat_toUInt64 _
  have hrange : (partitionRead d p buf sector count.toUInt64).ret = -1 ∨
      0 ≤ (partitionRead d p buf sector count.toUInt64).ret ∧
        (partitionRead d p buf sector count.toUInt64).ret < 2 ^ 31 := by
    by_cases h : sector + count.toUInt64 > p.size
    · exact Or.inl (by rw [partitionRead_refused h])
    · have hle := partitionReadLoop_red_le d count.toUInt64.toNat ⟨0, sector + p.start, buf, []⟩
      dsimp only at hle
      rw [partitionRead_accepted h, Int.bmod_eq_of_le (by omega) (by omega)]
      right
      dsimp only
      omega
  generalize (partitionRead d p buf sector count.toUInt64).ret = ret at hrange ⊢
  rw [hn, ← UInt32.toNat_inj, UInt32.ofInt, UInt32.toNat_ofNat']
  omega

/-- A fetch is complete exactly when it fits the partition and no sector of it is refused. -/
theorem fetchAt_ok_iff {env : Env} {offset size : UInt32}
    (hcount : ((size + 512 - 1) / 512).toNat < 2 ^ 31) :
    (fetchAt env offset size).ok = true ↔
      (fetchAt env offset size).base + (fetchAt env offset size).count ≤ env.part.size ∧
        ∀ i < ((size + 512 - 1) / 512).toNat, (env.dev.diskRead
          ((fetchAt env offset size).base + env.part.start + UInt64.ofNat i)).isSome := by
  unfold fetchAt
  simp only [decide_eq_true_iff]
  rw [ofInt_partitionRead_ret hcount,
    partitionRead_ret_eq_iff (by rw [UInt32.toNat_toUInt64]; exact hcount), UInt32.toNat_toUInt64]

/-- The sectors of a complete fetch stand in the buffer one after another. -/
theorem fetchAt_buf {part : Partition} {medium : UInt64 → Bytes} {env : Env}
    (hon : env.On part medium) {offset size : UInt32}
    (hcount : ((size + 512 - 1) / 512).toNat < 2 ^ 31) (hok : (fetchAt env offset size).ok = true)
    {j : Nat} (hj : j < 512 * ((size + 512 - 1) / 512).toNat) :
    (partitionRead env.dev env.part env.heap (fetchAt env offset size).base
      (fetchAt env offset size).count).buf j =
        medium ((fetchAt env offset size).base + part.start + UInt64.ofNat (j / 512))
          (j % 512) := by
  obtain ⟨hfit, hall⟩ := (fetchAt_ok_iff hcount).mp hok
  have hn : (fetchAt env offset size).count.toNat = ((size + 512 - 1) / 512).toNat :=
    UInt32.toNat_toUInt64 _
  rw [partitionRead_accepted (UInt64.not_lt.mpr hfit), hn]
  dsimp only
  rw [partitionReadLoop_buf _ _ _ (fun i => medium ((fetchAt env offset size).base + part.start +
    UInt64.ofNat i)) (fun i hi => ?_)]
  · rw [if_pos ⟨Nat.zero_le j, by omega⟩, Nat.mul_zero, Nat.sub_zero]
  · have hsome := hall i hi
    rcases hon.diskRead ((fetchAt env offset size).base + env.part.start + UInt64.ofNat i) with h | h
    · rw [h] at hsome
      cases hsome
    · rw [← hon.part]
      exact h

/-- Bytes that are read within the fetched sectors are those of the medium. -/
theorem bytesAt_whole {part : Partition} {medium : UInt64 → Bytes} {env : Env}
    (hon : env.On part medium) {offset size : UInt32} {c : Bytes}
    (hcount : ((size + 512 - 1) / 512).toNat < 2 ^ 31)
    (hin : (offset.toUInt64 - (offset / 512).toUInt64 * 512).toNat + size.toNat ≤
      512 * ((size + 512 - 1) / 512).toNat) (h : bytesAt env offset size = some c) :
    bytesAt (wholeEnv part medium) offset size = some c := by
  have hok : (fetchAt env offset size).ok = true := by
    unfold bytesAt at h
    dsimp only at h
    by_contra hfail
    rw [Bool.eq_false_of_not_eq_true hfail, Bool.and_false] at h
    cases h
  have hok' : (fetchAt (wholeEnv part medium) offset size).ok = true := by
    rw [fetchAt_ok_iff hcount] at hok ⊢
    exact ⟨hon.part ▸ hok.1, fun _ _ => rfl⟩
  have hbuf := fun j hj => fetchAt_buf (j := j) hon hcount hok hj
  have hbuf' := fun j hj => fetchAt_buf (j := j) (wholeEnv_on part medium) hcount hok' hj
  have hin' (e : Env) (i : Nat) (hi : i < size.toNat) :
      (offset.toUInt64 - (fetchAt e offset size).base * 512).toNat + i <
        512 * ((size + 512 - 1) / 512).toNat :=
    lt_of_lt_of_le (Nat.add_lt_add_left hi _) hin
  unfold bytesAt at h ⊢
  simp only [hok, hon.blMalloc, Bool.and_self, if_true, Option.some.injEq] at h
  simp only [hok', (wholeEnv_on part medium).blMalloc, Bool.and_self, if_true, Option.some.injEq]
  rw [← h]
  refine Bytes.clip_congr fun i hi => ?_
  exact (hbuf' _ (hin' _ i hi)).trans (hbuf _ (hin' _ i hi)).symm

/-- **A block that can be read is that of the medium.** -/
theorem agrees_whole {part : Partition} {medium : UInt64 → Bytes} {env : Env} {m : Mount}
    (hon : env.On part medium) (hm : m.Sound) :
    Agrees env m (blockAt (wholeEnv part medium) m) := by
  intro n c h
  have hmod : (n * m.blocksize).toNat % 512 = 0 := by
    rw [UInt32.toNat_mul]
    rcases hm.blocksize with hb | hb | hb <;> rw [hb] <;> simp <;> omega
  have hoff : ((n * m.blocksize).toUInt64 - (n * m.blocksize / 512).toUInt64 * 512).toNat = 0 :=
    (toNat_sub_base _).trans hmod
  refine bytesAt_whole hon ?_ ?_ h
  · rcases hm.blocksize with hb | hb | hb <;> rw [hb] <;> decide
  · rw [hoff]
    rcases hm.blocksize with hb | hb | hb <;> rw [hb] <;> decide

end MbBootTv
