import MbBootTv.Lib.Bytes

/-!
# The disk and the partition window

`disk_read` hands out one 512-byte sector or fails. `partition.c` puts a window over the disk: a
read that fits the window's size goes to consecutive sectors from the window's start on, until
one of them fails.

`partitionRead` also lists the sectors it handed to `disk_read`, in order, so that what it
touched can be talked about.
-/

namespace MbBootTv

/-- The open disk: what `disk_read` answers for each sector (nothing when it returns nonzero),
and `disk.sectors`. -/
structure Device where
  diskRead : UInt64 → Option Bytes
  sectors : UInt64

namespace Device

/-- `disk_last_sector` -/
def diskLastSector (d : Device) : UInt64 := d.sectors - 1

end Device

/-- `struct partition`, and the `start` and `size` of partition.c that `partition_set` copies
it to. -/
structure Partition where
  start : UInt64
  size : UInt64

/-- `partition_set` -/
def partitionSet (p : Partition) : Partition := ⟨p.start, p.size⟩

/-! ## `partition_read` -/

/-- The locals of `partition_read`'s loop; `buf` stands `512 * red` bytes into the buffer. -/
structure PartitionLoop where
  red : Nat
  sector : UInt64
  buf : Bytes
  lbas : List UInt64

/-- `while (nsectors--)` -/
def partitionReadLoop (d : Device) : Nat → PartitionLoop → PartitionLoop
  | 0, s => s
  | n + 1, s =>
    match d.diskRead s.sector with
    | none => { s with lbas := s.lbas ++ [s.sector] }
    | some data =>
      partitionReadLoop d n
        { red := s.red + 1
          sector := s.sector + 1
          buf := s.buf.copy (512 * s.red) data 512
          lbas := s.lbas ++ [s.sector] }

/-- What `partition_read` returns, what it leaves in the buffer, and the sectors it passed to
`disk_read`. -/
structure PartitionRead where
  ret : Int
  buf : Bytes
  lbas : List UInt64

/-- `partition_read`. The count `red` is an `int`. -/
def partitionRead (d : Device) (p : Partition) (buf : Bytes) (sector nsectors : UInt64) :
    PartitionRead :=
  if sector + nsectors > p.size then ⟨-1, buf, []⟩
  else
    let s := partitionReadLoop d nsectors.toNat ⟨0, sector + p.start, buf, []⟩
    ⟨(s.red : Int).bmod (2 ^ 32), s.buf, s.lbas⟩

/-! ## What the loop does -/

theorem sector_succ (s : UInt64) (i : Nat) :
    s + 1 + UInt64.ofNat i = s + UInt64.ofNat (i + 1) := by
  rw [UInt64.ofNat_add, UInt64.add_assoc, UInt64.add_comm 1]
  rfl

theorem partitionReadLoop_red_le (d : Device) (n : Nat) (s : PartitionLoop) :
    (partitionReadLoop d n s).red ≤ s.red + n := by
  induction n generalizing s with
  | zero => exact le_rfl
  | succ n ih =>
    simp only [partitionReadLoop]
    split
    · exact Nat.le_add_right _ _
    · refine (ih _).trans ?_
      show s.red + 1 + n ≤ s.red + (n + 1)
      omega

/-- The loop runs to its end exactly when every sector can be read. -/
theorem partitionReadLoop_red_eq_iff (d : Device) (n : Nat) (s : PartitionLoop) :
    (partitionReadLoop d n s).red = s.red + n ↔
      ∀ i < n, (d.diskRead (s.sector + UInt64.ofNat i)).isSome := by
  induction n generalizing s with
  | zero => simp [partitionReadLoop]
  | succ n ih =>
    rw [Nat.forall_lt_succ_left]
    simp only [partitionReadLoop, ← sector_succ]
    have h0 : s.sector + UInt64.ofNat 0 = s.sector := by simp
    rw [h0]
    cases hd : d.diskRead s.sector with
    | none => simp
    | some data =>
      have := ih { red := s.red + 1, sector := s.sector + 1
                   buf := s.buf.copy (512 * s.red) data 512, lbas := s.lbas ++ [s.sector] }
      simp only [Option.isSome_some, true_and]
      rw [← this]
      show _ = s.red + (n + 1) ↔ _ = s.red + 1 + n
      omega

/-- The sectors handed to `disk_read`: each one whose predecessors were all read. -/
theorem mem_partitionReadLoop_lbas (d : Device) (n : Nat) (s : PartitionLoop) (l : UInt64) :
    l ∈ (partitionReadLoop d n s).lbas ↔
      l ∈ s.lbas ∨ ∃ j < n, (∀ i < j, (d.diskRead (s.sector + UInt64.ofNat i)).isSome) ∧
        l = s.sector + UInt64.ofNat j := by
  induction n generalizing s with
  | zero => simp [partitionReadLoop]
  | succ n ih =>
    have h0 : s.sector + UInt64.ofNat 0 = s.sector := by simp
    simp only [partitionReadLoop]
    cases hd : d.diskRead s.sector with
    | none =>
      simp only [List.mem_append, List.mem_singleton]
      constructor
      · rintro (h | rfl)
        · exact Or.inl h
        · exact Or.inr ⟨0, Nat.succ_pos n, by simp, h0.symm⟩
      · rintro (h | ⟨j, -, hread, rfl⟩)
        · exact Or.inl h
        · cases j with
          | zero => exact Or.inr h0
          | succ j =>
            have := hread 0 (Nat.succ_pos j)
            simp [hd] at this
    | some data =>
      rw [ih]
      simp only [List.mem_append, List.mem_singleton, sector_succ]
      constructor
      · rintro ((h | rfl) | ⟨j, hj, hread, rfl⟩)
        · exact Or.inl h
        · exact Or.inr ⟨0, Nat.succ_pos n, by simp, h0.symm⟩
        · refine Or.inr ⟨j + 1, Nat.succ_lt_succ hj, ?_, rfl⟩
          rw [Nat.forall_lt_succ_left, h0, hd]
          exact ⟨rfl, hread⟩
      · rintro (h | ⟨j, hj, hread, rfl⟩)
        · exact Or.inl (Or.inl h)
        · cases j with
          | zero => exact Or.inl (Or.inr h0)
          | succ j =>
            exact Or.inr ⟨j, Nat.lt_of_succ_lt_succ hj,
              fun i hi => hread (i + 1) (Nat.succ_lt_succ hi), rfl⟩

/-- A finished loop leaves sector `i` at byte `512 * i`, counted from where it started. -/
theorem partitionReadLoop_buf (d : Device) (n : Nat) (s : PartitionLoop) (f : Nat → Bytes)
    (hf : ∀ i < n, d.diskRead (s.sector + UInt64.ofNat i) = some (f i)) (j : Nat) :
    (partitionReadLoop d n s).buf j =
      if 512 * s.red ≤ j ∧ j < 512 * (s.red + n) then
        f ((j - 512 * s.red) / 512) ((j - 512 * s.red) % 512)
      else s.buf j := by
  induction n generalizing s f with
  | zero =>
    rw [if_neg (by omega)]
    rfl
  | succ n ih =>
    have h0 : d.diskRead s.sector = some (f 0) := by simpa using hf 0 (Nat.succ_pos n)
    simp only [partitionReadLoop, h0]
    rw [ih { red := s.red + 1, sector := s.sector + 1
             buf := s.buf.copy (512 * s.red) (f 0) 512, lbas := s.lbas ++ [s.sector] }
      (fun i => f (i + 1)) (fun i hi => by
        rw [sector_succ]
        exact hf (i + 1) (Nat.succ_lt_succ hi))]
    simp only [Bytes.copy]
    -- The byte lies in a later sector, in this one, or outside what the loop fills.
    by_cases hlater : 512 * (s.red + 1) ≤ j ∧ j < 512 * (s.red + 1 + n)
    · rw [if_pos hlater, if_pos (by omega)]
      have hdiv : (j - 512 * s.red) / 512 = (j - 512 * (s.red + 1)) / 512 + 1 := by omega
      have hmod : (j - 512 * s.red) % 512 = (j - 512 * (s.red + 1)) % 512 := by omega
      rw [hdiv, hmod]
    · rw [if_neg hlater]
      by_cases hthis : 512 * s.red ≤ j ∧ j < 512 * s.red + 512
      · rw [if_pos hthis, if_pos (by omega)]
        have hdiv : (j - 512 * s.red) / 512 = 0 := by omega
        have hmod : (j - 512 * s.red) % 512 = j - 512 * s.red := by omega
        rw [hdiv, hmod]
      · rw [if_neg hthis, if_neg (by omega)]

/-- A request past the window is refused without touching the disk. -/
theorem partitionRead_refused {d : Device} {p : Partition} {buf : Bytes} {sector nsectors : UInt64}
    (h : sector + nsectors > p.size) :
    partitionRead d p buf sector nsectors = ⟨-1, buf, []⟩ :=
  if_pos h

theorem partitionRead_accepted {d : Device} {p : Partition} {buf : Bytes}
    {sector nsectors : UInt64} (h : ¬ sector + nsectors > p.size) :
    partitionRead d p buf sector nsectors =
      ⟨((partitionReadLoop d nsectors.toNat ⟨0, sector + p.start, buf, []⟩).red : Int).bmod
          (2 ^ 32),
        (partitionReadLoop d nsectors.toNat ⟨0, sector + p.start, buf, []⟩).buf,
        (partitionReadLoop d nsectors.toNat ⟨0, sector + p.start, buf, []⟩).lbas⟩ :=
  if_neg h

theorem mem_partitionRead_lbas {d : Device} {p : Partition} {buf : Bytes}
    {sector nsectors : UInt64} (h : ¬ sector + nsectors > p.size) (l : UInt64) :
    l ∈ (partitionRead d p buf sector nsectors).lbas ↔
      ∃ j < nsectors.toNat,
        (∀ i < j, (d.diskRead (sector + p.start + UInt64.ofNat i)).isSome) ∧
          l = sector + p.start + UInt64.ofNat j := by
  rw [partitionRead_accepted h]
  simpa using mem_partitionReadLoop_lbas d nsectors.toNat ⟨0, sector + p.start, buf, []⟩ l

/-- A count that fits an `int` comes back in full exactly when the request fits the window and
every sector can be read. -/
theorem partitionRead_ret_eq_iff {d : Device} {p : Partition} {buf : Bytes}
    {sector nsectors : UInt64} (hn : nsectors.toNat < 2 ^ 31) :
    (partitionRead d p buf sector nsectors).ret = (nsectors.toNat : Int) ↔
      sector + nsectors ≤ p.size ∧
        ∀ i < nsectors.toNat, (d.diskRead (sector + p.start + UInt64.ofNat i)).isSome := by
  by_cases h : sector + nsectors > p.size
  · rw [partitionRead_refused h]
    constructor
    · intro hret
      have : (0 : Int) ≤ nsectors.toNat := Int.natCast_nonneg _
      dsimp only at hret
      omega
    · intro hle
      exact absurd hle.1 (UInt64.not_le.mpr h)
  · have hle := partitionReadLoop_red_le d nsectors.toNat ⟨0, sector + p.start, buf, []⟩
    have hiff := partitionReadLoop_red_eq_iff d nsectors.toNat ⟨0, sector + p.start, buf, []⟩
    rw [partitionRead_accepted h]
    simp only [Nat.zero_add] at hle hiff
    have hred : ((partitionReadLoop d nsectors.toNat ⟨0, sector + p.start, buf, []⟩).red :
        Int).bmod (2 ^ 32) =
          (partitionReadLoop d nsectors.toNat ⟨0, sector + p.start, buf, []⟩).red :=
      Int.bmod_eq_of_le (by omega) (by omega)
    rw [show (_ : Int).bmod (2 ^ 32) = _ from hred, Int.natCast_inj, hiff]
    exact ⟨fun hr => ⟨UInt64.not_lt.mp h, hr⟩, fun hr => hr.2⟩

end MbBootTv
