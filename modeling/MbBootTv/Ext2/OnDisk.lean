import MbBootTv.Ext2.Offsets
import MbBootTv.Ext2.ReadBlock
import MbBootTv.Ext2.ReadBytes

/-!
# What is on the disk

The bytes of the partition at an offset of any size, and with them the blocks and the inodes of the
file system. `read_bytes` is given its offset in a 32-bit word, so what it delivers for a block or
an inode (`blockAt`, `inodeAt`) is what the disk holds there when it begins in the first 4 GiB of
the partition.

The map of the format (`formatBlkno`) goes to the end of the double-indirect range, and fails where
an indirect block cannot be read.
-/

namespace MbBootTv

instance (env : Env) (j : Nat) : Decidable (env.HasByte j) := inferInstanceAs (Decidable (_ ∧ _))

/-- The `size` bytes of the partition from byte `offset` on, when each of them can be read. -/
def diskBytes (env : Env) (offset size : Nat) : Option Bytes :=
  if ∀ j < size, env.HasByte (offset + j) then
    some (Bytes.clip (fun j => (partByte env (offset + j)).getD 0) size)
  else none

/-- Block `n` of the file system, when memory can be had for it and it can be read. -/
def diskBlock (env : Env) (m : Mount) (n : UInt32) : Option Bytes :=
  if env.blMalloc m.blocksize then diskBytes env (n.toNat * m.bs) m.bs else none

/-- Inode `ino` of the file system, when memory can be had for it and it can be read. -/
def diskInode (env : Env) (m : Mount) (ino : UInt32) : Option Inode :=
  if env.blMalloc 512 then diskBytes env (m.inodePos ino) inodeSize.toNat else none

section Reads

variable {env : Env} {m : Mount}

/-- Bytes within the sectors that are fetched for them are delivered as they are on the disk. -/
theorem bytesAt_eq_diskBytes {offset size : UInt32} (h0 : size ≠ 0) (hw : Within offset size)
    (hmem : env.blMalloc ((size + 512 - 1) / 512 * 512) = true) :
    bytesAt env offset size = diskBytes env offset.toNat size.toNat := by
  have hbytes := (readBytes_eq env (emptyBufs []) offset size).2
  unfold diskBytes
  by_cases hfetch : env.CanFetch offset size
  · obtain ⟨data, hread, hdata⟩ := readBytes_data hmem hfetch (emptyBufs [])
    rw [hread, Option.map_some] at hbytes
    rw [← hbytes, if_pos (hasByte_of_canFetch hw hfetch)]
    refine congrArg some (Bytes.clip_congr fun j hj => ?_)
    rw [hdata, if_pos ((Nat.add_lt_add_left hj _).trans_le (within_iff.mp hw))]
  · rw [(readBytes_fst_eq_none_iff hmem _).mpr hfetch] at hbytes
    rw [← hbytes, if_neg fun h => hfetch (canFetch_of_hasByte h0 h)]
    rfl

/-- As many sectors are fetched for whole sectors. -/
theorem sectorCount_eq {size : UInt32} (hsize : size.toNat % 512 = 0) :
    512 * sectorCount size = size.toNat := by
  have hlt := size.toNat_lt
  have hround : (size + 512 - 1).toNat = size.toNat + 511 := by
    rw [UInt32.toNat_sub, UInt32.toNat_add]
    simp
    omega
  unfold sectorCount
  rw [UInt32.toNat_div, hround]
  show 512 * ((size.toNat + 511) / 512) = _
  omega

theorem round_sectors {size : UInt32} (hsize : size.toNat % 512 = 0) :
    (size + 512 - 1) / 512 * 512 = size := by
  have hlt := size.toNat_lt
  have hcount := sectorCount_eq hsize
  unfold sectorCount at hcount
  rw [← UInt32.toNat_inj, UInt32.toNat_mul]
  show ((size + 512 - 1) / 512).toNat * 512 % 2 ^ 32 = _
  omega

theorem within_sectors {offset size : UInt32} (hoffset : offset.toNat % 512 = 0)
    (hsize : size.toNat % 512 = 0) : Within offset size := by
  rw [within_iff, hoffset, sectorCount_eq hsize, Nat.zero_add]

/-- **A block in reach is delivered as it is on the disk.** -/
theorem blockAt_eq_diskBlock {n : UInt32} (hsize : m.bs % 512 = 0) (hpos : 0 < m.bs)
    (hreach : n.toNat * m.bs < 2 ^ 32) :
    blockAt env m n = diskBlock env m n := by
  have hround : (m.blocksize + 512 - 1) / 512 * 512 = m.blocksize := round_sectors hsize
  have hoffset : (n * m.blocksize).toNat = n.toNat * m.bs := by
    rw [UInt32.toNat_mul]
    exact Nat.mod_eq_of_lt hreach
  unfold blockAt diskBlock
  by_cases hmem : env.blMalloc m.blocksize = true
  · have h0 : m.blocksize ≠ 0 := fun h0 => by
      rw [Mount.bs, h0] at hpos
      exact absurd hpos (Nat.lt_irrefl 0)
    rw [if_pos hmem, ← hoffset]
    exact bytesAt_eq_diskBytes h0 (within_sectors (toNat_mul_blocksize_mod hsize n) hsize)
      (by rw [hround]; exact hmem)
  · rw [if_neg hmem, bytesAt, hround, Bool.eq_false_of_not_eq_true hmem, Bool.false_and]
    rfl

theorem Mount.Sound.blockAt_eq {n : UInt32} (hm : m.Sound) (hreach : n.toNat * m.bs < 2 ^ 32) :
    blockAt env m n = diskBlock env m n := by
  refine blockAt_eq_diskBlock ?_ ?_ hreach <;>
    rcases hm.cases with ⟨h, -⟩ | ⟨h, -⟩ | ⟨h, -⟩ <;> rw [h] <;> decide

/-- An inode in reach, too, when inodes do not cross sectors. -/
theorem inodeAt_eq_diskInode {ino : UInt32} (h1 : 1 ≤ ino.toNat)
    (hsize : m.sb.ext2InodeSize.toNat % 128 = 0) (hbs : m.bs % 128 = 0)
    (hreach : m.inodePos ino < 2 ^ 32) : inodeAt env m ino = diskInode env m ino := by
  have hoffset : (m.inodeOffset (m.groupOf ino) ino).toNat = m.inodePos ino := by
    rw [Mount.toNat_inodeOffset h1, Nat.mod_eq_of_lt hreach]
  have hround : (inodeSize + 512 - 1) / 512 * 512 = 512 := by decide
  have hmod : m.inodePos ino % 128 = 0 := by
    unfold Mount.inodePos
    rw [Nat.add_mod, Nat.mul_mod _ m.bs, hbs, Nat.mul_mod _ m.sb.ext2InodeSize.toNat, hsize]
    rfl
  unfold inodeAt diskInode
  by_cases hmem : env.blMalloc 512 = true
  · rw [if_pos hmem, ← hoffset]
    refine bytesAt_eq_diskBytes (by decide) ?_ (by rw [hround]; exact hmem)
    show _ + 128 ≤ 512 * 1
    rw [hoffset]
    omega
  · rw [if_neg hmem, bytesAt, hround, Bool.eq_false_of_not_eq_true hmem, Bool.false_and]
    rfl

end Reads

/-! ## The map of the format -/

/-- Pointer `i` of indirect block `n`, a hole below a hole; nothing when `n` cannot be read. -/
def formatPointer (truth : UInt32 → Option Bytes) (n : UInt32) (i : Nat) : Option UInt32 :=
  if n = 0 then some 0 else (truth n).map fun c => c.le32 (4 * i)

/-- The block that the direct, single- and double-indirect pointers of a file give block `k`;
nothing when they do not reach `k`, or an indirect block cannot be read. -/
def formatBlkno (m : Mount) (truth : UInt32 → Option Bytes) (ip : Inode) (k : Nat) :
    Option UInt32 :=
  if k < 12 then some (ip.iBlock k)
  else if k < 12 + m.ptrs then formatPointer truth (ip.iBlock ext2IndBlock) (k - 12)
  else if k < 12 + m.ptrs + m.ptrs * m.ptrs then
    (formatPointer truth (ip.iBlock ext2DindBlock) ((k - 12 - m.ptrs) / m.ptrs)).bind fun n =>
      formatPointer truth n ((k - 12 - m.ptrs) % m.ptrs)
  else none

/-- Block `k` of a file, as it is on the disk; nothing when it, or an indirect block on the way,
cannot be read, or the pointers do not reach it. -/
def formatBlock (env : Env) (m : Mount) (ip : Inode) (k : Nat) : Option Bytes :=
  (formatBlkno m (diskBlock env m) ip k).bind fun n =>
    if n = 0 then some fun _ => 0 else diskBlock env m n

/-- Whatever `ext2_blkno` and `ext2_breadi` read for block `k` of a file begins in the first 4 GiB
of the partition. -/
structure InReach (env : Env) (m : Mount) (ip : Inode) (k : Nat) : Prop where
  ind : 12 ≤ k → k < 12 + m.ptrs → (ip.iBlock ext2IndBlock).toNat * m.bs < 2 ^ 32
  dind : 12 + m.ptrs ≤ k → k < 12 + m.ptrs * m.ptrs →
    (ip.iBlock ext2DindBlock).toNat * m.bs < 2 ^ 32
  entry : 12 + m.ptrs ≤ k → k < 12 + m.ptrs * m.ptrs → ∀ n,
    formatPointer (diskBlock env m) (ip.iBlock ext2DindBlock) ((k - 12 - m.ptrs) / m.ptrs) =
      some n → n.toNat * m.bs < 2 ^ 32
  data : k < 12 + m.ptrs * m.ptrs → ∀ n, formatBlkno m (diskBlock env m) ip k = some n →
    n.toNat * m.bs < 2 ^ 32

section Maps

variable {env : Env} {m : Mount} {truth : UInt32 → Option Bytes} {ip : Inode} {k : Nat}

theorem pointer_eq (truth : UInt32 → Option Bytes) (n : UInt32) (i : Nat) :
    pointer truth n i = (formatPointer truth n i).getD 0 := by
  unfold pointer formatPointer
  by_cases h : n = 0
  · rw [if_pos h, if_pos h]
    rfl
  · rw [if_neg h, if_neg h]
    cases truth n with
    | none => rfl
    | some c => rfl

/-- Below its limit the code maps as the format does, with 0 for a failure. -/
theorem blknoOf_of_lt (h : k < 12 + m.ptrs * m.ptrs) :
    blknoOf m truth ip k = (formatBlkno m truth ip k).getD 0 := by
  unfold blknoOf formatBlkno
  by_cases h0 : k < 12
  · rw [if_pos h0, if_pos h0]
    rfl
  · rw [if_neg h0, if_neg h0]
    by_cases h1 : k < 12 + m.ptrs
    · rw [if_pos h1, if_pos h1, pointer_eq]
    · rw [if_neg h1, if_neg h1, if_pos h, if_pos (by omega), pointer_eq, pointer_eq]
      cases formatPointer truth (ip.iBlock ext2DindBlock) ((k - 12 - m.ptrs) / m.ptrs) with
      | none => simp [formatPointer]
      | some n => rfl

theorem blknoOf_of_ge (h : 12 + m.ptrs * m.ptrs ≤ k) :
    blknoOf m truth ip k = 0 := by
  have hsq : m.ptrs ≤ m.ptrs * m.ptrs := Nat.le_mul_self m.ptrs
  unfold blknoOf
  rw [if_neg (by omega), if_neg (by omega), if_neg (by omega)]

theorem fileBlock_of_ge (h : 12 + m.ptrs * m.ptrs ≤ k) :
    fileBlock env m truth ip k = some fun _ => 0 := by
  unfold fileBlock
  rw [blknoOf_of_ge h, if_pos rfl]

/-- The number that marks a cache as empty is out of reach. -/
theorem Mount.Sound.ne_sentinel (hm : m.Sound) {n : UInt32} (h : n.toNat * m.bs < 2 ^ 32) :
    n ≠ -1 := by
  rintro rfl
  have hmax : (-1 : UInt32).toNat = 2 ^ 32 - 1 := rfl
  rw [hmax] at h
  rcases hm.cases with ⟨hb, -⟩ | ⟨hb, -⟩ | ⟨hb, -⟩ <;> rw [hb] at h <;> omega

/-- A pointer in reach is read as it is on the disk. -/
theorem formatPointer_blockAt (hm : m.Sound) {n : UInt32} (h : n.toNat * m.bs < 2 ^ 32) (i : Nat) :
    formatPointer (blockAt env m) n i = formatPointer (diskBlock env m) n i := by
  unfold formatPointer
  rw [hm.blockAt_eq h]

theorem InReach.blkno (h : InReach env m ip k) (hm : m.Sound) (hk : k < 12 + m.ptrs * m.ptrs) :
    formatBlkno m (blockAt env m) ip k = formatBlkno m (diskBlock env m) ip k := by
  unfold formatBlkno
  by_cases h0 : k < 12
  · rw [if_pos h0, if_pos h0]
  rw [if_neg h0, if_neg h0]
  by_cases h1 : k < 12 + m.ptrs
  · rw [if_pos h1, if_pos h1, formatPointer_blockAt hm (h.ind (not_lt.mp h0) h1)]
  · rw [if_neg h1, if_neg h1, if_pos (by omega), if_pos (by omega),
      formatPointer_blockAt hm (h.dind (not_lt.mp h1) hk)]
    cases hn : formatPointer (diskBlock env m) (ip.iBlock ext2DindBlock)
        ((k - 12 - m.ptrs) / m.ptrs) with
    | none => rfl
    | some n =>
      rw [Option.bind_some, Option.bind_some,
        formatPointer_blockAt hm (h.entry (not_lt.mp h1) hk n hn)]

theorem InReach.noSentinel (h : InReach env m ip k) (hm : m.Sound) :
    NoSentinelAt m (blockAt env m) ip k where
  ind hlo hlt := hm.ne_sentinel (h.ind hlo hlt)
  dind hlo hlt := hm.ne_sentinel (h.dind hlo hlt)
  entry hlo hlt := by
    rw [pointer_eq, formatPointer_blockAt hm (h.dind hlo hlt)]
    cases hn : formatPointer (diskBlock env m) (ip.iBlock ext2DindBlock)
        ((k - 12 - m.ptrs) / m.ptrs) with
    | none => decide
    | some n => exact hm.ne_sentinel (h.entry hlo hlt n hn)

/-- In reach, and below its limit, the code delivers what the format names, and a hole where an
indirect block cannot be read. -/
theorem InReach.fileBlock (h : InReach env m ip k) (hm : m.Sound) (hk : k < 12 + m.ptrs * m.ptrs) :
    fileBlock env m (blockAt env m) ip k =
      (formatBlkno m (diskBlock env m) ip k).elim (some fun _ => 0) fun n =>
        if n = 0 then some fun _ => 0 else diskBlock env m n := by
  unfold MbBootTv.fileBlock
  rw [blknoOf_of_lt hk, h.blkno hm hk]
  cases hn : formatBlkno m (diskBlock env m) ip k with
  | none => exact if_pos rfl
  | some n =>
    rw [Option.getD_some, hm.blockAt_eq (h.data hk n hn)]
    rfl

/-- A block the code cannot deliver is a data block that the map reaches. -/
theorem InReach.fileBlock_eq_none_iff (h : InReach env m ip k) (hm : m.Sound) :
    MbBootTv.fileBlock env m (blockAt env m) ip k = none ↔
      k < 12 + m.ptrs * m.ptrs ∧ ∃ n, n ≠ 0 ∧ formatBlkno m (diskBlock env m) ip k = some n ∧
        diskBlock env m n = none := by
  by_cases hk : k < 12 + m.ptrs * m.ptrs
  · rw [h.fileBlock hm hk]
    cases formatBlkno m (diskBlock env m) ip k with
    | none => simp
    | some n => by_cases h0 : n = 0 <;> simp [h0, hk]
  · rw [fileBlock_of_ge (by omega)]
    simp [hk]

/-- A block the format delivers is delivered by the code, too, in reach and below its limit. -/
theorem InReach.fileBlock_of_format (h : InReach env m ip k) (hm : m.Sound)
    (hk : k < 12 + m.ptrs * m.ptrs) (hf : formatBlock env m ip k ≠ none) :
    MbBootTv.fileBlock env m (blockAt env m) ip k = formatBlock env m ip k := by
  unfold formatBlock at hf ⊢
  rw [h.fileBlock hm hk]
  cases hn : formatBlkno m (diskBlock env m) ip k with
  | none =>
    rw [hn] at hf
    exact absurd rfl hf
  | some n => rfl

/-- A direct block is in reach when it begins in the first 4 GiB. -/
theorem inReach_of_lt (hk : k < 12) (h : (ip.iBlock k).toNat * m.bs < 2 ^ 32) :
    InReach env m ip k where
  ind hlo := absurd hlo (by omega)
  dind hlo := absurd hlo (by omega)
  entry hlo := absurd hlo (by omega)
  data _ n hn := by
    rw [formatBlkno, if_pos hk] at hn
    exact Option.some.inj hn ▸ h

theorem InReach.formatBlock_eq (h : InReach env m ip k) (hm : m.Sound) (hk : k < 12) :
    formatBlock env m ip k = MbBootTv.fileBlock env m (blockAt env m) ip k := by
  rw [h.fileBlock hm (by omega), formatBlock, formatBlkno, if_pos hk]
  rfl

theorem InReach.formatBlock_of_none (h : InReach env m ip k) (hm : m.Sound)
    (hnone : MbBootTv.fileBlock env m (blockAt env m) ip k = none) :
    formatBlock env m ip k = none := by
  obtain ⟨-, n, h0, hmap, hblk⟩ := (h.fileBlock_eq_none_iff hm).mp hnone
  rw [formatBlock, hmap, Option.bind_some, if_neg h0, hblk]

end Maps

end MbBootTv
