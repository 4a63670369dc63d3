import Mathlib.Tactic.IntervalCases
import MbBootTv.Ext2.Files
import MbBootTv.Ext2.Map

/-!
# The mounted file system

What `ext2fs_fs_open` leaves behind when it returns 0. The only thing that it demands of the
superblock is its magic number, so the block size can be anything that the shift yields; for a
block that fits the buffers the limits of the block map are those of `Mount.Sound`.
-/

namespace MbBootTv

/-- The state of a file system that was just mounted. -/
structure Mounted (s : St) : Prop where
  table : s.table = emptyTable
  bufs : ∃ fetches, s.bufs = emptyBufs fetches
  blocksize : s.mount.blocksize = s.mount.sb.ext2BlockSize
  blocksize_ne : s.mount.blocksize ≠ 0
  directlim : s.mount.directlim = 11
  ptrsPerBlk : s.mount.ptrsPerBlk = s.mount.blocksize / 4
  ind1lim : s.mount.ind1lim = s.mount.ptrsPerBlk + 11
  ind2lim : s.mount.ind2lim = s.mount.ptrsPerBlk * s.mount.ptrsPerBlk + 11

theorem ext2fsInitState_spec {env : Env} {sb : SuperBlock} {fetches : List Fetch} {s : St}
    (h : ext2fsInitState env sb fetches = .ok (some s)) : Mounted s := by
  unfold ext2fsInitState at h
  split_ifs at h with hgroup
  dsimp only at h
  split_ifs at h with hmalloc hbs
  · cases h
  have hfetch := (readBytes_eq env (emptyBufs fetches) (sb.ext2BlockSize *
    (ext2MinBlockSize / sb.ext2BlockSize + 1)) ((sb.sBlocksCount - sb.sFirstDataBlock +
      sb.sBlocksPerGroup - 1) / sb.sBlocksPerGroup * groupDescSize)).1
  split at h
  · cases h
  · next gds b hread =>
    rw [hread] at hfetch
    obtain rfl := Option.some.inj (Except.ok.inj h)
    refine ⟨rfl, ?_, rfl, hbs, rfl, rfl, rfl, rfl⟩
    dsimp only at hfetch ⊢
    rw [hfetch]
    unfold Bufs.fetch
    split
    · exact ⟨_, rfl⟩
    · exact ⟨_, rfl⟩

theorem ext2fsFsOpen_spec {env : Env} {w : Option St} {s : St}
    (h : ext2fsFsOpen env w = .ok (0, some s)) : Mounted s := by
  unfold ext2fsFsOpen at h
  split at h
  · cases h
  · split_ifs at h
    · cases h
    · obtain ⟨w', hinit, h⟩ := bind_eq_ok.mp h
      cases w' with
      | none => cases h
      | some s' =>
        cases h
        exact ext2fsInitState_spec hinit

/-- A block size that fits the buffers is one of three. -/
theorem SuperBlock.ext2BlockSize_cases {sb : SuperBlock} (h0 : sb.ext2BlockSize ≠ 0)
    (hle : sb.ext2BlockSize.toNat ≤ ext2MaxBlockSize) :
    sb.ext2BlockSize = 1024 ∨ sb.ext2BlockSize = 2048 ∨ sb.ext2BlockSize = 4096 := by
  have hshift : sb.ext2BlockSize.toNat = 1024 <<< (sb.sLogBlockSize.toNat % 32) % 2 ^ 32 :=
    UInt32.toNat_shiftLeft _ _
  rw [ext2MaxBlockSize] at hle
  simp only [← UInt32.toNat_inj, ne_eq] at h0 ⊢
  rw [hshift] at h0 hle ⊢
  have hlt : sb.sLogBlockSize.toNat % 32 < 32 := Nat.mod_lt _ (by decide)
  generalize sb.sLogBlockSize.toNat % 32 = k at h0 hle hlt ⊢
  interval_cases k <;> simp_all

theorem Mounted.sound {s : St} (h : Mounted s)
    (hbs : s.mount.blocksize.toNat ≤ ext2MaxBlockSize) : s.mount.Sound where
  blocksize := by
    rw [h.blocksize]
    exact SuperBlock.ext2BlockSize_cases (h.blocksize ▸ h.blocksize_ne) (h.blocksize ▸ hbs)
  directlim := h.directlim
  ptrsPerBlk := h.ptrsPerBlk
  ind1lim := h.ind1lim
  ind2lim := h.ind2lim

/-- The caches start with zeros under the number that no block has. -/
theorem hold_emptyBufs {m : Mount} {R : UInt32 → Bytes → Prop} (hR : R (-1) fun _ => 0)
    (fetches : List Fetch) : (emptyBufs fetches).Hold m R := by
  have hzero (n : Nat) : Bytes.clip (fun _ => 0) n = fun _ => 0 := by
    funext i
    unfold Bytes.clip
    split <;> rfl
  constructor
  · unfold Bufs.iblk Memo.Holds
    exact (hzero _).symm ▸ hR
  · unfold Bufs.diblk Memo.Holds
    exact (hzero _).symm ▸ hR

theorem Mounted.hold {s : St} (h : Mounted s) {R : UInt32 → Bytes → Prop}
    (hR : R (-1) fun _ => 0) : s.bufs.Hold s.mount R := by
  obtain ⟨fetches, hbufs⟩ := h.bufs
  rw [hbufs]
  exact hold_emptyBufs hR _

/-! ## A small file system

For the examples: blocks of 1024 bytes, one group, the root directory in inode 2 and block 4, and
one more inode, 3. -/

/-- A region of zeros. -/
def zeros : Bytes := fun _ => 0

/-- The superblock. -/
def smallSuper (blocks blocksPerGroup inodesPerGroup : UInt32) : Bytes :=
  let sb := (zeros.putLe 4 4 blocks.toNat).putLe 20 4 1
  let sb := (sb.putLe 32 4 blocksPerGroup.toNat).putLe 40 4 inodesPerGroup.toNat
  sb.putLe 56 2 ext2SuperMagic.toNat

/-- The inode of a file of type `mode` with `size` bytes, of which block `k` is block `n`. -/
def smallInode (mode : UInt16) (size : UInt32) (k : Nat) (n : UInt32) : Inode :=
  let ip := (zeros.putLe 0 2 mode.toNat).putLe 4 4 size.toNat
  ip.putLe (Inode.iBlockOffset + 4 * k) 4 n.toNat

/-- A block with one record, for inode `ino` under the name of the one letter `c`. -/
def smallDir (ino : UInt32) (c : UInt8) : Bytes :=
  (((zeros.putLe 0 4 ino.toNat).putLe 4 2 1024).putLe 6 1 1).putLe DirEntry.nameOffset 1 c.toNat

/-- The sectors: the superblock, one group descriptor, the inode table in block 3, the root
directory, and block 5 with `data`. -/
def smallDisk (sb ip dir data : Bytes) (l : UInt64) : Bytes :=
  match l.toNat with
  | 2 => sb
  | 4 => zeros.putLe 8 4 3
  | 6 => (zeros.copy 128 (smallInode 0x41ED 1024 0 4) 128).copy 256 ip 128
  | 8 => dir
  | 10 => data
  | _ => zeros

/-- The partition it is in. -/
def smallPart : Partition := ⟨0, 64⟩

/-- The small file system with the file `ip` under the name `f`. -/
def fileDisk (ip : Inode) : UInt64 → Bytes :=
  smallDisk (smallSuper 32 8192 8) ip (smallDir 3 102) fun i => UInt8.ofNat (65 + i)

/-- The small file system with a file of five bytes. -/
def letters : UInt64 → Bytes := fileDisk (smallInode 0x81A4 5 0 5)

/-- The path `f`. -/
def pathF : Bytes := zeros.putLe 0 1 102

end MbBootTv
