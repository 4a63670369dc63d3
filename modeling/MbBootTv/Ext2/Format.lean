import MbBootTv.Lib.Bytes

/-!
# The ext2 format (`ext2_fs.h`)

The on-disk structures as the bytes they are, with the fields the loader looks at. On this
machine (i386) `int`, `long` and `unsigned int` are all 32-bit words: a `UInt32` stands for the
bits, and the few signed comparisons go through `sle` and `Int32`.
-/

namespace MbBootTv

/-- `a <= b` for two signed words. -/
def sle (a b : UInt32) : Bool := a.toInt32 ≤ b.toInt32

/-- A negative word. -/
def sneg (a : UInt32) : Bool := a.toInt32 < 0

/-- `EXT2_ROOT_INO` -/
def ext2RootIno : UInt32 := 2

/-- `EXT2_SUPER_MAGIC` -/
def ext2SuperMagic : UInt16 := 0xEF53

/-- `EXT2_MIN_BLOCK_SIZE` -/
def ext2MinBlockSize : UInt32 := 1024

/-- `EXT2_MAX_BLOCK_SIZE`, the length of `blkbuf`, `iblkbuf` and `diblkbuf`. -/
def ext2MaxBlockSize : Nat := 4096

/-- `EXT2_NDIR_BLOCKS` -/
def ext2NdirBlocks : UInt32 := 12

/-- `EXT2_IND_BLOCK` -/
def ext2IndBlock : Nat := 12

/-- `EXT2_DIND_BLOCK` -/
def ext2DindBlock : Nat := 13

/-- `EXT2_N_BLOCKS` -/
def ext2NBlocks : Nat := 15

/-- `struct ext2_super_block` -/
abbrev SuperBlock := Bytes

namespace SuperBlock

def sBlocksCount (sb : SuperBlock) : UInt32 := sb.le32 4
def sFirstDataBlock (sb : SuperBlock) : UInt32 := sb.le32 20
def sLogBlockSize (sb : SuperBlock) : UInt32 := sb.le32 24
def sBlocksPerGroup (sb : SuperBlock) : UInt32 := sb.le32 32
def sInodesPerGroup (sb : SuperBlock) : UInt32 := sb.le32 40
def sMagic (sb : SuperBlock) : UInt16 := sb.le16 56
def sRevLevel (sb : SuperBlock) : UInt32 := sb.le32 76
def sInodeSize (sb : SuperBlock) : UInt16 := sb.le16 88

/-- `EXT2_BLOCK_SIZE`. The shift count is taken modulo 32, as the machine does. -/
def ext2BlockSize (sb : SuperBlock) : UInt32 := ext2MinBlockSize <<< sb.sLogBlockSize

/-- `EXT2_INODE_SIZE` -/
def ext2InodeSize (sb : SuperBlock) : UInt32 :=
  if sb.sRevLevel = 0 then 128 else sb.sInodeSize.toUInt32

end SuperBlock

/-- `sizeof (struct ext2_super_block)` -/
def superBlockSize : UInt32 := 1024

/-- `sizeof (struct ext2_group_desc)` -/
def groupDescSize : UInt32 := 32

/-- `gds[g].bg_inode_table` -/
def bgInodeTable (gds : Bytes) (g : Nat) : UInt32 := gds.le32 (32 * g + 8)

/-- `struct ext2_inode` -/
abbrev Inode := Bytes

/-- `sizeof (struct ext2_inode)` -/
def inodeSize : UInt32 := 128

namespace Inode

def iMode (ip : Inode) : UInt16 := ip.le16 0
def iSize (ip : Inode) : UInt32 := ip.le32 4
def iBlocks (ip : Inode) : UInt32 := ip.le32 28

/-- The offset of `i_block`. -/
def iBlockOffset : Nat := 40

/-- `i_block[k]` -/
def iBlock (ip : Inode) (k : Nat) : UInt32 := ip.le32 (iBlockOffset + 4 * k)

/-- `S_ISDIR (i_mode)` -/
def sIsdir (ip : Inode) : Bool := ip.iMode &&& 0xF000 = 0x4000

/-- `S_ISLNK (i_mode)` -/
def sIslnk (ip : Inode) : Bool := ip.iMode &&& 0xF000 = 0xA000

end Inode

/-! `struct ext2_dir_entry_2`, at byte `o` of a block. -/

namespace DirEntry

def inode (blk : Bytes) (o : Nat) : UInt32 := blk.le32 o
def recLen (blk : Bytes) (o : Nat) : UInt16 := blk.le16 (o + 4)
def nameLen (blk : Bytes) (o : Nat) : UInt8 := blk (o + 6)

/-- The offset of `name`. -/
def nameOffset : Nat := 8

end DirEntry

/-! ## Signed words -/

theorem sle_iff {a b : UInt32} (ha : a.toNat < 2 ^ 31) (hb : b.toNat < 2 ^ 31) :
    sle a b = true ↔ a.toNat ≤ b.toNat := by
  rw [sle, decide_eq_true_iff, Int32.le_iff_toInt_le, toInt_toInt32_of_lt ha,
    toInt_toInt32_of_lt hb, Int.ofNat_le]

theorem sneg_of_lt {a : UInt32} (h : a.toNat < 2 ^ 31) : sneg a = false := by
  rw [sneg, decide_eq_false_iff_not, Int32.lt_iff_toInt_lt, toInt_toInt32_of_lt h]
  exact not_lt.mpr (Int.natCast_nonneg _)

end MbBootTv
