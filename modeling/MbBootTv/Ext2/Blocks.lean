import MbBootTv.Disk
import MbBootTv.Strings
import MbBootTv.Ext2.Format

/-!
# Reading blocks (`ext2fs.c`)

`read_bytes`, the block map `ext2_blkno` with its two indirect-block caches, and the block reader
`ext2_breadi`.

The state `ext2fs_priv_state_t` is kept in parts, by what changes it: `Mount` is fixed at mount
time, `Bufs` are the block buffers and what belongs to them, and the inode table comes with the
files that use it. A function takes the parts it uses and returns those it changes.

Each call of `read_bytes` that gets as far as `partition_read` is recorded in `fetches`. The debug
and error texts are left out.
-/

namespace MbBootTv

/-- What the surroundings answer during a call: the disk, the partition it is read through, and
the allocator (`bl_malloc` fails, or hands out memory with some content). -/
structure Env where
  dev : Device
  part : Partition
  blMalloc : UInt32 → Bool
  heap : Bytes

/-- A call `partition_read (buffer, base, count)`, and whether it read all of it. -/
structure Fetch where
  base : UInt64
  count : UInt64
  ok : Bool
  deriving DecidableEq

/-- The part of `ext2fs_priv_state_t` that `ext2fs_init_state` computes. -/
structure Mount where
  sb : SuperBlock
  gds : Bytes
  ngroups : UInt32
  directlim : UInt32
  ind1lim : UInt32
  ind2lim : UInt32
  ptrsPerBlk : UInt32
  blocksize : UInt32

/-- The block buffers, the numbers of the cached indirect blocks, and the two static offsets of
`ext2_readdiri`. -/
structure Bufs where
  blkbuf : Bytes
  cachedIblkno : UInt32
  iblkbuf : Bytes
  cachedDiblkno : UInt32
  diblkbuf : Bytes
  diroffset : UInt32
  blockoffset : UInt32
  fetches : List Fetch

/-! ## `read_bytes` -/

/-- `read_bytes`: the bytes it stores from `addr` on, or nothing when it returns -1. Past the
sectors that were read they are whatever stands behind them on the heap. -/
def readBytes (env : Env) (b : Bufs) (offset size : UInt32) : Option Bytes × Bufs :=
  let base : UInt64 := (offset / 512).toUInt64
  let count : UInt32 := (size + 512 - 1) / 512
  let bufferSize := count * 512
  if !env.blMalloc bufferSize then (none, b)
  else
    let r := partitionRead env.dev env.part env.heap base count.toUInt64
    let ok : Bool := UInt32.ofInt r.ret = count
    let b := { b with fetches := b.fetches ++ [⟨base, count.toUInt64, ok⟩] }
    if !ok then (none, b)
    else (some fun i => r.buf ((offset.toUInt64 - base * 512).toNat + i), b)

/-! ## `ext2_blkno` -/

/-- `((unsigned int *) buf)[i]` in a buffer of `EXT2_MAX_BLOCK_SIZE` bytes. -/
def ptrAt (buf : Bytes) (i : UInt32) : Except Fault UInt32 :=
  if 4 * i.toNat < ext2MaxBlockSize then .ok (buf.le32 (4 * i.toNat)) else .error .outOfBounds

/-- The read of block `iblkno` through `iblkbuf`, which stands twice in `ext2_blkno`; false when
the block cannot be read. -/
def loadIblk (env : Env) (m : Mount) (b : Bufs) (iblkno : UInt32) : Except Fault (Bool × Bufs) :=
  if b.cachedIblkno ≠ iblkno then
    match readBytes env b (iblkno * m.blocksize) m.blocksize with
    | (none, b) => .ok (false, b)
    | (some data, b) =>
      if ext2MaxBlockSize < m.blocksize.toNat then .error .overrun
      else
        .ok (true, { b with
          iblkbuf := b.iblkbuf.copy 0 data m.blocksize.toNat
          cachedIblkno := iblkno })
  else .ok (true, b)

/-- The same through `diblkbuf`. -/
def loadDiblk (env : Env) (m : Mount) (b : Bufs) (diblkno : UInt32) : Except Fault (Bool × Bufs) :=
  if b.cachedDiblkno ≠ diblkno then
    match readBytes env b (diblkno * m.blocksize) m.blocksize with
    | (none, b) => .ok (false, b)
    | (some data, b) =>
      if ext2MaxBlockSize < m.blocksize.toNat then .error .overrun
      else
        .ok (true, { b with
          diblkbuf := b.diblkbuf.copy 0 data m.blocksize.toNat
          cachedDiblkno := diblkno })
  else .ok (true, b)

/-- Pointer `i` of the single-indirect block `iblkno`: 0 when there is no such block or it cannot
be read. -/
def indEntry (env : Env) (m : Mount) (b : Bufs) (iblkno i : UInt32) :
    Except Fault (UInt32 × Bufs) :=
  if iblkno = 0 then .ok (0, b)
  else do
    let (ok, b) ← loadIblk env m b iblkno
    if !ok then return (0, b)
    let blkno ← ptrAt b.iblkbuf i
    return (blkno, b)

/-- The same for the double-indirect block `diblkno`. -/
def dindEntry (env : Env) (m : Mount) (b : Bufs) (diblkno i : UInt32) :
    Except Fault (UInt32 × Bufs) :=
  if diblkno = 0 then .ok (0, b)
  else do
    let (ok, b) ← loadDiblk env m b diblkno
    if !ok then return (0, b)
    let iblkno ← ptrAt b.diblkbuf i
    return (iblkno, b)

/-- `ext2_blkno`. Behind the limits the offsets are not negative, so the signed division is that of
the words; its divisor is looked at before the double-indirect block here. -/
def ext2Blkno (env : Env) (m : Mount) (b : Bufs) (ip : Inode) (blkoff : UInt32) :
    Except Fault (UInt32 × Bufs) :=
  if sle blkoff m.directlim then
    if blkoff.toNat < ext2NBlocks then .ok (ip.iBlock blkoff.toNat, b) else .error .outOfBounds
  else if sle blkoff m.ind1lim then
    indEntry env m b (ip.iBlock ext2IndBlock) (blkoff - (m.directlim + 1))
  else if sle blkoff m.ind2lim then
    if m.ptrsPerBlk = 0 then .error .divByZero
    else do
      let off := blkoff - (m.ind1lim + 1)
      let (iblkno, b) ← dindEntry env m b (ip.iBlock ext2DindBlock) (off / m.ptrsPerBlk)
      indEntry env m b iblkno (off % m.ptrsPerBlk)
  else .ok (0, b)

/-! ## `ext2_breadi` -/

/-- The locals of the inner loop of `ext2_breadi`. -/
structure ContigLoop where
  blkno : UInt32
  nblks : Nat
  ncontig : UInt32
  nbytes : UInt32
  bufs : Bufs

/-- `do { .. } while (nblks && ext2_blkno (..) == dev_blkno + ncontig)`, with `n + 1` blocks to
go. -/
def contigLoop (env : Env) (m : Mount) (ip : Inode) (devBlkno : UInt32) :
    Nat → ContigLoop → Except Fault ContigLoop
  | 0, l => .ok { l with
      blkno := l.blkno + 1
      nblks := 0
      ncontig := l.ncontig + 1
      nbytes := l.nbytes + m.blocksize }
  | n + 1, l => do
    let l := { l with
      blkno := l.blkno + 1
      nblks := n + 1
      ncontig := l.ncontig + 1
      nbytes := l.nbytes + m.blocksize }
    let (r, b) ← ext2Blkno env m l.bufs ip l.blkno
    if r = devBlkno + l.ncontig then contigLoop env m ip devBlkno n { l with bufs := b }
    else return { l with bufs := b }

/-- The locals of the outer loop; `buffer` stands `pos` bytes into the caller's array. -/
structure BreadiLoop where
  blkno : UInt32
  nblks : Nat
  buffer : Bytes
  pos : Nat
  totBytes : UInt32
  bufs : Bufs

/-- `while (nblks)`. Each pass takes at least one block, so `nblks` passes do. -/
def breadiLoop (env : Env) (m : Mount) (ip : Inode) (cap : Nat) :
    Nat → BreadiLoop → Except Fault (UInt32 × Bytes × Bufs)
  | 0, l => .ok (l.totBytes, l.buffer, l.bufs)
  | f + 1, l =>
    match l.nblks with
    | 0 => .ok (l.totBytes, l.buffer, l.bufs)
    | n + 1 => do
      let (devBlkno, b) ← ext2Blkno env m l.bufs ip l.blkno
      let c ← contigLoop env m ip devBlkno n ⟨l.blkno, n + 1, 0, 0, b⟩
      let nbytes := c.nbytes.toNat
      if devBlkno = 0 then
        -- a hole
        if cap < l.pos + nbytes then .error .overrun
        else
          breadiLoop env m ip cap f {
            blkno := c.blkno, nblks := c.nblks
            buffer := l.buffer.fill l.pos 0 nbytes, pos := l.pos + nbytes
            totBytes := l.totBytes + c.nbytes, bufs := c.bufs }
      else
        match readBytes env c.bufs (devBlkno * m.blocksize) c.nbytes with
        | (none, b) => return (-1, l.buffer, b)
        | (some data, b) =>
          if cap < l.pos + nbytes then .error .overrun
          else
            breadiLoop env m ip cap f {
              blkno := c.blkno, nblks := c.nblks
              buffer := l.buffer.copy l.pos data nbytes, pos := l.pos + nbytes
              totBytes := l.totBytes + c.nbytes, bufs := b }

/-- `ext2_breadi` into an array of `cap` bytes: what it returns, and the array. -/
def ext2Breadi (env : Env) (m : Mount) (b : Bufs) (ip : Inode) (blkno nblks : UInt32)
    (buffer : Bytes) (cap : Nat) : Except Fault (UInt32 × Bytes × Bufs) :=
  if (blkno + nblks) * m.blocksize > ip.iSize then
    if m.blocksize = 0 then .error .divByZero
    else
      let nblks := (ip.iSize + m.blocksize) / m.blocksize - blkno
      breadiLoop env m ip cap nblks.toNat ⟨blkno, nblks.toNat, buffer, 0, 0, b⟩
  else breadiLoop env m ip cap nblks.toNat ⟨blkno, nblks.toNat, buffer, 0, 0, b⟩

end MbBootTv
