import MbBootTv.Ext2.Namei

/-!
# Files (`ext2fs.c`)

The operations on files and the mount. `this` is an `Option St`, `none` when it is `NULL`. A
descriptor is an index into the inode table; the checks let the index just past its end through.

`MIN` comes from a header that is not part of the sources; it is the minimum.
-/

namespace MbBootTv

/-! ## Opening -/

/-- The text of the link in slot `i`: the block it is kept in, read into `blkbuf`, or its
`i_block`; nothing when the block cannot be read. -/
def linkText (env : Env) (s : St) (i : Slot) : Except Fault (Option (Region × Nat) × St) :=
  let ip := (s.table.inodeTable i).inode
  if ip.iBlocks ≠ 0 then do
    let (r, blk, b) ← ext2Breadi env s.mount s.bufs ip 0 1 s.bufs.blkbuf ext2MaxBlockSize
    let s := { s with bufs := { b with blkbuf := blk } }
    return (if r = -1 then none else some (.blkbuf, 0), s)
  else .ok (some (.inode i, Inode.iBlockOffset), s)

/-- `base` up to the slash at `e`, then the link: `fullname`, or nothing when that is too long. -/
def joinPath (s : St) (e : Nat) (r : Region) (linkto : Nat) : Except Fault (Option Bytes) := do
  let len ← strlen (s.text r) (s.cap r) linkto
  if ext2fsPathMaxlen ≤ e + 1 + len + 1 then return none
  let full ← strncpy s.fullname ext2fsPathMaxlen 0 (loadByte s.name s.nameCap) 0 (e + 1)
  let full ← strcat (full.fill (e + 1) 0 1) ext2fsPathMaxlen 0 (s.text r) (s.cap r) linkto
  return some full

/-- `ext2_follow_link`; its `base` is the name that was opened. -/
def ext2FollowLink (env : Env) (fuel : Nat) (s : St) (i : Slot) :
    Except Fault (Option Slot × St) := do
  let (text, s) ← linkText env s i
  match text with
  | none => return (none, s)
  | some (r, linkto) => do
    let c ← loadByte (s.text r) (s.cap r) linkto
    if c ≠ 47 then do
      match ← strrchr s.name s.nameCap 0 47 with
      | some e =>
        match ← joinPath s e r linkto with
        | none => return (none, s)
        | some full => ext2Namei env fuel { s with fullname := full } .fullname 0
      | none => ext2Namei env fuel s r linkto
    else ext2Namei env fuel s r linkto

/-- `while (S_ISLNK (ip->i_mode))`, following at most `n` links. Each one takes another slot of the
inode table, so `maxOpenFiles` are enough. -/
def openLoop (env : Env) (fuel : Nat) : Nat → Slot → St → Except Fault (Option Slot × St)
  | n, i, s =>
    if (s.table.inodeTable i).inode.sIslnk then
      match n with
      | 0 => .error .fuel
      | n + 1 => do
        let (ip, s) ← ext2FollowLink env fuel s i
        match ip with
        | none => return (none, s)
        | some i => openLoop env fuel n i s
    else .ok (some i, s)

/-- `ext2_open` of the name in the caller's buffer. -/
def ext2Open (env : Env) (fuel : Nat) (s : St) : Except Fault (Option Slot × St) := do
  let (ip, s) ← ext2Namei env fuel s .name 0
  match ip with
  | none => return (none, s)
  | some i => openLoop env fuel maxOpenFiles i s

/-- `ext2fs_open`: the descriptor it stores, or nothing when it returns -1. -/
def ext2fsOpen (env : Env) (fuel : Nat) (w : Option St) (name : Bytes) (cap : Nat) :
    Except Fault (Option Slot × Option St) :=
  match w with
  | none => .ok (none, none)
  | some s => do
    let len ← strlen name cap 0
    if ext2fsPathMaxlen ≤ len then return (none, some s)
    let (i, s) ← ext2Open env fuel { s with name := name, nameCap := cap }
    match i with
    | none => return (none, some s)
    | some i => do
      let t := s.table.set i { s.table.inodeTable i with pos := 0 }
      return (some i, some { s with table := t })

/-! ## Descriptors -/

/-- The check `fd > MAX_OPEN_FILES`, and the index it lets through. -/
def checkFd (fd : UInt32) : Except Fault (Option Slot) :=
  if h : fd.toNat < maxOpenFiles then .ok (some ⟨fd.toNat, h⟩)
  else if fd.toNat = maxOpenFiles then .error .outOfBounds
  else .ok none

/-- `ext2fs_close` -/
def ext2fsClose (w : Option St) (fd : UInt32) : Except Fault (Int × Option St) :=
  match w with
  | none => .ok (-1, none)
  | some s => do
    match ← checkFd fd with
    | none => return (-1, some s)
    | some i =>
      -- the root inode is never closed
      if s.table.rootInode = some i then return (0, some s)
      else return (0, some { s with table := ext2Iput s.table i })

/-- `ext2fs_seek` -/
def ext2fsSeek (w : Option St) (fd : UInt32) (newpos : UInt64) : Except Fault (Int × Option St) :=
  match w with
  | none => .ok (-1, none)
  | some s =>
    if 0x100000000 ≤ newpos then .ok (-1, some s)
    else do
      match ← checkFd fd with
      | none => return (-1, some s)
      | some i =>
        let e := s.table.inodeTable i
        if newpos > e.inode.iSize.toUInt64 then return (-1, some s)
        else return (0, some { s with table := s.table.set i { e with pos := newpos.toUInt32 } })

/-! ## Reading -/

/-- `MIN` -/
def cMin (a b : UInt32) : UInt32 := if a ≤ b then a else b

/-- The locals of `ext2fs_read`, with `*size` and what was stored in `buf`. -/
structure ReadLoop where
  count : UInt32
  pos : UInt32
  size : UInt32
  buf : Bytes
  bufs : Bufs

/-- `while (count)`: false when a block cannot be read. Each pass takes at least one byte, so
`count` passes do. -/
def readLoop (env : Env) (m : Mount) (ip : Inode) : Nat → ReadLoop → Except Fault (Bool × ReadLoop)
  | 0, l => .ok (true, l)
  | n + 1, l =>
    if l.count = 0 then .ok (true, l)
    else if m.blocksize = 0 then .error .divByZero
    else do
      let bnum := l.pos / m.blocksize
      let bofs := l.pos % m.blocksize
      let nc := cMin l.count (m.blocksize - bofs)
      let (r, blk, b) ← ext2Breadi env m l.bufs ip bnum 1 l.bufs.blkbuf ext2MaxBlockSize
      let b := { b with blkbuf := blk }
      if r = -1 then return (false, { l with bufs := b })
      if ext2MaxBlockSize < bofs.toNat + nc.toNat then .error .outOfBounds
      else
        readLoop env m ip n {
          count := l.count - nc, pos := l.pos + nc, size := l.size + nc
          buf := l.buf.copy l.size.toNat (fun i => blk (bofs.toNat + i)) nc.toNat, bufs := b }

/-- What `ext2fs_read` returns, `*size`, and the caller's buffer. -/
structure ReadResult where
  ret : Int
  size : UInt32
  buf : Bytes

/-- `ext2fs_read` on the entry of the inode table. -/
def readSlot (env : Env) (s : St) (i : Slot) (buf : Bytes) (size : UInt32) :
    Except Fault (ReadResult × St) :=
  let e := s.table.inodeTable i
  let count := cMin size (e.inode.iSize - e.pos)
  if count = 0 then .ok (⟨0, 0, buf⟩, s)
  else do
    let (ok, l) ← readLoop env s.mount e.inode count.toNat ⟨count, e.pos, 0, buf, s.bufs⟩
    let s := { s with bufs := l.bufs }
    if !ok then return (⟨-1, l.size, l.buf⟩, s)
    return (⟨0, l.size, l.buf⟩,
      { s with table := s.table.set i { e with pos := e.pos + l.size } })

/-- `ext2fs_read` -/
def ext2fsRead (env : Env) (w : Option St) (fd : UInt32) (buf : Bytes) (size : UInt32) :
    Except Fault (ReadResult × Option St) :=
  match w with
  | none => .ok (⟨-1, size, buf⟩, none)
  | some s => do
    match ← checkFd fd with
    | none => return (⟨-1, size, buf⟩, some s)
    | some i => do
      let (r, s) ← readSlot env s i buf size
      return (r, some s)

/-! ## Mounting -/

/-- An inode table of zeros, every entry free. -/
def emptyTable : Table where
  inodeTable := fun _ => ⟨fun _ => 0, 0, true, 0, 0⟩
  rootInode := none

/-- The buffers after `memset`, with no indirect block cached. -/
def emptyBufs (fetches : List Fetch) : Bufs where
  blkbuf := fun _ => 0
  cachedIblkno := -1
  iblkbuf := fun _ => 0
  cachedDiblkno := -1
  diblkbuf := fun _ => 0
  diroffset := 0
  blockoffset := 0
  fetches := fetches

/-- `ext2fs_init_state`: the state, or nothing when it returns -1. The divisor of
`EXT2_MIN_BLOCK_SIZE/blocksize` is a `long`; read as a word it gives the same quotient. -/
def ext2fsInitState (env : Env) (sb : SuperBlock) (fetches : List Fetch) :
    Except Fault (Option St) :=
  if sb.sBlocksPerGroup = 0 then .error .divByZero
  else
    let ngroups :=
      (sb.sBlocksCount - sb.sFirstDataBlock + sb.sBlocksPerGroup - 1) / sb.sBlocksPerGroup
    if !env.blMalloc (ngroups * groupDescSize) then .ok none
    else
      let blocksize := sb.ext2BlockSize
      if blocksize = 0 then .error .divByZero
      else
        match readBytes env (emptyBufs fetches) (blocksize * (ext2MinBlockSize / blocksize + 1))
            (ngroups * groupDescSize) with
        | (none, _) => .ok none
        | (some gds, b) =>
          let directlim := ext2NdirBlocks - 1
          let ptrsPerBlk := blocksize / 4
          .ok (some {
            mount := {
              sb, gds, ngroups, directlim, ptrsPerBlk, blocksize
              ind1lim := ptrsPerBlk + directlim
              ind2lim := ptrsPerBlk * ptrsPerBlk + directlim }
            bufs := b
            table := emptyTable
            name := fun _ => 0
            nameCap := 0
            fullname := fun _ => 0 })

/-- `ext2fs_fs_open` -/
def ext2fsFsOpen (env : Env) (w : Option St) : Except Fault (Int × Option St) := do
  match readBytes env (emptyBufs []) (1 * ext2MinBlockSize) superBlockSize with
  | (none, _) => return (-1, w)
  | (some sb, b) =>
    if SuperBlock.sMagic sb ≠ ext2SuperMagic then return (-1, w)
    match ← ext2fsInitState env sb b.fetches with
    | none => return (-1, none)
    | some s => return (0, some s)

/-- `ext2fs_fs_close` -/
def ext2fsFsClose : Option St := none

end MbBootTv
