import Mathlib.Data.List.FinRange
import MbBootTv.Ext2.Blocks

/-!
# Path walking (`ext2fs.c`)

The inode table with `ext2_iget` and `ext2_iput`, the directory reader `ext2_readdiri` and the
walk `ext2_namei`.

The walk takes its path apart in place, and the path may stand in four places: the caller's
buffer, the `fullname` of `ext2_follow_link`, `blkbuf` (a link kept in a block, which the walk
overwrites as it goes) and the `i_block` of an inode (a short link). `Region` says which.
-/

namespace MbBootTv

/-- `MAX_OPEN_FILES` -/
abbrev maxOpenFiles : Nat := 32

/-- An index into the inode table, and so also a `struct ext2_inode *` that points into it. -/
abbrev Slot := Fin maxOpenFiles

/-- `struct inode_table_entry` -/
structure InodeEntry where
  inode : Inode
  inumber : UInt32
  blFree : Bool
  oldMode : UInt16
  pos : UInt32

/-- The inode table, and `root_inode`. -/
structure Table where
  inodeTable : Slot → InodeEntry
  rootInode : Option Slot

namespace Table

/-- `inode_table[i] = e` -/
def set (t : Table) (i : Slot) (e : InodeEntry) : Table :=
  { t with inodeTable := Function.update t.inodeTable i e }

/-- The first entry with `bl_free` set. -/
def firstFree (t : Table) : Option Slot :=
  (List.finRange maxOpenFiles).find? fun i => (t.inodeTable i).blFree

end Table

/-- The number of group descriptors that fit the memory allocated for them. -/
def Mount.gdsCount (m : Mount) : Nat := (m.ngroups * groupDescSize).toNat / groupDescSize.toNat

/-- The byte offset of inode `ino`, whose group is `group`. -/
def Mount.inodeOffset (m : Mount) (group : Nat) (ino : UInt32) : UInt32 :=
  bgInodeTable m.gds group * m.blocksize +
    (ino - 1) % m.sb.sInodesPerGroup * m.sb.ext2InodeSize

/-- `ext2_iget` -/
def ext2Iget (env : Env) (m : Mount) (b : Bufs) (t : Table) (ino : UInt32) :
    Except Fault (Option Slot × Bufs × Table) :=
  match t.firstFree with
  | none => .ok (none, b, t)
  | some i =>
    if m.sb.sInodesPerGroup = 0 then .error .divByZero
    else
      let group := ((ino - 1) / m.sb.sInodesPerGroup).toNat
      if m.gdsCount ≤ group then .error .groupIndex
      else
        match readBytes env b (m.inodeOffset group ino) inodeSize with
        | (none, b) => .ok (none, b, t)
        | (some data, b) =>
          let ip : Inode := Bytes.clip data inodeSize.toNat
          .ok (some i, b, t.set i { t.inodeTable i with
            inode := ip, inumber := ino, blFree := false, oldMode := ip.iMode })

/-- `ext2_iput` -/
def ext2Iput (t : Table) (i : Slot) : Table :=
  t.set i { t.inodeTable i with inumber := 0, blFree := true }

/-! ## `ext2_readdiri` -/

/-- Read block `blkno` of a directory into `blkbuf`; false when `ext2_breadi` is negative. -/
def readDirBlock (env : Env) (m : Mount) (b : Bufs) (dirInode : Inode) (blkno : UInt32) :
    Except Fault (Bool × Bufs) := do
  let (r, blk, b) ← ext2Breadi env m b dirInode blkno 1 b.blkbuf ext2MaxBlockSize
  return (!sneg r, { b with blkbuf := blk })

/-- Return the entry at `blockoffset` and step over it. -/
def nextDirEntry (b : Bufs) : Except Fault (Option Nat × Bufs) :=
  let dp := b.blockoffset.toNat
  if dp + 6 ≤ ext2MaxBlockSize then
    .ok (some dp,
      { b with blockoffset := b.blockoffset + (DirEntry.recLen b.blkbuf dp).toUInt32 })
  else .error .outOfBounds

/-- The second half of `ext2_readdiri`: the next block when this one is used up, then the entry. -/
def readdiriNext (env : Env) (m : Mount) (b : Bufs) (dirInode : Inode) :
    Except Fault (Option Nat × Bufs) :=
  if sle m.blocksize b.blockoffset then
    let b := { b with diroffset := b.diroffset + m.blocksize }
    if dirInode.iSize ≤ b.diroffset then .ok (none, b)
    else if m.blocksize = 0 then .error .divByZero
    else do
      let blkno := (b.diroffset.toInt32 / m.blocksize.toInt32).toUInt32
      let (ok, b) ← readDirBlock env m b dirInode blkno
      if !ok then return (none, b)
      nextDirEntry { b with blockoffset := 0 }
  else nextDirEntry b

/-- `ext2_readdiri`: the offset in `blkbuf` of the entry it returns. -/
def ext2Readdiri (env : Env) (m : Mount) (b : Bufs) (dirInode : Inode) (rewind : Bool) :
    Except Fault (Option Nat × Bufs) :=
  if rewind then do
    let (ok, b) ← readDirBlock env m { b with diroffset := 0, blockoffset := 0 } dirInode 0
    if !ok then return (none, b)
    readdiriNext env m b dirInode
  else readdiriNext env m b dirInode

/-! ## `ext2_namei` -/

/-- Where a string stands. -/
inductive Region
  | name
  | fullname
  | blkbuf
  | inode (i : Slot)

/-- The whole state behind `this`, with the strings: the caller's buffer of `nameCap` bytes and
the `fullname` of `ext2_follow_link`. -/
structure St where
  mount : Mount
  bufs : Bufs
  table : Table
  name : Bytes
  nameCap : Nat
  fullname : Bytes

/-- `EXT2FS_PATH_MAXLEN` -/
def ext2fsPathMaxlen : Nat := 4095

namespace St

/-- What stands in a region, as a function of what stands in `blkbuf`. -/
def textOf (s : St) : Region → Bytes → Bytes
  | .name, _ => s.name
  | .fullname, _ => s.fullname
  | .blkbuf, blk => blk
  | .inode i, _ => (s.table.inodeTable i).inode

/-- What stands in a region. -/
def text (s : St) (r : Region) : Bytes := s.textOf r s.bufs.blkbuf

/-- The length of a region. -/
def cap (s : St) : Region → Nat
  | .name => s.nameCap
  | .fullname => ext2fsPathMaxlen
  | .blkbuf => ext2MaxBlockSize
  | .inode _ => inodeSize.toNat

/-- Replace what stands in a region. -/
def setText (s : St) (r : Region) (mem : Bytes) : St :=
  match r with
  | .name => { s with name := mem }
  | .fullname => { s with fullname := mem }
  | .blkbuf => { s with bufs := { s.bufs with blkbuf := mem } }
  | .inode i => { s with table := s.table.set i { s.table.inodeTable i with inode := mem } }

/-- `ext2_iget` on the whole state. -/
def iget (env : Env) (s : St) (ino : UInt32) : Except Fault (Option Slot × St) := do
  let (ip, b, t) ← ext2Iget env s.mount s.bufs s.table ino
  return (ip, { s with bufs := b, table := t })

end St

/-- Byte `i` of the name of the entry at `dp`. -/
def dirNameByte (blk : Bytes) (dp i : Nat) : Except Fault UInt8 :=
  loadByte blk ext2MaxBlockSize (dp + DirEntry.nameOffset + i)

/-- The name of the entry at `dp` is the component: `len` bytes from `component` on, in a string
of which `text` says what it is while `blkbuf` holds a block. -/
def nameMatches (text : Bytes → Bytes) (cap component len : Nat) (blk : Bytes) (dp : Nat) :
    Except Fault Bool := do
  let nameLen ← loadByte blk ext2MaxBlockSize (dp + 6)
  if nameLen.toNat = len then do
    let r ← strncmp (fun i => loadByte (text blk) cap (component + i)) (dirNameByte blk dp) 0 len
    return r = 0
  else return false

/-- `while ((dp = ext2_readdiri (..)))`: the inode number found, -1 when there is none. At most
`fuel` entries are looked at. -/
def nameiSearch (env : Env) (m : Mount) (dirInode : Inode) (text : Bytes → Bytes)
    (cap component len : Nat) : Nat → Bool → Bufs → Except Fault (UInt32 × Bufs)
  | 0, _, _ => .error .fuel
  | fuel + 1, rewind, b => do
    let (dp, b) ← ext2Readdiri env m b dirInode rewind
    match dp with
    | none => return (-1, b)
    | some dp =>
      if ← nameMatches text cap component len b.blkbuf dp then
        return (DirEntry.inode b.blkbuf dp, b)
      else nameiSearch env m dirInode text cap component len fuel false b

/-- `while (component)`, over at most `n` components. -/
def nameiLoop (env : Env) (fuel : Nat) (r : Region) :
    Nat → Slot → Option Nat → Option Nat → St → Except Fault (Option Slot × St)
  | _, dirInode, none, _, s => .ok (some dirInode, s)
  | 0, _, some _, _, _ => .error .fuel
  | n + 1, dirInode, some component, last, s => do
    let len ← strlen (s.text r) (s.cap r) component
    let (nextIno, b) ← nameiSearch env s.mount (s.table.inodeTable dirInode).inode (s.textOf r)
      (s.cap r) component len fuel true s.bufs
    -- This directory is done with, found or not; the root stays.
    let t := if s.table.rootInode = some dirInode then s.table else ext2Iput s.table dirInode
    let s := { s with bufs := b, table := t }
    if sneg nextIno then return (none, s)
    let (ip, s) ← s.iget env nextIno
    match ip with
    | none => return (none, s)
    | some dirInode => do
      let (component, last, mem) ← strtokSimple (s.text r) (s.cap r) none last 47
      nameiLoop env fuel r n dirInode component last (s.setText r mem)

/-- `if (!root_inode) root_inode = ext2_iget (EXT2_ROOT_INO)` -/
def loadRoot (env : Env) (s : St) : Except Fault St :=
  match s.table.rootInode with
  | some _ => .ok s
  | none => do
    let (ip, s) ← s.iget env ext2RootIno
    return { s with table := { s.table with rootInode := ip } }

/-- `ext2_namei` of the string at `name` in region `r`. The static `last` of `strtok_simple` is
written before it is read. A string of `cap` bytes has at most `cap + 1` components. -/
def ext2Namei (env : Env) (fuel : Nat) (s : St) (r : Region) (name : Nat) :
    Except Fault (Option Slot × St) := do
  let s ← loadRoot env s
  match s.table.rootInode with
  | none => return (none, s)
  | some root => do
    let (component, last, mem) ← strtokSimple (s.text r) (s.cap r) (some name) none 47
    nameiLoop env fuel r (s.cap r + 1) root component last (s.setText r mem)

end MbBootTv
